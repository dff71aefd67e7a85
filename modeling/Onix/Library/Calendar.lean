import Mathlib.Tactic

/-! Dates and times of the Gregorian calendar, and the days and seconds since the beginning of a year. -/

namespace Calendar

section Blocks

/-- Where block `n` starts, when blocks of these lengths lie one behind the other. -/
def start (length : ℕ → ℕ) (n : ℕ) : ℕ := ∑ i ∈ Finset.range n, length i

variable (length : ℕ → ℕ)

theorem start_succ (n : ℕ) : start length (n + 1) = start length n + length n :=
  Finset.sum_range_succ length n

theorem start_mono {i j : ℕ} (hij : i ≤ j) : start length i ≤ start length j := by
  induction j, hij using Nat.le_induction with
  | base => exact le_rfl
  | succ j _ ih =>
    rw [start_succ]
    omega

/-- A place in a block is in front of all later blocks. -/
theorem start_add_lt {i j r : ℕ} (hij : i < j) (hr : r < length i) : start length i + r < start length j := by
  have hnext := start_mono length (Nat.succ_le_of_lt hij)
  rw [Nat.succ_eq_add_one, start_succ] at hnext
  omega

end Blocks

def Leap (year : ℕ) : Prop := year % 4 = 0 ∧ (year % 100 ≠ 0 ∨ year % 400 = 0)

instance : DecidablePred Leap := fun year =>
  inferInstanceAs (Decidable (year % 4 = 0 ∧ (year % 100 ≠ 0 ∨ year % 400 = 0)))

def days_in_year (year : ℕ) : ℕ := if Leap year then 366 else 365

def days_in_month (year : ℕ) : ℕ → ℕ
  | 2 => if Leap year then 29 else 28
  | 4 | 6 | 9 | 11 => 30
  | _ => 31

theorem days_in_year_le (year : ℕ) : days_in_year year ≤ 366 := by
  unfold days_in_year
  split_ifs <;> omega

theorem days_in_month_le (year month : ℕ) : days_in_month year month ≤ 31 := by
  unfold days_in_month
  split
  · split_ifs <;> omega
  all_goals omega

structure Date where
  year : ℕ
  month : ℕ
  day : ℕ
  month_pos : 1 ≤ month
  month_le : month ≤ 12
  day_pos : 1 ≤ day
  day_le : day ≤ days_in_month year month
  deriving DecidableEq

structure Time extends Date where
  hour : ℕ
  minute : ℕ
  second : ℕ
  hour_lt : hour < 24
  minute_lt : minute < 60
  second_lt : second < 60
  deriving DecidableEq

/-- The days of a year in front of a month. -/
def month_start (year month : ℕ) : ℕ := start (fun k => days_in_month year (k + 1)) (month - 1)

theorem start_months (year : ℕ) : start (fun k => days_in_month year (k + 1)) 12 = days_in_year year := by
  unfold days_in_year
  simp only [start, Finset.sum_range_succ, Finset.sum_range_zero, days_in_month]
  split_ifs <;> rfl

namespace Date

variable (epoch : ℕ) (d e : Date)

def day_of_year : ℕ := month_start d.year d.month + (d.day - 1)

/-- The days since the first of January of `epoch`. -/
def day_number : ℕ := start (fun k => days_in_year (epoch + k)) (d.year - epoch) + d.day_of_year

variable {epoch d e}

theorem day_lt (d : Date) : d.day - 1 < days_in_month d.year (d.month - 1 + 1) := by
  have hpos := d.day_pos
  have hle := d.day_le
  rw [Nat.sub_add_cancel d.month_pos]
  omega

theorem day_of_year_lt (d : Date) : d.day_of_year < days_in_year d.year := by
  have hmonth := d.month_pos
  have hmonth' := d.month_le
  have hlt := start_add_lt (fun k => days_in_month d.year (k + 1)) (show d.month - 1 < 12 by omega) d.day_lt
  rwa [start_months] at hlt

/-- A day is in front of those of later months, and of those of later years. -/
theorem day_of_year_lt_of_month (hyear : d.year = e.year) (hmonth : d.month < e.month) :
    d.day_of_year < e.day_of_year := by
  have hpos := d.month_pos
  have hlt := start_add_lt (fun k => days_in_month d.year (k + 1)) (show d.month - 1 < e.month - 1 by omega) d.day_lt
  unfold day_of_year month_start
  rw [← hyear]
  omega

theorem day_number_lt_of_year (hepoch : epoch ≤ d.year) (hyear : d.year < e.year) :
    d.day_number epoch < e.day_number epoch := by
  have hday := d.day_of_year_lt
  rw [← Nat.add_sub_of_le hepoch] at hday
  have hlt := start_add_lt (fun k => days_in_year (epoch + k)) (show d.year - epoch < e.year - epoch by omega) hday
  unfold day_number
  omega

theorem day_number_lt_of_day (hyear : d.year = e.year) (hday : d.day_of_year < e.day_of_year) :
    d.day_number epoch < e.day_number epoch := by
  unfold day_number
  rw [hyear]
  omega

end Date

namespace Time

variable {epoch : ℕ} (t u : Time)

/-- The order of the times, by year, month, day, hour, minute and second. -/
def Before : Prop :=
  t.year < u.year ∨ t.year = u.year ∧ (t.month < u.month ∨ t.month = u.month ∧ (t.day < u.day ∨ t.day = u.day ∧
    (t.hour < u.hour ∨ t.hour = u.hour ∧ (t.minute < u.minute ∨ t.minute = u.minute ∧ t.second < u.second))))

/-- The seconds since the beginning of `epoch`. -/
def seconds (epoch : ℕ) : ℕ := 86400 * t.day_number epoch + 3600 * t.hour + 60 * t.minute + t.second

variable {t u}

theorem seconds_lt_of_day (h : t.day_number epoch < u.day_number epoch) : t.seconds epoch < u.seconds epoch := by
  have hhour := t.hour_lt
  have hminute := t.minute_lt
  have hsecond := t.second_lt
  unfold seconds
  omega

/-- Later times are more seconds away. -/
theorem Before.seconds_lt (hepoch : epoch ≤ t.year) (h : t.Before u) : t.seconds epoch < u.seconds epoch := by
  have hminute := t.minute_lt
  have hsecond := t.second_lt
  obtain hyear | ⟨hyear, hmonth | ⟨hmonth, hday | ⟨hday, htime⟩⟩⟩ := h
  · exact seconds_lt_of_day (Date.day_number_lt_of_year hepoch hyear)
  · exact seconds_lt_of_day (Date.day_number_lt_of_day hyear (Date.day_of_year_lt_of_month hyear hmonth))
  · have hpos := t.day_pos
    have hlt : t.day_of_year < u.day_of_year := by
      unfold Date.day_of_year
      rw [hyear, hmonth]
      omega
    exact seconds_lt_of_day (Date.day_number_lt_of_day hyear hlt)
  · have heq : t.day_number epoch = u.day_number epoch := by
      unfold Date.day_number Date.day_of_year
      rw [hyear, hmonth, hday]
    unfold seconds
    omega

theorem eq_of_not_before (htu : ¬t.Before u) (hut : ¬u.Before t) : t = u := by
  unfold Before at htu hut
  obtain ⟨⟨_, _, _, _, _, _, _⟩, _, _, _, _, _, _⟩ := t
  obtain ⟨⟨_, _, _, _, _, _, _⟩, _, _, _, _, _, _⟩ := u
  simp only [mk.injEq, Date.mk.injEq]
  dsimp only at htu hut
  omega

/-- Different times are different numbers of seconds away. -/
theorem seconds_injective (ht : epoch ≤ t.year) (hu : epoch ≤ u.year) (h : t.seconds epoch = u.seconds epoch) :
    t = u :=
  eq_of_not_before (fun hlt => Nat.ne_of_lt (hlt.seconds_lt ht) h) fun hlt => Nat.ne_of_lt (hlt.seconds_lt hu) h.symm

end Time

section Clock

/-- Adding to the last digit of a mixed radix: the sum keeps its rest, and carries into the digits in front. -/
theorem add_digit (radix front digit n : ℕ) :
    radix * front + digit + n =
      radix * (front + (digit + n % radix) / radix + n / radix) + (digit + n % radix) % radix := by
  have hn := Nat.div_add_mod n radix
  have hdigit := Nat.div_add_mod (digit + n % radix) radix
  rw [Nat.mul_add, Nat.mul_add]
  omega

/-- Seconds are added to a time of day, one digit after the other. -/
theorem add_seconds (hour minute second secs : ℕ) :
    3600 * ((hour + (minute + (second + secs % 60) / 60 + secs / 60 % 60) / 60 + secs / 60 / 60) % 24) +
        60 * ((minute + (second + secs % 60) / 60 + secs / 60 % 60) % 60) + (second + secs % 60) % 60 =
      (3600 * hour + 60 * minute + second + secs) % 86400 := by
  have hseconds := add_digit 60 (60 * hour + minute) second secs
  have hminutes := add_digit 60 hour (minute + (second + secs % 60) / 60) (secs / 60)
  omega

end Clock

end Calendar
