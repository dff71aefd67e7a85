import Onix.Kernel.State
import Onix.Library.Calendar

open Calendar

namespace onix

abbrev time_t := u32

/-- The fields of `tm` that `mktime` and `get_yday` read. -/
structure tm where
  tm_sec : Int32
  tm_min : Int32
  tm_hour : Int32
  tm_mday : Int32
  tm_mon : Int32
  tm_year : Int32
  deriving DecidableEq, Repr

def MINUTE : Int32 := 60
def HOUR : Int32 := 60 * MINUTE
def DAY : Int32 := 24 * HOUR
def YEAR : Int32 := 365 * DAY

def month : List Int32 := [
  0,
  0,
  31,
  31 + 29,
  31 + 29 + 31,
  31 + 29 + 31 + 30,
  31 + 29 + 31 + 30 + 31,
  31 + 29 + 31 + 30 + 31 + 30,
  31 + 29 + 31 + 30 + 31 + 30 + 31,
  31 + 29 + 31 + 30 + 31 + 30 + 31 + 31,
  31 + 29 + 31 + 30 + 31 + 30 + 31 + 31 + 30,
  31 + 29 + 31 + 30 + 31 + 30 + 31 + 31 + 30 + 31,
  31 + 29 + 31 + 30 + 31 + 30 + 31 + 31 + 30 + 31 + 30]

/-- `month[mon]`, for an index of the array -/
def month_at (mon : Int32) : Int32 := month.getD mon.toInt.toNat 0

/-- The years since 1970. -/
def tm.years (time : tm) : Int32 :=
  if time.tm_year ≥ 70 then time.tm_year - 70 else time.tm_year - 70 + 100

def mktime (time : tm) : time_t :=
  let year := time.years
  let res := (YEAR * year).toUInt32
  let res := res + (DAY * ((year + 1) / 4)).toUInt32
  let res := res + (month_at time.tm_mon * DAY).toUInt32
  let res := if time.tm_mon > 2 ∧ (year + 2) % 4 ≠ 0 then res - DAY.toUInt32 else res
  let res := res + (DAY * (time.tm_mday - 1)).toUInt32
  let res := res + (HOUR * time.tm_hour).toUInt32
  let res := res + (MINUTE * time.tm_min).toUInt32
  res + time.tm_sec.toUInt32

def get_yday (time : tm) : Int32 :=
  let res := month_at time.tm_mon
  let res := res + time.tm_mday
  let year := time.years
  if (year + 2) % 4 ≠ 0 ∧ time.tm_mon > 2 then res - 1 else res

/-- A time with the year in two digits. -/
def tm.of (t : Time) : tm where
  tm_sec := Int32.ofNat t.second
  tm_min := Int32.ofNat t.minute
  tm_hour := Int32.ofNat t.hour
  tm_mday := Int32.ofNat t.day
  tm_mon := Int32.ofNat t.month
  tm_year := Int32.ofNat (t.year % 100)

section Years

theorem years_of_digits : ∀ k < 100, (if Int32.ofNat ((1970 + k) % 100) ≥ 70 then Int32.ofNat ((1970 + k) % 100) - 70
    else Int32.ofNat ((1970 + k) % 100) - 70 + 100) = Int32.ofNat k := by
  decide

theorem past_leap_years : ∀ k < 100, (Int32.ofNat k + 1) / 4 = Int32.ofNat ((k + 1) / 4) := by
  decide

theorem leap_year_digits : ∀ k < 100, (Int32.ofNat k + 2) % 4 = 0 ↔ (k + 2) % 4 = 0 := by
  decide

/-- Every fourth year is a leap year, up to 2099. -/
theorem leap_iff {k : ℕ} (hk : k < 100) : Leap (1970 + k) ↔ (k + 2) % 4 = 0 := by
  unfold Leap
  omega

theorem start_years {k : ℕ} (hk : k ≤ 100) : start (fun i => days_in_year (1970 + i)) k = 365 * k + (k + 1) / 4 := by
  induction k with
  | zero => rfl
  | succ k ih =>
    have hleap := leap_iff (show k < 100 by omega)
    rw [start_succ, ih (by omega)]
    unfold days_in_year
    split_ifs with h
    · have hmod := hleap.mp h
      omega
    · have hmod := mt hleap.mpr h
      omega

end Years

section Months

/-- The table counts February as in a leap year. -/
theorem month_at_eq (year : ℕ) {m : ℕ} (hpos : 1 ≤ m) (hle : m ≤ 12) :
    month_at (Int32.ofNat m) = Int32.ofNat (month_start year m + if 2 < m ∧ ¬Leap year then 1 else 0) := by
  unfold month_start start
  by_cases hleap : Leap year
  · interval_cases m <;> simp [Finset.sum_range_succ, days_in_month, hleap] <;> rfl
  · interval_cases m <;> simp [Finset.sum_range_succ, days_in_month, hleap] <;> rfl

end Months

section Exact

variable {t : Time}

theorem tm.of_years {k : ℕ} (hk : k < 100) (hyear : t.year = 1970 + k) : (tm.of t).years = Int32.ofNat k := by
  rw [← years_of_digits k hk, ← hyear]
  rfl

/-- A product of two numbers of words, taken modulo 2^32. -/
theorem mul_toUInt32 (a b : ℕ) : (Int32.ofNat a * Int32.ofNat b).toUInt32 = UInt32.ofNat (a * b) := by
  rw [← Int32.ofNat_mul]
  rfl

theorem month_gt_two : ∀ m < 13, Int32.ofNat m > 2 ↔ 2 < m := by
  decide

/-- The day that `mktime` takes back behind the February of a common year. -/
theorem tm.of_late {k : ℕ} (hk : k < 100) (hyear : t.year = 1970 + k) :
    (tm.of t).tm_mon > 2 ∧ ((tm.of t).years + 2) % 4 ≠ 0 ↔ 2 < t.month ∧ ¬Leap t.year := by
  have hle := t.month_le
  rw [tm.of_years hk hyear, hyear, ne_eq, leap_year_digits k hk, ← leap_iff hk]
  exact and_congr_left fun _ => month_gt_two t.month (by omega)

theorem mktime_of {k : ℕ} (hk : k < 100) (hyear : t.year = 1970 + k) :
    mktime (tm.of t) = UInt32.ofNat (t.seconds 1970) := by
  have hlate := tm.of_late hk hyear
  have hpast : (YEAR * Int32.ofNat k).toUInt32 = UInt32.ofNat (31536000 * k) := mul_toUInt32 31536000 k
  have hleaps : (DAY * Int32.ofNat ((k + 1) / 4)).toUInt32 = UInt32.ofNat (86400 * ((k + 1) / 4)) :=
    mul_toUInt32 86400 _
  have hdays : (DAY * ((tm.of t).tm_mday - 1)).toUInt32 = UInt32.ofNat (86400 * (t.day - 1)) := by
    rw [← mul_toUInt32, Int32.ofNat_sub t.day 1 t.day_pos]
    rfl
  have hhours : (HOUR * (tm.of t).tm_hour).toUInt32 = UInt32.ofNat (3600 * t.hour) := mul_toUInt32 3600 t.hour
  have hminutes : (MINUTE * (tm.of t).tm_min).toUInt32 = UInt32.ofNat (60 * t.minute) := mul_toUInt32 60 t.minute
  have hseconds : (tm.of t).tm_sec.toUInt32 = UInt32.ofNat t.second := rfl
  have hmonths : (month_at (tm.of t).tm_mon * DAY).toUInt32 =
      UInt32.ofNat ((month_start t.year t.month + if 2 < t.month ∧ ¬Leap t.year then 1 else 0) * 86400) := by
    rw [← mul_toUInt32, ← month_at_eq t.year t.month_pos t.month_le]
    rfl
  have hstart := start_years (Nat.le_of_lt hk)
  have hday := t.day_pos
  unfold mktime Time.seconds Date.day_number Date.day_of_year
  simp only [hlate]
  rw [tm.of_years hk hyear, past_leap_years k hk, hpast, hleaps, hmonths, hdays, hhours, hminutes, hseconds,
    show t.year - 1970 = k by omega, hstart]
  by_cases h : 2 < t.month ∧ ¬Leap t.year
  · have hback : DAY.toUInt32 = UInt32.ofNat 86400 := rfl
    rw [if_pos h, if_pos h, hback, ← UInt32.ofNat_add, ← UInt32.ofNat_add, ← UInt32.ofNat_sub (by omega),
      ← UInt32.ofNat_add, ← UInt32.ofNat_add, ← UInt32.ofNat_add, ← UInt32.ofNat_add]
    congr 1
    omega
  · rw [if_neg h, if_neg h, ← UInt32.ofNat_add, ← UInt32.ofNat_add, ← UInt32.ofNat_add, ← UInt32.ofNat_add,
      ← UInt32.ofNat_add, ← UInt32.ofNat_add]
    congr 1
    omega

theorem seconds_lt_word {k : ℕ} (hk : k < 100) (hyear : t.year = 1970 + k) : t.seconds 1970 < 2 ^ 32 := by
  have hday := t.day_of_year_lt
  have hlength := days_in_year_le t.year
  have hstart := start_years (Nat.le_of_lt hk)
  have hhour := t.hour_lt
  have hminute := t.minute_lt
  have hsecond := t.second_lt
  unfold Time.seconds Date.day_number
  rw [show t.year - 1970 = k by omega, hstart]
  omega

/-- `mktime` counts the seconds since the beginning of 1970, for the times of a hundred years. -/
theorem mktime_toNat (hfrom : 1970 ≤ t.year) (hto : t.year ≤ 2069) : (mktime (tm.of t)).toNat = t.seconds 1970 := by
  have hyear : t.year = 1970 + (t.year - 1970) := by omega
  rw [mktime_of (by omega) hyear, UInt32.toNat_ofNat_of_lt' (seconds_lt_word (by omega) hyear)]

/-- The times that two digits of a year stand for. -/
def InWindow (t : Time) : Prop := 1970 ≤ t.year ∧ t.year ≤ 2069

/-- `mktime` is exact: it counts the seconds, so it puts later times later and different times apart. -/
theorem mktime_exact :
    (∀ t, InWindow t → (mktime (tm.of t)).toNat = t.seconds 1970) ∧
      (∀ t u, InWindow t → InWindow u → t.Before u → mktime (tm.of t) < mktime (tm.of u)) ∧
      ∀ t u, InWindow t → InWindow u → mktime (tm.of t) = mktime (tm.of u) → t = u := by
  refine ⟨fun t ht => mktime_toNat ht.1 ht.2, fun t u ht hu hlt => ?_, fun t u ht hu heq => ?_⟩
  · rw [UInt32.lt_iff_toNat_lt, mktime_toNat ht.1 ht.2, mktime_toNat hu.1 hu.2]
    exact hlt.seconds_lt ht.1
  · have hnat := congrArg UInt32.toNat heq
    rw [mktime_toNat ht.1 ht.2, mktime_toNat hu.1 hu.2] at hnat
    exact Time.seconds_injective ht.1 hu.1 hnat

/-- Noon of the leap day of 2000. -/
def leap_day : Time where
  year := 2000
  month := 2
  day := 29
  month_pos := by decide
  month_le := by decide
  day_pos := by decide
  day_le := by decide
  hour := 12
  minute := 0
  second := 0
  hour_lt := by decide
  minute_lt := by decide
  second_lt := by decide

theorem mktime_exact_leap_day : (mktime (tm.of leap_day)).toNat = 951825600 := by
  obtain ⟨hexact, -, -⟩ := mktime_exact
  rw [hexact leap_day ⟨by decide, by decide⟩]
  rfl

/-- `get_yday` counts the days of the year from one on. -/
theorem get_yday_exact (ht : InWindow t) : get_yday (tm.of t) = Int32.ofNat (t.day_of_year + 1) := by
  obtain ⟨hfrom, hto⟩ := ht
  have hlate := tm.of_late (t := t) (k := t.year - 1970) (by omega) (by omega)
  have hmonth : month_at (tm.of t).tm_mon = _ := month_at_eq t.year t.month_pos t.month_le
  have hmday : (tm.of t).tm_mday = Int32.ofNat t.day := rfl
  have hday := t.day_pos
  have hone : (1 : Int32) = Int32.ofNat 1 := rfl
  unfold get_yday Date.day_of_year
  simp only [and_comm (a := ((tm.of t).years + 2) % 4 ≠ 0), hlate]
  rw [hmonth, hmday, ← Int32.ofNat_add]
  by_cases h : 2 < t.month ∧ ¬Leap t.year
  · rw [if_pos h, if_pos h, hone, ← Int32.ofNat_sub _ _ (by omega)]
    congr 1
    omega
  · rw [if_neg h, if_neg h]
    congr 1
    omega

end Exact

end onix
