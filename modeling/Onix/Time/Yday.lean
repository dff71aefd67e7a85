import Onix.Time.Read

open Calendar

namespace onix

/-- The date that the fields of `time` hold. -/
structure tm.OfDate (time : tm) (d : Date) : Prop where
  year : time.tm_year = Int32.ofNat (d.year % 100)
  month : time.tm_mon = Int32.ofNat d.month
  day : time.tm_mday = Int32.ofNat d.day

/-- The begin of the day. -/
def tm.midnight (time : tm) : tm := { time with tm_sec := 0, tm_min := 0, tm_hour := 0 }

/-- The begin of the year. -/
def tm.new_year (time : tm) : tm := { time.midnight with tm_mday := 1, tm_mon := 1 }

/-- `tm_yday` is in the range that the declaration of `tm` names, and counts the days that `mktime` counts since
the begin of the year. -/
structure YdayAgrees (time : struct_tm) : Prop where
  nonneg : 0 ≤ time.tm_yday.toInt
  le : time.tm_yday.toInt ≤ 365
  days : ((mktime time.midnight).toNat : ℤ) = (mktime time.new_year).toNat + DAY.toInt * time.tm_yday.toInt

section Dates

variable {time : tm} {d : Date}

/-- Midnight of a date. -/
def at_midnight (d : Date) : Time where
  toDate := d
  hour := 0
  minute := 0
  second := 0
  hour_lt := Nat.succ_pos 23
  minute_lt := Nat.succ_pos 59
  second_lt := Nat.succ_pos 59

def first_day (year : ℕ) : Date where
  year := year
  month := 1
  day := 1
  month_pos := by decide
  month_le := by decide
  day_pos := by decide
  day_le := show 1 ≤ 31 by decide

theorem at_midnight_seconds (d : Date) (epoch : ℕ) : (at_midnight d).seconds epoch = 86400 * d.day_number epoch := by
  change 86400 * d.day_number epoch + 3600 * 0 + 60 * 0 + 0 = _
  omega

theorem tm.OfDate.midnight (h : time.OfDate d) : time.midnight = tm.of (at_midnight d) := by
  unfold tm.midnight
  rw [h.year, h.month, h.day]
  rfl

theorem tm.OfDate.new_year (h : time.OfDate d) : time.new_year = tm.of (at_midnight (first_day d.year)) := by
  unfold tm.new_year tm.midnight
  rw [h.year]
  rfl

theorem tm.OfDate.get_yday (h : time.OfDate d) (hfrom : 1970 ≤ d.year) (hto : d.year ≤ 2069) :
    get_yday time = Int32.ofNat (d.day_of_year + 1) := by
  have hmidnight : onix.get_yday time = onix.get_yday time.midnight := rfl
  rw [hmidnight, h.midnight, get_yday_exact (t := at_midnight d) ⟨hfrom, hto⟩]
  rfl

/-- The days of the year, by `mktime`. -/
theorem tm.OfDate.mktime_midnight (h : time.OfDate d) (hfrom : 1970 ≤ d.year) (hto : d.year ≤ 2069) :
    (mktime time.midnight).toNat = (mktime time.new_year).toNat + 86400 * d.day_of_year := by
  have hzero : (first_day d.year).day_of_year = 0 := rfl
  have hnumber : d.day_number 1970 = (first_day d.year).day_number 1970 + d.day_of_year := by
    unfold Date.day_number
    rw [hzero, Nat.add_zero]
    rfl
  rw [h.midnight, h.new_year, mktime_toNat (t := at_midnight d) hfrom hto,
    mktime_toNat (t := at_midnight (first_day d.year)) hfrom hto, at_midnight_seconds, at_midnight_seconds, hnumber,
    Nat.mul_add]

end Dates

section Yday

variable {time now : struct_tm} {c c' : Cmos} {fuel : ℕ} {d : Date}

/-- `tm_yday` is one above the days that have passed. -/
theorem time_read_yday (hfrom : 1970 ≤ d.year) (hto : d.year ≤ 2069)
    (h : (time_read time fuel).run c = some (now, c')) (hdate : now.OfDate d) :
    now.tm_yday.toInt = d.day_of_year + 1 := by
  obtain ⟨e, -, -, hfields, hyday, -⟩ := time_read_some h
  have hlt := d.day_of_year_lt
  have hlength := days_in_year_le d.year
  rw [hyday, ← hfields, hdate.get_yday hfrom hto, Int32.toInt_ofNat_of_lt (by omega)]
  rfl

/-- No date that `time_read` returns has the day of the year that `mktime` counts. -/
theorem yday_never_agrees (hfrom : 1970 ≤ d.year) (hto : d.year ≤ 2069)
    (h : (time_read time fuel).run c = some (now, c')) (hdate : now.OfDate d) : ¬YdayAgrees now := by
  intro hagrees
  have hdays := hagrees.days
  have hone : DAY.toInt = 86400 := rfl
  rw [time_read_yday hfrom hto h hdate, hdate.mktime_midnight hfrom hto, hone] at hdays
  omega

end Yday

/-- The last second of the year 2000. -/
def last_second : Time where
  year := 2000
  month := 12
  day := 31
  month_pos := by decide
  month_le := by decide
  day_pos := by decide
  day_le := by decide
  hour := 23
  minute := 59
  second := 59
  hour_lt := by decide
  minute_lt := by decide
  second_lt := by decide

theorem last_second_date {time : tm} (h : time = tm.of last_second) : time.OfDate last_second.toDate := by
  subst h
  exact ⟨rfl, rfl, rfl⟩

theorem yday_never_agrees_last_second : ∃ now c',
    (time_read struct_tm.zero 1).run (Cmos.stopped last_second) = some (now, c') ∧ ¬YdayAgrees now := by
  obtain ⟨now, c', h, hfields⟩ := time_read_stopped struct_tm.zero 0 last_second
  exact ⟨now, c', h, yday_never_agrees (by decide) (by decide) h (last_second_date hfields)⟩

/-- On 31 December 2000, 365 days have passed and `tm_yday` is 366. -/
theorem last_yday_above : ∃ now c', (time_read struct_tm.zero 1).run (Cmos.stopped last_second) = some (now, c') ∧
    now.OfDate last_second.toDate ∧ now.tm_yday.toInt = 366 ∧
    (mktime now.midnight).toNat = (mktime now.new_year).toNat + 86400 * 365 ∧ ¬YdayAgrees now := by
  obtain ⟨now, c', h, hfields⟩ := time_read_stopped struct_tm.zero 0 last_second
  have hdate := last_second_date hfields
  have hyday : now.tm_yday.toInt = 366 := time_read_yday (by decide) (by decide) h hdate
  have hdays := hdate.mktime_midnight (by decide) (by decide)
  refine ⟨now, c', h, hdate, hyday, hdays, fun hagrees => ?_⟩
  have hle := hagrees.le
  omega

end onix
