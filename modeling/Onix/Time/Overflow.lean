import Onix.Library.SignedExpr
import Onix.Time.Yday

open SignedExpr

namespace onix

section Expressions

def MINUTE_expr : SignedExpr := 60
def HOUR_expr : SignedExpr := 60 * MINUTE_expr
def DAY_expr : SignedExpr := 24 * HOUR_expr
def YEAR_expr : SignedExpr := 365 * DAY_expr

@[simp] theorem MINUTE_expr_value : MINUTE_expr.value = 60 := rfl
@[simp] theorem HOUR_expr_value : HOUR_expr.value = 3600 := rfl
@[simp] theorem DAY_expr_value : DAY_expr.value = 86400 := rfl
@[simp] theorem YEAR_expr_value : YEAR_expr.value = 31536000 := rfl

variable (time : tm)

/-- What `mktime` assigns to `year` -/
def year_expr : SignedExpr := if time.tm_year ≥ 70 then val time.tm_year - 70 else val time.tm_year - 70 + 100

/-- The condition on the year in `mktime` -/
def leap_expr : SignedExpr := (val time.years + 2) % 4

/-- The assignments of `mktime` to `res` -/
def mktime_steps : List Step :=
  [.add (YEAR_expr * val time.years), .add (DAY_expr * ((val time.years + 1) / 4)),
    .add (val (month_at time.tm_mon) * DAY_expr)] ++
  (if time.tm_mon > 2 ∧ (leap_expr time).wrap ≠ 0 then [.sub DAY_expr] else []) ++
  [.add (DAY_expr * (val time.tm_mday - 1)), .add (HOUR_expr * val time.tm_hour),
    .add (MINUTE_expr * val time.tm_min), .add (val time.tm_sec)]

/-- The `int` arithmetic of `mktime` stays in its range, and so does the unsigned sum. -/
structure MktimeFits : Prop where
  year : (year_expr time).Fits
  leap : (leap_expr time).Fits
  steps : ∀ step ∈ mktime_steps time, step.expr.Fits
  sum : Step.NoWrap 0 (mktime_steps time)

end Expressions

/-- The machine computes `mktime` step by step as it is written here. -/
theorem mktime_eq_wrap_all (time : tm) : mktime time = Step.wrap_all 0 (mktime_steps time) := by
  have hfirst : Step.wrap 0 (.add (YEAR_expr * val time.years)) = (YEAR * time.years).toUInt32 := UInt32.zero_add _
  unfold mktime mktime_steps Step.wrap_all
  simp only [List.cons_append, List.nil_append, List.foldl_cons, hfirst]
  by_cases h : time.tm_mon > 2 ∧ (time.years + 2) % 4 ≠ 0
  · have hexpr : time.tm_mon > 2 ∧ (leap_expr time).wrap ≠ 0 := h
    rw [if_pos h, if_pos hexpr]
    rfl
  · have hexpr : ¬(time.tm_mon > 2 ∧ (leap_expr time).wrap ≠ 0) := h
    rw [if_neg h, if_neg hexpr]
    rfl

/-- Where nothing leaves its range, `mktime` returns the mathematical sum. -/
theorem MktimeFits.mktime_toNat {time : tm} (h : MktimeFits time) :
    ((mktime time).toNat : ℤ) = Step.value_all 0 (mktime_steps time) := by
  rw [mktime_eq_wrap_all]
  exact Step.wrap_all_toNat h.steps h.sum

section Values

variable {time : tm}

/-- The days in front of a month; there are two months of them behind February. -/
theorem month_bounds : ∀ k < 13, 0 ≤ (month.getD k 0).toInt ∧ (month.getD k 0).toInt ≤ 335 ∧
    (2 < k → 60 ≤ (month.getD k 0).toInt) := by
  decide

theorem tm.InRange.year_expr (h : time.InRange) : (onix.year_expr time).Fits ∧
    (onix.year_expr time).value =
      if 70 ≤ time.tm_year.toInt then time.tm_year.toInt - 70 else time.tm_year.toInt + 30 := by
  obtain ⟨hlow, hhigh⟩ := h.year
  have hseventy : (70 : SignedExpr).value = 70 := rfl
  have hhundred : (100 : SignedExpr).value = 100 := rfl
  have hge : time.tm_year ≥ 70 ↔ 70 ≤ time.tm_year.toInt := Int32.le_iff_toInt_le
  unfold onix.year_expr
  by_cases hyear : 70 ≤ time.tm_year.toInt
  · rw [if_pos (hge.mpr hyear), if_pos hyear, fits_sub, value_sub, value_val, hseventy]
    exact ⟨⟨trivial, trivial, by omega, by omega⟩, rfl⟩
  · rw [if_neg (mt hge.mp hyear), if_neg hyear, fits_add, fits_sub, value_add, value_sub, value_val, hseventy,
      hhundred]
    refine ⟨⟨⟨trivial, trivial, by omega, by omega⟩, trivial, by omega, by omega⟩, by omega⟩

/-- The variable `year` holds the years since 1970. -/
theorem tm.InRange.years (h : time.InRange) : 0 ≤ time.years.toInt ∧ time.years.toInt ≤ 99 ∧
    (time.years.toInt ≤ 68 ↔ 70 ≤ time.tm_year.toInt ∨ time.tm_year.toInt ≤ 38) := by
  obtain ⟨hfits, hvalue⟩ := h.year_expr
  have hwrap : (onix.year_expr time).wrap = time.years := by
    unfold onix.year_expr tm.years
    split_ifs <;> rfl
  have hyear := h.year
  rw [← hwrap, hfits.wrap_toInt, hvalue]
  split_ifs <;> omega

theorem tm.InRange.month_bounds (h : time.InRange) : 0 ≤ (month_at time.tm_mon).toInt ∧
    (month_at time.tm_mon).toInt ≤ 335 ∧ (time.tm_mon > 2 → 60 ≤ (month_at time.tm_mon).toInt) := by
  obtain ⟨hlow, hhigh⟩ := h.month
  obtain ⟨hnonneg, hle, hlate⟩ := onix.month_bounds time.tm_mon.toInt.toNat (by omega)
  refine ⟨hnonneg, hle, fun hgt => hlate ?_⟩
  have hgt' : 2 < time.tm_mon.toInt := Int32.lt_iff_toInt_lt.mp hgt
  omega

theorem tm.InRange.leap_fits (h : time.InRange) : (leap_expr time).Fits := by
  obtain ⟨hlow, hhigh, -⟩ := h.years
  have htwo : (2 : SignedExpr).value = 2 := rfl
  have hfour : (4 : SignedExpr).value = 4 := rfl
  unfold leap_expr
  rw [fits_mod, fits_add, value_add, value_val, htwo, hfour, Int.tmod_eq_emod_of_nonneg (by omega)]
  exact ⟨⟨trivial, trivial, by omega, by omega⟩, trivial, by omega, by omega, by omega⟩

/-- The leap years that have passed -/
theorem tm.InRange.leaps_value (h : time.InRange) :
    ((val time.years + 1) / 4 : SignedExpr).value = (time.years.toInt + 1) / 4 := by
  obtain ⟨hlow, -, -⟩ := h.years
  have hone : (1 : SignedExpr).value = 1 := rfl
  have hfour : (4 : SignedExpr).value = 4 := rfl
  rw [value_div, value_add, value_val, hone, hfour, Int.tdiv_eq_ediv_of_nonneg (by omega)]

/-- The days of the month that have passed -/
theorem days_value (time : tm) : (val time.tm_mday - 1 : SignedExpr).value = time.tm_mday.toInt - 1 := rfl

/-- The years before 2039: the product of `YEAR` and `year` is the one that can be too large. -/
theorem tm.InRange.year_term_fits_iff (h : time.InRange) :
    (YEAR_expr * val time.years).Fits ↔ time.years.toInt ≤ 68 := by
  obtain ⟨hlow, -, -⟩ := h.years
  have hfits : YEAR_expr.Fits := by decide
  rw [fits_mul, value_val, YEAR_expr_value]
  constructor
  · rintro ⟨-, -, -, hhigh⟩
    omega
  · intro hle
    exact ⟨hfits, trivial, by omega, by omega⟩

theorem tm.InRange.leaps_fit (h : time.InRange) : ((val time.years + 1) / 4 : SignedExpr).Fits := by
  obtain ⟨hlow, hhigh, -⟩ := h.years
  have hvalue := h.leaps_value
  have hone : (1 : SignedExpr).value = 1 := rfl
  have hfour : (4 : SignedExpr).value ≠ 0 := by decide
  rw [value_div] at hvalue
  rw [fits_div, fits_add, hvalue, value_val, hone]
  exact ⟨⟨trivial, trivial, by omega, by omega⟩, trivial, hfour, by omega, by omega⟩

theorem tm.InRange.other_terms_fit (h : time.InRange) :
    (DAY_expr * ((val time.years + 1) / 4)).Fits ∧ (val (month_at time.tm_mon) * DAY_expr).Fits ∧ DAY_expr.Fits ∧
      (DAY_expr * (val time.tm_mday - 1)).Fits ∧ (HOUR_expr * val time.tm_hour).Fits ∧
      (MINUTE_expr * val time.tm_min).Fits := by
  obtain ⟨hyear, hyear', -⟩ := h.years
  obtain ⟨hmonth, hmonth', -⟩ := h.month_bounds
  obtain ⟨hday, hday'⟩ := h.day
  obtain ⟨hhour, hhour'⟩ := h.hour
  obtain ⟨hminute, hminute'⟩ := h.minute
  have hDAY : DAY_expr.Fits := by decide
  have hHOUR : HOUR_expr.Fits := by decide
  have hMINUTE : MINUTE_expr.Fits := by decide
  have hdays : (val time.tm_mday - 1 : SignedExpr).Fits := (fits_sub _ _).mpr ⟨trivial, trivial, by
    have hvalue := days_value time
    rw [value_sub] at hvalue
    rw [hvalue]
    exact ⟨by omega, by omega⟩⟩
  simp only [fits_mul, h.leaps_value, days_value, value_val, DAY_expr_value, HOUR_expr_value, MINUTE_expr_value]
  refine ⟨⟨hDAY, h.leaps_fit, ?_⟩, ⟨trivial, hDAY, ?_⟩, hDAY, ⟨hDAY, hdays, ?_⟩, ⟨hHOUR, trivial, ?_⟩, hMINUTE, trivial, ?_⟩
  · exact ⟨by omega, by omega⟩
  · exact ⟨by omega, by omega⟩
  · exact ⟨by omega, by omega⟩
  · exact ⟨by omega, by omega⟩
  · exact ⟨by omega, by omega⟩

theorem tm.InRange.steps_fit_iff (h : time.InRange) :
    (∀ step ∈ mktime_steps time, step.expr.Fits) ↔ time.years.toInt ≤ 68 := by
  obtain ⟨hleaps, hmonths, hback, hdays, hhours, hminutes⟩ := h.other_terms_fit
  rw [← h.year_term_fits_iff]
  constructor
  · intro hsteps
    exact hsteps (.add (YEAR_expr * val time.years)) List.mem_cons_self
  · intro hyear step hstep
    have hlate : ∀ s ∈ (if time.tm_mon > 2 ∧ (leap_expr time).wrap ≠ 0 then [Step.sub DAY_expr] else []),
        s.expr.Fits := by
      intro s hs
      split_ifs at hs
      · rw [List.mem_singleton.mp hs]
        exact hback
      · exact absurd hs List.not_mem_nil
    unfold mktime_steps at hstep
    simp only [List.mem_append, List.mem_cons, List.not_mem_nil, or_false] at hstep
    rcases hstep with ((rfl | rfl | rfl) | hs) | rfl | rfl | rfl | rfl
    · exact hyear
    · exact hleaps
    · exact hmonths
    · exact hlate step hs
    · exact hdays
    · exact hhours
    · exact hminutes
    · trivial

/-- The sum stays in its range, for every year of the window. -/
theorem tm.InRange.sum (h : time.InRange) : Step.NoWrap 0 (mktime_steps time) := by
  obtain ⟨hyear, hyear', -⟩ := h.years
  obtain ⟨hmonth, hmonth', hlate⟩ := h.month_bounds
  obtain ⟨hday, hday'⟩ := h.day
  obtain ⟨hhour, hhour'⟩ := h.hour
  obtain ⟨hminute, hminute'⟩ := h.minute
  obtain ⟨hsecond, hsecond'⟩ := h.second
  unfold mktime_steps
  split_ifs with hcond
  · have hsixty := hlate hcond.1
    simp only [List.cons_append, List.nil_append, Step.NoWrap, Step.value, value_mul, h.leaps_value, days_value,
      value_val, MINUTE_expr_value, HOUR_expr_value, DAY_expr_value, YEAR_expr_value, and_true]
    omega
  · simp only [List.cons_append, List.nil_append, Step.NoWrap, Step.value, value_mul, h.leaps_value, days_value,
      value_val, MINUTE_expr_value, HOUR_expr_value, DAY_expr_value, YEAR_expr_value, and_true]
    omega

/-- `mktime` has no signed overflow before 2039, and the sum never wraps. -/
theorem tm.InRange.fits_iff (h : time.InRange) :
    MktimeFits time ↔ 70 ≤ time.tm_year.toInt ∨ time.tm_year.toInt ≤ 38 := by
  obtain ⟨-, -, hyears⟩ := h.years
  rw [← hyears, ← h.steps_fit_iff]
  exact ⟨fun hfits => hfits.steps, fun hsteps => ⟨h.year_expr.1, h.leap_fits, hsteps, h.sum⟩⟩

end Values

section Delivered

variable {time now : struct_tm} {c c' : Cmos} {fuel : ℕ}

/-- For what `time_read` delivers, `mktime` stays in the range of its types if and only if the year is one from
1970 to 2038. -/
theorem mktime_fits_iff (hcontents : ∀ n, Contents (c.clock n))
    (h : (time_read time fuel).run c = some (now, c')) :
    MktimeFits now.totm ↔ 70 ≤ now.tm_year.toInt ∨ now.tm_year.toInt ≤ 38 :=
  (time_read_inRange hcontents h).fits_iff

end Delivered

theorem mktime_fits_iff_leap_day : ∃ now c',
    (time_read struct_tm.zero 1).run (Cmos.stopped leap_day) = some (now, c') ∧
      (MktimeFits now.totm ↔ 70 ≤ now.tm_year.toInt ∨ now.tm_year.toInt ≤ 38) := by
  obtain ⟨now, c', h, -⟩ := time_read_stopped struct_tm.zero 0 leap_day
  exact ⟨now, c', h, mktime_fits_iff (fun _ => registers_contents leap_day) h⟩

/-- At the begin of 2039, the product of `YEAR` and 69 years is above the largest `int`. -/
theorem mktime_overflows : ∃ now c',
    (time_read struct_tm.zero 1).run (Cmos.stopped (at_midnight (first_day 2039))) = some (now, c') ∧
      (YEAR_expr * val now.totm.years).value = 2175984000 ∧ ¬MktimeFits now.totm := by
  obtain ⟨now, c', h, hfields⟩ := time_read_stopped struct_tm.zero 0 (at_midnight (first_day 2039))
  have hvalue : (YEAR_expr * val now.totm.years).value = 2175984000 := by
    rw [hfields]
    rfl
  refine ⟨now, c', h, hvalue, fun hfits => ?_⟩
  have hproduct : (YEAR_expr * val now.totm.years).Fits := hfits.steps (.add _) List.mem_cons_self
  have hhigh := hproduct.inRange.2
  rw [hvalue] at hhigh
  omega

end onix
