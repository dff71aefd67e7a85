import Onix.Time.Read

open Calendar

namespace onix

/-- `time_init`, up to what it stores in `startup_time`; its local variable may hold anything. -/
def time_init (time : struct_tm) (fuel : ℕ) : CmosM time_t := do
  let time ← time_read time fuel
  return mktime time.totm

/-- The registers that `mktime` goes by -/
def time_registers : List u8 := [CMOS_SECOND, CMOS_MINUTE, CMOS_HOUR, CMOS_DAY, CMOS_MONTH, CMOS_YEAR]

/-- The chip shows a time that goes on from read to read, by less than a minute in nine of them. -/
structure Cmos.Runs (c : Cmos) (time : ℕ → Time) : Prop where
  shows : ∀ n, ∀ register ∈ time_registers, c.clock n register = registers (time n) register
  onward : ∀ n, (time n).seconds 1970 ≤ (time (n + 1)).seconds 1970
  soon : ∀ n, (time (n + 8)).seconds 1970 < (time n).seconds 1970 + 60
  window : ∀ n, InWindow (time n)

section Startup

variable {c c' : Cmos} {time : ℕ → Time} {junk now : struct_tm} {fuel : ℕ}

theorem second_eq_mod (t : Time) : t.second = t.seconds 1970 % 60 := by
  have hsecond := t.second_lt
  unfold Time.seconds
  omega

theorem Cmos.Runs.monotone (h : c.Runs time) {m n : ℕ} (hmn : m ≤ n) :
    (time m).seconds 1970 ≤ (time n).seconds 1970 :=
  monotone_nat_of_le_succ (f := fun n => (time n).seconds 1970) h.onward hmn

/-- A turn of the loop ends it when it is within a second. -/
theorem Cmos.Runs.steady_iff (h : c.Runs time) :
    c.Steady ↔ (time c.reads).seconds 1970 = (time (c.reads + 8)).seconds 1970 := by
  have hfirst : c.clock c.reads CMOS_SECOND = Bcd.encode (time c.reads).second :=
    h.shows c.reads CMOS_SECOND (by decide)
  have hlast : c.clock (c.reads + 8) CMOS_SECOND = Bcd.encode (time (c.reads + 8)).second :=
    h.shows (c.reads + 8) CMOS_SECOND (by decide)
  have hle := h.monotone (Nat.le_add_right c.reads 8)
  have hsoon := h.soon c.reads
  have hsecond := second_eq_mod (time c.reads)
  have hsecond' := second_eq_mod (time (c.reads + 8))
  unfold Cmos.Steady
  rw [hfirst, hlast]
  constructor
  · intro hsame
    have hvalue := congrArg Bcd.value hsame
    rw [Bcd.value_encode (by omega), Bcd.value_encode (by omega)] at hvalue
    omega
  · intro hsame
    rw [hsecond, hsecond', hsame]

/-- Within such a turn the time stands still. -/
theorem Cmos.Runs.still (h : c.Runs time) (hsteady : c.Steady) {k : ℕ} (hk : k ≤ 8) :
    time (c.reads + k) = time c.reads := by
  have hends := h.steady_iff.mp hsteady
  have hfrom := h.monotone (Nat.le_add_right c.reads k)
  have hto := h.monotone (show c.reads + k ≤ c.reads + 8 by omega)
  exact Time.seconds_injective (h.window _).1 (h.window _).1 (by omega)

theorem Cmos.Runs.reading_eq (h : c.Runs time) (hsteady : c.Steady) : c.reading = tm.of (time c.reads) := by
  have hshows : ∀ k ≤ 8, ∀ register ∈ time_registers, c.clock (c.reads + k) register = registers (time c.reads) register :=
    fun k hk register hregister => by rw [h.shows _ register hregister, h.still hsteady hk]
  have hstopped : c.reading = (Cmos.stopped (time c.reads)).reading := by
    unfold Cmos.reading
    rw [h.shows c.reads CMOS_SECOND (by decide), hshows 1 (by decide) CMOS_MINUTE (by decide),
      hshows 2 (by decide) CMOS_HOUR (by decide), hshows 4 (by decide) CMOS_DAY (by decide),
      hshows 5 (by decide) CMOS_MONTH (by decide), hshows 6 (by decide) CMOS_YEAR (by decide)]
    rfl
  rw [hstopped]
  exact reading_registers rfl

/-- The loop ends with the first of its turns that is within a second. -/
theorem time_read_bcd_last (h : (time_read_bcd junk fuel).run c = some (now, c')) :
    ∃ k < fuel, ∃ d : Cmos, d.clock = c.clock ∧ d.reads = c.reads + 9 * k ∧ d.Steady ∧ now = d.snapshot junk ∧
      c' = d.turn := by
  induction fuel generalizing junk c with
  | zero => cases h
  | succ fuel ih =>
    rw [time_read_bcd_succ] at h
    by_cases hsteady : c.Steady
    · rw [if_pos hsteady] at h
      cases h
      exact ⟨0, Nat.succ_pos fuel, c, rfl, rfl, hsteady, rfl, rfl⟩
    · rw [if_neg hsteady] at h
      obtain ⟨k, hk, d, hclock, hreads, hd, hnow, hc'⟩ := ih h
      refine ⟨k + 1, by omega, d, hclock, ?_, hd, hnow, hc'⟩
      change d.reads = c.reads + 9 + 9 * k at hreads
      omega

theorem snapshot_binary (d : Cmos) (junk : struct_tm) : (d.snapshot junk).binary.totm = d.reading := by
  simp only [struct_tm.binary, Cmos.snapshot, Cmos.reading, decoded_int_of]

theorem time_init_some {seconds : time_t} (h : (time_init junk fuel).run c = some (seconds, c')) :
    ∃ k < fuel, ∃ d : Cmos, d.clock = c.clock ∧ d.reads = c.reads + 9 * k ∧ d.Steady ∧ seconds = mktime d.reading ∧
      c'.reads = c.reads + 9 * k + 9 := by
  unfold time_init at h
  cases hread : (time_read_bcd junk fuel).run c with
  | none =>
    unfold time_read at h
    rw [StateT.run_bind, StateT.run_bind, hread] at h
    cases h
  | some result =>
    obtain ⟨bcd, c₁⟩ := result
    rw [StateT.run_bind, time_read_run hread] at h
    obtain ⟨k, hk, d, hclock, hreads, hsteady, rfl, rfl⟩ := time_read_bcd_last hread
    cases h
    refine ⟨k, hk, d, hclock, hreads, hsteady, ?_, ?_⟩
    · rw [snapshot_binary]
    · change d.reads + 9 = _
      omega

theorem time_init_settles (junk : struct_tm) (h : c.Settles fuel) :
    ∃ seconds c', (time_init junk fuel).run c = some (seconds, c') := by
  obtain ⟨now, c', hread⟩ := time_read_settles junk h
  refine ⟨mktime now.totm, c', ?_⟩
  unfold time_init
  rw [StateT.run_bind, hread]
  rfl

theorem Cmos.Runs.of_clock (h : c.Runs time) {d : Cmos} (hclock : d.clock = c.clock) : d.Runs time where
  shows n register hregister := (congrFun (congrFun hclock n) register).trans (h.shows n register hregister)
  onward := h.onward
  soon := h.soon
  window := h.window

/-- The loop comes to its end when one of its turns is within a second. -/
theorem Cmos.Runs.settles_iff (h : c.Runs time) : c.Settles fuel ↔
    ∃ k < fuel, (time (c.reads + 9 * k)).seconds 1970 = (time (c.reads + 9 * k + 8)).seconds 1970 := by
  refine exists_congr fun k => and_congr_right fun _ => ?_
  exact (h.of_clock (d := { c with reads := c.reads + 9 * k }) rfl).steady_iff

/-- On a clock that runs, `time_init` comes to its end just when a turn of its loop is within a second, which one of
two turns is where they take less than a second; and `startup_time` is then the time through all of the
last turn. -/
theorem startup_time_exact (h : c.Runs time) (junk : struct_tm) (fuel : ℕ) :
    (∀ seconds c', (time_init junk fuel).run c = some (seconds, c') → ∃ k < fuel, c'.reads = c.reads + 9 * k + 9 ∧
      ∀ n, c.reads + 9 * k ≤ n → n < c'.reads → seconds.toNat = (time n).seconds 1970) ∧
    ((∃ seconds c', (time_init junk fuel).run c = some (seconds, c')) ↔
      ∃ k < fuel, (time (c.reads + 9 * k)).seconds 1970 = (time (c.reads + 9 * k + 8)).seconds 1970) ∧
    ((∀ n, (time (n + 17)).seconds 1970 ≤ (time n).seconds 1970 + 1) → 2 ≤ fuel →
      ∃ seconds c', (time_init junk fuel).run c = some (seconds, c')) := by
  have hends : (∃ seconds c', (time_init junk fuel).run c = some (seconds, c')) ↔
      ∃ k < fuel, (time (c.reads + 9 * k)).seconds 1970 = (time (c.reads + 9 * k + 8)).seconds 1970 := by
    rw [← h.settles_iff]
    constructor
    · rintro ⟨seconds, c', hrun⟩
      obtain ⟨k, hk, d, hclock, hreads, hsteady, -⟩ := time_init_some hrun
      unfold Cmos.Steady at hsteady
      rw [hclock, hreads] at hsteady
      exact ⟨k, hk, hsteady⟩
    · exact time_init_settles junk
  refine ⟨fun seconds c' hrun => ?_, hends, fun hquick hfuel => hends.mpr ?_⟩
  · obtain ⟨k, hk, d, hclock, hreads, hsteady, rfl, hreads'⟩ := time_init_some hrun
    have hd := h.of_clock hclock
    refine ⟨k, hk, hreads', fun n hfrom hto => ?_⟩
    have hstill := hd.still hsteady (show n - d.reads ≤ 8 by omega)
    rw [Nat.add_sub_cancel' (by omega)] at hstill
    rw [hd.reading_eq hsteady, hstill]
    exact mktime_toNat (h.window _).1 (h.window _).2
  · -- in seventeen reads there is one change of the second, and it is in one turn only
    have hquick' := hquick c.reads
    have hfirst := h.monotone (show c.reads ≤ c.reads + 8 by omega)
    have hbetween := h.monotone (show c.reads + 8 ≤ c.reads + 9 by omega)
    have hsecond := h.monotone (show c.reads + 9 ≤ c.reads + 17 by omega)
    by_cases hsame : (time c.reads).seconds 1970 = (time (c.reads + 8)).seconds 1970
    · exact ⟨0, by omega, hsame⟩
    · exact ⟨1, by omega, show (time (c.reads + 9)).seconds 1970 = (time (c.reads + 17)).seconds 1970 by omega⟩

/-- A second later -/
def leap_day_on : Time := { leap_day with second := 1, second_lt := by decide }

/-- A clock on which the second changes between the fifth read and the next. -/
def changing : Cmos :=
  { Cmos.stopped leap_day with clock := fun n => registers (if n < 5 then leap_day else leap_day_on) }

theorem changing_runs : changing.Runs fun n => if n < 5 then leap_day else leap_day_on where
  shows _ _ _ := rfl
  onward n := by
    have hlater : leap_day.seconds 1970 ≤ leap_day_on.seconds 1970 := Nat.le_succ _
    split_ifs <;> omega
  soon n := by
    have hlater : leap_day_on.seconds 1970 = leap_day.seconds 1970 + 1 := rfl
    split_ifs <;> omega
  window n := by
    have hwindow : InWindow leap_day ∧ InWindow leap_day_on := ⟨⟨by decide, by decide⟩, by decide, by decide⟩
    split_ifs
    · exact hwindow.1
    · exact hwindow.2

theorem startup_time_exact_changing : ∃ seconds c', (time_init struct_tm.zero 2).run changing = some (seconds, c') ∧
    seconds.toNat = 951825601 := by
  obtain ⟨hexact, -, hends⟩ := startup_time_exact changing_runs struct_tm.zero 2
  have hlater : leap_day_on.seconds 1970 = leap_day.seconds 1970 + 1 := rfl
  obtain ⟨seconds, c', hrun⟩ := hends (fun n => by split_ifs <;> omega) le_rfl
  obtain ⟨k, hk, hreads, htime⟩ := hexact seconds c' hrun
  have hzero : changing.reads = 0 := rfl
  have hlast := htime (9 * k + 8) (by omega) (by omega)
  rw [if_neg (by omega)] at hlast
  exact ⟨seconds, c', hrun, hlast.trans rfl⟩

end Startup

end onix
