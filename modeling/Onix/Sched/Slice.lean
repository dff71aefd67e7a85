import Onix.Sched.Idle
import Onix.Sched.Shipped

namespace onix

variable {τ ℓ : Type} [DecidableEq τ]

/-- Where a task is in the life of a time slice. -/
inductive SliceState where
  | ordinary
  /-- `task_sleep` has put a wake-up time in its `ticks` -/
  | asleep
  /-- `task_wakeup` has put zero in its `ticks`, and it has not called `schedule` since -/
  | woken
  deriving DecidableEq

/-- The slice of a task by the log of the run, newest event first. -/
def slice (t : τ) : List (Event τ ℓ) → SliceState
  | [] => .ordinary
  | .sleep u _ :: log => if u = t then .asleep else slice t log
  | .wake u :: log => if u = t then .woken else slice t log
  | .search u _ _ :: log => if u = t ∧ slice t log = .woken then .ordinary else slice t log
  | _ :: log => slice t log

/-- The clock interrupts a task has received since the last call of `schedule`. -/
def ticks_since (t : τ) : List (Event τ ℓ) → Nat
  | [] => 0
  | .search _ _ _ :: _ => 0
  | .tick u _ _ :: log => ticks_since t log + if u = t then 1 else 0
  | _ :: log => ticks_since t log

namespace Core

/-- No clock interrupt came to a task of the table that was asleep or had just been woken. -/
def Refilled (c : Core τ ℓ) : Prop :=
  ∀ t ticks priority older, .tick t ticks priority :: older <:+ c.log → some t ∈ c.task_table →
    slice t older = .ordinary

omit [DecidableEq τ] in
/-- Every clock interrupt found `ticks` of its task between one and its priority. -/
def InSlice (c : Core τ ℓ) : Prop :=
  ∀ t ticks priority, .tick t ticks priority ∈ c.log → some t ∈ c.task_table →
    1 ≤ ticks ∧ ticks ≤ priority ∧ priority = (c.task t).priority

/-- At no point of the run had a task received more clock interrupts since the last call of
`schedule` than its priority. -/
def Preempted (c : Core τ ℓ) : Prop :=
  ∀ t, some t ∈ c.task_table → ∀ log, log <:+ c.log → ticks_since t log ≤ (c.task t).priority.toNat

end Core

section Log

variable {t : τ} {log : List (Event τ ℓ)}

theorem slice_append_lock {u : τ} {es : List (Event τ ℓ)} (hes : ∀ e ∈ es, e.OfLock u) :
    slice t (es ++ log) = slice t log := by
  induction es with
  | nil => rfl
  | cons e es ih =>
    have he := hes e (by simp)
    have ih := ih fun f hf => hes f (by simp [hf])
    cases e <;> first | exact he.elim | simpa [slice] using ih

theorem slice_wakes (ts : List τ) :
    slice t ((ts.map Event.wake).reverse ++ log) = if t ∈ ts then .woken else slice t log := by
  induction ts generalizing log with
  | nil => simp
  | cons u ts ih =>
    simp only [List.map_cons, List.reverse_cons, List.append_assoc, List.singleton_append, ih, slice,
      List.mem_cons]
    by_cases hts : t ∈ ts <;> by_cases ht : t = u <;> simp [hts, ht, eq_comm]

/-- A task whose last sleep has not ended has gone to sleep. -/
theorem sleep_mem_of_slice (h : slice t log = .asleep) : ∃ ticks, Event.sleep t ticks ∈ log := by
  induction log with
  | nil => simp [slice] at h
  | cons e log ih =>
    have hlater : slice t log = .asleep → ∃ ticks, Event.sleep t ticks ∈ e :: log := fun h =>
      (ih h).imp fun ticks hmem => List.mem_cons_of_mem e hmem
    cases e with
    | sleep u ticks =>
      by_cases hu : u = t
      · exact ⟨ticks, by simp [hu]⟩
      · exact hlater (by simpa [slice, hu] using h)
    | wake u =>
      by_cases hu : u = t
      · simp [slice, hu] at h
      · exact hlater (by simpa [slice, hu] using h)
    | search u task next =>
      refine hlater ?_
      rw [slice] at h
      split_ifs at h
      exact h
    | _ => exact hlater h

theorem ticks_since_append {es : List (Event τ ℓ)} (hes : ∀ e ∈ es, e.Silent) :
    ticks_since t (es ++ log) = ticks_since t log := by
  induction es with
  | nil => rfl
  | cons e es ih =>
    have he := hes e (by simp)
    have ih := ih fun f hf => hes f (by simp [hf])
    cases e <;> first | exact he.elim | simpa [ticks_since] using ih

end Log

section Bound

variable {t : τ} {n : Nat} {log : List (Event τ ℓ)}

/-- A bound for every point of a run is a bound for the last point and for every earlier one. -/
theorem forall_suffix_cons {e : Event τ ℓ} :
    (∀ l, l <:+ e :: log → ticks_since t l ≤ n) ↔
      ticks_since t (e :: log) ≤ n ∧ ∀ l, l <:+ log → ticks_since t l ≤ n := by
  constructor
  · intro h
    exact ⟨h _ (List.suffix_refl _), fun l hl => h l (hl.trans (List.suffix_cons e log))⟩
  · rintro ⟨hlast, h⟩ l hl
    rcases List.suffix_cons_iff.mp hl with rfl | hl
    · exact hlast
    · exact h l hl

theorem forall_suffix_append (es : List (Event τ ℓ)) (hes : ∀ e ∈ es, e.Silent)
    (h : ∀ l, l <:+ log → ticks_since t l ≤ n) : ∀ l, l <:+ es ++ log → ticks_since t l ≤ n := by
  induction es with
  | nil => exact h
  | cons e es ih =>
    refine forall_suffix_cons.mpr ⟨?_, ih fun f hf => hes f (by simp [hf])⟩
    exact (ticks_since_append hes).le.trans (h _ (List.suffix_refl _))

end Bound

/-- What held of the clock interrupts of a run held of those of its beginning. -/
theorem Core.Refilled.of_append {c d : Core τ ℓ} (es : List (Event τ ℓ)) (h : d.Refilled)
    (htable : d.task_table = c.task_table) (hlog : d.log = es ++ c.log) : c.Refilled := by
  intro t ticks priority older hsuffix ht
  exact h t ticks priority older (hlog ▸ hsuffix.trans (List.suffix_append es c.log)) (htable ▸ ht)

namespace Sched

/-- What is known of the slices before `schedule` is called, if it is. -/
structure Slices (a : Sched τ ℓ) : Prop where
  priority : ∀ t, some t ∈ a.task_table → 1 ≤ (a.task t).priority
  in_slice : a.InSlice
  preempted : a.Preempted
  ordinary : ∀ t, some t ∈ a.task_table → slice t a.log = .ordinary →
    (a.task t).ticks ≤ (a.task t).priority ∧ (t ≠ a.current → 1 ≤ (a.task t).ticks)
  woken : ∀ t, some t ∈ a.task_table → slice t a.log = .woken → (a.task t).ticks = 0

/-- What is known of the slices between operations: the running task has a tick left, and it has
had the ticks that are missing from its slice since the last call of `schedule`. -/
structure Sliced (a : Sched τ ℓ) : Prop extends Slices a where
  left : some a.current ∈ a.task_table → slice a.current a.log = .ordinary →
    1 ≤ (a.task a.current).ticks
  since : ∀ t, some t ∈ a.task_table → ticks_since t a.log +
    (if t = a.current ∧ slice t a.log = .ordinary then (a.task t).ticks.toNat
      else (a.task t).priority.toNat) ≤ (a.task t).priority.toNat

variable {a b : Sched τ ℓ}

/-- A call of `schedule` starts the next slice. -/
theorem Slices.dispatch (h : b.Slices) {next : τ} : Sliced ⟨b.dispatch next, b.queue⟩ := by
  have hslice : ∀ t, slice t (b.dispatch next).log =
      if b.current = t ∧ slice t b.log = .woken then .ordinary else slice t b.log := by
    simp [slice]
  have hticks : ∀ t, ((b.dispatch next).task t).ticks =
      if t = b.current ∧ (b.task t).ticks = 0 then (b.task t).priority else (b.task t).ticks := by simp
  have hordinary : ∀ t, some t ∈ b.task_table → slice t (b.dispatch next).log = .ordinary →
      1 ≤ ((b.dispatch next).task t).ticks ∧ ((b.dispatch next).task t).ticks ≤ (b.task t).priority := by
    intro t ht hord
    have hprio := h.priority t ht
    rw [hticks]
    by_cases hrefill : t = b.current ∧ (b.task t).ticks = 0
    · rw [if_pos hrefill]
      exact ⟨hprio, UInt32.le_refl _⟩
    · rw [if_neg hrefill]
      rw [hslice] at hord
      split_ifs at hord with hwoken
      · exact absurd ⟨hwoken.1.symm, h.woken t ht hwoken.2⟩ hrefill
      · obtain ⟨hle, hone⟩ := h.ordinary t ht hord
        refine ⟨?_, hle⟩
        by_cases htc : t = b.current
        · have hzero : (b.task t).ticks ≠ 0 := fun hzero => hrefill ⟨htc, hzero⟩
          rw [UInt32.le_iff_toNat_le]
          have : (b.task t).ticks.toNat ≠ 0 := fun heq => hzero (UInt32.toNat_inj.mp heq)
          simpa using Nat.one_le_iff_ne_zero.mpr this
        · exact hone htc
  refine ⟨⟨?_, ?_, ?_, ?_, ?_⟩, ?_, ?_⟩
  · simpa using h.priority
  · intro t ticks priority hmem ht
    simp only [Core.dispatch_frame, List.mem_cons, reduceCtorEq, false_or] at hmem ht
    simpa using h.in_slice t ticks priority hmem ht
  · intro t ht
    simp only [Core.dispatch_frame, Core.dispatch_fields] at ht ⊢
    exact forall_suffix_cons.mpr ⟨by simp [ticks_since], h.preempted t ht⟩
  · intro t ht hord
    have hboth := hordinary t (by simpa using ht) hord
    exact ⟨by simpa only [Core.dispatch_fields] using hboth.2, fun _ => hboth.1⟩
  · intro t ht hwoken
    have hwoken' := (hslice t).symm.trans hwoken
    split_ifs at hwoken' with hback
    have hzero := h.woken t (by simpa using ht) hwoken'
    have hne : t ≠ b.current := fun heq => hback ⟨heq.symm, hwoken'⟩
    simp [hne, hzero]
  · intro hmem hord
    exact (hordinary next (by simpa using hmem) (by simpa using hord)).1
  · intro t ht
    simp only [Core.dispatch_frame, ticks_since, Nat.zero_add]
    split_ifs with hord
    · have hle := (hordinary t (by simpa using ht) (by simpa using hord.2)).2
      simpa [UInt32.le_iff_toNat_le] using hle
    · exact Nat.le_refl _

variable [DecidableEq ℓ] {op : Op ℓ} {calls : Bool}

theorem slice_clock (a : Sched τ ℓ) (t : τ) :
    slice t a.clock.log = if t ∈ a.due then .woken else slice t a.log := by
  rw [clock_log, ← slice_wakes]
  rfl

theorem ticks_since_clock (a : Sched τ ℓ) (t : τ) :
    ticks_since t a.clock.log = ticks_since t a.log + if a.current = t then 1 else 0 := by
  rw [clock_log, ticks_since, ticks_since_append (by simp [Event.Silent])]

/-- A clock interrupt to a refilled task finds it in an ordinary slice, and does not wake it. -/
theorem current_ordinary (hrefilled : a.clock.Refilled) (hmem : some a.current ∈ a.task_table) :
    a.current ∉ a.due ∧ slice a.current a.log = .ordinary := by
  have hsuffix := List.suffix_refl a.clock.log
  nth_rewrite 1 [clock_log] at hsuffix
  have hord := hrefilled a.current _ _ _ hsuffix (by simpa using hmem)
  rw [slice_wakes] at hord
  split_ifs at hord with hdue
  exact ⟨hdue, hord⟩

omit [DecidableEq ℓ] in
/-- In an ordinary slice, the ticks left and the ticks since the last call of `schedule` are at most the slice. -/
theorem Sliced.tick_left (h : a.Sliced) (hmem : some a.current ∈ a.task_table)
    (hord : slice a.current a.log = .ordinary) : 1 ≤ (a.task a.current).ticks.toNat ∧
      ticks_since a.current a.log + (a.task a.current).ticks.toNat ≤ (a.task a.current).priority.toNat := by
  have hsince := h.since a.current hmem
  rw [if_pos ⟨rfl, hord⟩] at hsince
  exact ⟨by simpa using UInt32.le_iff_toNat_le.mp (h.left hmem hord), hsince⟩

omit [DecidableEq ℓ] in
theorem Sliced.tick_taken (h : a.Sliced) (hmem : some a.current ∈ a.task_table)
    (hord : slice a.current a.log = .ordinary) :
    ((a.task a.current).ticks - 1).toNat = (a.task a.current).ticks.toNat - 1 :=
  UInt32.toNat_sub_of_le _ _ (UInt32.le_iff_toNat_le.mpr (by simpa using (h.tick_left hmem hord).1))

/-- A clock interrupt that finds the running task in an ordinary slice takes a tick of it. -/
theorem Sliced.clock (h : a.Sliced) (hrefilled : a.clock.Refilled) : a.clock.Slices := by
  have hslice := slice_clock a
  refine ⟨fun t ht => ?_, fun t ticks priority hmem ht => ?_, fun t ht => ?_, fun t ht hord => ?_,
    fun t ht hwoken => ?_⟩
  · simpa using h.priority t (by simpa using ht)
  · simp only [clock_frame] at ht
    simp only [clock_fields]
    rw [clock_log, List.mem_cons, List.mem_append] at hmem
    rcases hmem with heq | hwake | hmem
    · simp only [Event.tick.injEq] at heq
      obtain ⟨rfl, rfl, rfl⟩ := heq
      obtain ⟨hdue, hord⟩ := current_ordinary hrefilled ht
      rw [if_neg hdue]
      exact ⟨h.left ht hord, (h.ordinary _ ht hord).1, rfl⟩
    · simp at hwake
    · exact h.in_slice t ticks priority hmem ht
  · simp only [clock_frame] at ht
    simp only [clock_fields]
    rw [clock_log]
    refine forall_suffix_cons.mpr ⟨?_, forall_suffix_append _ (by simp [Event.Silent]) (h.preempted t ht)⟩
    rw [← clock_log, ticks_since_clock]
    split_ifs with htc
    · subst htc
      obtain ⟨hpos, hle⟩ := h.tick_left ht (current_ordinary hrefilled ht).2
      omega
    · exact h.preempted t ht _ (List.suffix_refl _)
  · simp only [clock_frame] at ht
    rw [hslice] at hord
    split_ifs at hord with hdue
    obtain ⟨hle, hpos⟩ := h.ordinary t ht hord
    by_cases htc : t = a.current
    · subst htc
      refine ⟨?_, fun hne => absurd (by simp) hne⟩
      simp only [clock_fields, hdue, if_false, if_true, UInt32.le_iff_toNat_le, h.tick_taken ht hord]
      have hle' := UInt32.le_iff_toNat_le.mp hle
      omega
    · simp [hdue, htc, hle, hpos]
  · simp only [clock_frame] at ht
    rw [hslice] at hwoken
    by_cases htc : t = a.current
    · subst htc
      obtain ⟨hdue, hord⟩ := current_ordinary hrefilled ht
      rw [if_neg hdue, hord] at hwoken
      exact absurd hwoken (by simp)
    · split_ifs at hwoken with hdue
      · simp [hdue, htc]
      · simp [hdue, htc, h.woken t ht hwoken]

/-- Where a tick of the slice is left, the running task stays in it. -/
theorem Sliced.clock_stays (h : a.Sliced) (hrefilled : a.clock.Refilled)
    (hticks : (a.clock.task a.current).ticks ≠ 0) : a.clock.Sliced := by
  refine ⟨h.clock hrefilled, fun _ _ => ?_, fun t ht => ?_⟩
  · rw [a.clock_frame.2.2.2.2.2.1, UInt32.le_iff_toNat_le]
    have hne : (a.clock.task a.current).ticks.toNat ≠ 0 := fun heq => hticks (UInt32.toNat_inj.mp heq)
    simpa using Nat.one_le_iff_ne_zero.mpr hne
  · simp only [clock_frame] at ht
    rw [ticks_since_clock, slice_clock]
    by_cases htc : t = a.current
    · subst htc
      obtain ⟨hdue, hord⟩ := current_ordinary hrefilled ht
      obtain ⟨hpos, hle⟩ := h.tick_left ht hord
      simp only [clock_frame, clock_fields, hdue, hord, if_false, if_true, and_self, h.tick_taken ht hord]
      omega
    · have hold := h.since t ht
      rw [if_neg fun hboth => htc hboth.1] at hold
      rw [if_neg (Ne.symm htc), if_neg fun hboth => htc (by simpa using hboth.1)]
      simpa using hold

omit [DecidableEq ℓ] in
theorem doze_slices (h : a.Sliced) (ms : u32) (queue : ListPtr ℓ → List τ) :
    Slices ⟨a.gate.doze ms, queue⟩ := by
  have hlog : (a.gate.doze ms).log = .sleep a.current (a.wake_time ms) :: a.log := rfl
  have hslice : ∀ t, slice t (a.gate.doze ms).log =
      if a.current = t then .asleep else slice t a.log := fun t => rfl
  have hticks : ∀ t, t ≠ a.current → ((a.gate.doze ms).task t).ticks = (a.task t).ticks := by
    intro t ht
    simp [Core.doze, ht]
  have hprio : ∀ t, ((a.gate.doze ms).task t).priority = (a.task t).priority := by
    intro t
    simp [Core.doze]
  refine ⟨fun t ht => ?_, fun t ticks priority hmem ht => ?_, fun t ht => ?_, fun t ht hord => ?_,
    fun t ht hwoken => ?_⟩
  · rw [hprio]
    exact h.priority t ht
  · rw [hprio]
    exact h.in_slice t ticks priority (by simpa [hlog] using hmem) ht
  · rw [hprio]
    exact forall_suffix_append [.sleep a.current (a.wake_time ms)] (by simp [Event.Silent])
      (h.preempted t ht)
  · have hord' := (hslice t).symm.trans hord
    split_ifs at hord' with hne
    have hboth := h.ordinary t ht hord'
    exact ⟨by rw [hticks t (Ne.symm hne), hprio]; exact hboth.1,
      fun htc => by rw [hticks t (Ne.symm hne)]; exact hboth.2 htc⟩
  · have hwoken' := (hslice t).symm.trans hwoken
    split_ifs at hwoken' with hne
    rw [hticks t (Ne.symm hne)]
    exact h.woken t ht hwoken'

/-- What keeps time out keeps the slices. -/
theorem Timeless.slices (htime : Timeless a b calls) (hact : a.Act op calls b) (h : a.Sliced) :
    b.Sliced ∨ calls = false ∧ b.Stuck ∧ b.InSlice ∧ b.Preempted := by
  obtain ⟨htable, -, hcurrent, -, hprio⟩ := hact.frame
  obtain ⟨⟨es, hlog, hes⟩, -, -, hticks⟩ := htime
  have hsilent : ∀ e ∈ es, e.Silent := fun e he => (hes e he).silent
  have hslice : ∀ t, slice t b.log = slice t a.log := fun t => by rw [hlog, slice_append_lock hes]
  have hinslice : b.InSlice := by
    intro t ticks priority hmem ht
    rw [hlog, List.mem_append] at hmem
    rw [hprio]
    exact h.in_slice t ticks priority (hmem.resolve_left fun he => (hsilent _ he).elim) (htable ▸ ht)
  have hpreempted : b.Preempted := by
    intro t ht
    rw [hprio, hlog]
    exact forall_suffix_append es hsilent (h.preempted t (htable ▸ ht))
  rcases hticks with hticks | ⟨hcalls, hstuck, -⟩
  · refine .inl ⟨⟨fun t ht => ?_, hinslice, hpreempted, fun t ht hord => ?_, fun t ht hwoken => ?_⟩,
      fun hmem hord => ?_, fun t ht => ?_⟩
    · rw [hprio]
      exact h.priority t (htable ▸ ht)
    · rw [hticks, hprio, hcurrent]
      exact h.ordinary t (htable ▸ ht) (hslice t ▸ hord)
    · rw [hticks]
      exact h.woken t (htable ▸ ht) (hslice t ▸ hwoken)
    · rw [hcurrent, hslice] at hord
      rw [htable, hcurrent] at hmem
      rw [hcurrent, hticks]
      exact h.left hmem hord
    · rw [hprio, hslice, hticks, hcurrent, hlog, ticks_since_append hsilent]
      exact h.since t (htable ▸ ht)
  · exact .inr ⟨hcalls, hstuck, hinslice, hpreempted⟩

/-- An act keeps the slices as long as no clock interrupt comes to a task that was just woken. -/
theorem Act.slices (hact : a.Act op calls b) (h : a.Sliced) (hrefilled : b.Refilled) :
    b.Slices ∧ (calls = false → b.Sliced) ∨ calls = false ∧ b.Stuck ∧ b.InSlice ∧ b.Preempted := by
  rcases hact.time_cases with ⟨rfl, rfl⟩ | ⟨ms, -, hcalls, -, -, rfl⟩ | htime
  · obtain ⟨-, -, hticks⟩ := hact.of_clock
    refine .inl ⟨h.clock hrefilled, fun hcalls => h.clock_stays hrefilled fun hzero => ?_⟩
    rw [hcalls] at hticks
    exact absurd (hticks.mpr hzero) (by simp)
  · exact .inl ⟨doze_slices h ms _, fun hfalse => absurd (hcalls.symm.trans hfalse) (by simp)⟩
  · exact (htime.slices hact h).imp_left fun h => ⟨h.toSlices, fun _ => h⟩

/-- The slices of a run in which no clock interrupt came to a task that was just woken. -/
def Timed (a : Sched τ ℓ) : Prop :=
  a.Refilled → a.Sliced ∨ a.Stuck ∧ a.InSlice ∧ a.Preempted

theorem Step.timed {search : Core τ ℓ → Option τ} (hstep : a.Step search op b) (h : a.Timed) :
    b.Timed := by
  have hact' : ∀ {c : Sched τ ℓ} {calls}, a.Act op calls c → c.Refilled →
      c.Slices ∧ (calls = false → c.Sliced) ∨ calls = false ∧ c.Stuck ∧ c.InSlice ∧ c.Preempted := by
    intro c calls hact hrefilled
    obtain ⟨es, hlog⟩ := hact.log_suffix
    rcases h (hrefilled.of_append es hact.frame.1 hlog.symm) with hsliced | ⟨hstuck, -⟩
    · exact hact.slices hsliced hrefilled
    · exact absurd hstuck hact.not_stuck
  cases hstep with
  | stay hact =>
    intro hrefilled
    rcases hact' hact hrefilled with ⟨-, hsliced⟩ | ⟨-, hstuck⟩
    · exact .inl (hsliced rfl)
    · exact .inr hstuck
  | @switch b next hact hsearch =>
    intro hrefilled
    have hbefore : b.Refilled := hrefilled.of_append
      [.search b.current b.task (some next)] (by simp) (by simp)
    rcases hact' hact hbefore with ⟨hslices, -⟩ | ⟨hfalse, -⟩
    · exact .inl hslices.dispatch
    · exact absurd hfalse (by simp)

omit [DecidableEq ℓ] in
theorem Booted.timed {idle : τ} {tasks : List (τ × u32)} (h : a.Booted idle tasks)
    (hpriority : ∀ p ∈ tasks, 1 ≤ p.2) : a.Timed := by
  have htask : ∀ t, some t ∈ a.task_table → 1 ≤ (a.task t).priority ∧
      (a.task t).ticks = (a.task t).priority := by
    intro t ht
    obtain ⟨priority, hmem⟩ := (h.mem t).mp ht
    rw [h.task t priority hmem]
    refine ⟨?_, rfl⟩
    rcases List.mem_cons.mp hmem with heq | hmem
    · rw [(Prod.mk.inj heq).2]
      exact UInt32.le_refl _
    · exact hpriority _ hmem
  refine fun _ => .inl ⟨⟨fun t ht => (htask t ht).1, ?_, ?_, fun t ht _ => ?_, ?_⟩,
    fun hmem => absurd hmem h.current, fun t ht => ?_⟩
  · simp [Core.InSlice, h.log]
  · simp [Core.Preempted, h.log, ticks_since]
  · rw [(htask t ht).2]
    exact ⟨UInt32.le_refl _, fun _ => (htask t ht).1⟩
  · simp [h.log, slice]
  · rw [h.log, ticks_since, (htask t ht).2]
    simp

/-- A task whose last sleep has not ended is on the sleep list. -/
def Asleep (a : Sched τ ℓ) : Prop := ∀ t, slice t a.log = .asleep → t ∈ a.queue .sleep_list

theorem Act.asleep (hact : a.Act op calls b) (hwf : a.WF) (h : a.Asleep) : b.Asleep := by
  intro t ht
  rcases hact.time_cases with ⟨-, rfl⟩ | ⟨ms, -, -, -, -, rfl⟩ | ⟨⟨es, hlog, hes⟩, hqueue, -, -⟩
  · rw [slice_clock] at ht
    split_ifs at ht with hdue
    simpa using (mem_asleep hwf).mpr ⟨h t ht, hdue⟩
  · simp only [Function.update_self, insert_sleeper, List.mem_append, List.mem_cons]
    by_cases htc : a.current = t
    · exact .inr (.inl htc.symm)
    · have hmem := h t (by simpa [Core.doze, slice, htc] using ht)
      rw [← List.takeWhile_append_dropWhile (p := fun u => (a.task u).ticks ≤ a.wake_time ms)
        (l := a.queue .sleep_list), List.mem_append] at hmem
      exact hmem.imp_right .inr
  · rw [hqueue]
    exact h t (by rwa [hlog, slice_append_lock hes] at ht)

theorem Step.asleep {search : Core τ ℓ → Option τ} (hstep : a.Step search op b) (hwf : a.WF)
    (h : a.Asleep) : b.Asleep := by
  cases hstep with
  | stay hact => exact hact.asleep hwf h
  | @switch b next hact hsearch =>
    intro t ht
    refine hact.asleep hwf h t ?_
    simp only [Core.dispatch_frame, slice] at ht
    split_ifs at ht
    exact ht

/-- While the idle task does not sleep, a clock interrupt that comes to a sleeper or a woken task
finds no tick. -/
def Punctual (idle : τ) (a : Sched τ ℓ) : Prop :=
  (∀ ticks, Event.sleep idle ticks ∉ a.log) → a.InSlice → a.Refilled

theorem Act.punctual {idle : τ} (hact : a.Act op calls b) (hagrees : a.Agrees (· = idle))
    (htimed : a.Timed) (hasleep : a.Asleep) (h : a.Punctual idle) : b.Punctual idle := by
  intro hawake hinslice
  obtain ⟨htable, -, -, -, hprio⟩ := hact.frame
  have hrefilled : a.Refilled := by
    obtain ⟨es, hlog⟩ := hact.log_suffix
    refine h (fun ticks hmem => hawake ticks (by simp [← hlog, hmem])) fun t ticks priority hmem ht => ?_
    rw [← hprio]
    exact hinslice t ticks priority (by simp [← hlog, hmem]) (htable ▸ ht)
  have hsilent : ∀ es : List (Event τ ℓ), b.log = es ++ a.log → (∀ e ∈ es, e.Silent) → b.Refilled := by
    intro es hlog hes t ticks priority older hsuffix ht
    exact hrefilled t ticks priority older
      (Runs.suffix_of_append es (fun he => (hes _ he).elim) (hlog ▸ hsuffix)) (htable ▸ ht)
  rcases hact.time_cases with ⟨-, rfl⟩ | ⟨ms, -, -, -, -, rfl⟩ | ⟨⟨es, hlog, hes⟩, -, -, -⟩
  · intro t ticks priority older hsuffix ht
    rw [clock_log, List.suffix_cons_iff] at hsuffix
    rcases hsuffix with heq | hsuffix
    · obtain ⟨htick, rfl⟩ := List.cons.inj heq
      obtain ⟨rfl, rfl, rfl⟩ := Event.tick.inj htick
      have hone := (hinslice a.current _ _ (by rw [clock_log]; exact List.mem_cons_self) ht).1
      have hdue : a.current ∉ a.due := fun hdue => by simp [hdue] at hone
      rw [if_neg hdue] at hone
      rw [slice_wakes, if_neg hdue]
      cases hslice : slice a.current a.log with
      | ordinary => rfl
      | woken =>
        -- a woken task has no tick
        have hsliced := (htimed hrefilled).resolve_right fun hstuck => hact.not_stuck hstuck.1
        rw [hsliced.woken _ (htable ▸ ht) hslice] at hone
        exact absurd hone (by decide)
      | asleep =>
        -- a sleeper does not run
        have hne : a.current ≠ idle := by
          rintro rfl
          obtain ⟨ticks, hmem⟩ := sleep_mem_of_slice hslice
          exact hawake ticks (by simp [clock_log, hmem])
        exact absurd (hasleep _ hslice) (hagrees.free (htable ▸ ht) hne _)
    · exact hrefilled t ticks priority older (Runs.suffix_of_append _ (by simp) hsuffix) (htable ▸ ht)
  · exact hsilent [.sleep a.current (a.wake_time ms)] rfl (by simp [Event.Silent])
  · exact hsilent es hlog fun e he => (hes e he).silent

theorem Step.punctual {idle : τ} {search : Core τ ℓ → Option τ} (hstep : a.Step search op b)
    (hagrees : a.Agrees (· = idle)) (htimed : a.Timed) (hasleep : a.Asleep) (h : a.Punctual idle) :
    b.Punctual idle := by
  cases hstep with
  | stay hact => exact hact.punctual hagrees htimed hasleep h
  | @switch b next hact hsearch =>
    intro hawake hinslice t ticks priority older hsuffix ht
    simp only [Core.dispatch_frame] at hawake hsuffix ht
    have hearlier := Runs.suffix_of_append [_] (by simp) hsuffix
    refine hact.punctual hagrees htimed hasleep h (fun ticks hmem => hawake ticks (by simp [hmem])) ?_ t
      ticks priority older hearlier ht
    intro t ticks priority hmem ht
    simpa using hinslice t ticks priority (by simp [hmem]) (by simpa using ht)

end Sched

/-- The time slices of a run are bounded as long as no clock interrupt comes to a task that has been
woken and has not called `schedule` since, and while the idle task does not sleep only as long. -/
theorem time_slice_bounded [DecidableEq ℓ] {idle : τ} {tasks : List (τ × u32)}
    (hpriority : ∀ p ∈ tasks, 1 ≤ p.2) {s : Kernel τ ℓ} (hreach : Reachable idle tasks Unrestricted s) :
    (s.Refilled → s.InSlice ∧ s.Preempted) ∧
      ((∀ ticks, Event.sleep idle ticks ∉ s.log) → (s.InSlice ∧ s.Preempted ↔ s.Refilled)) := by
  obtain ⟨a, href, -, -, -, htimed, -, hpunctual⟩ := reachable_invariant
    (fun a => a.idel_task = some idle ∧ a.Agrees (· = idle) ∧ a.Timed ∧ a.Asleep ∧
      a.Punctual idle)
    (fun _ _ _ h => h ▸ task_search_sound)
    (fun a _ hbooted => by
      refine ⟨hbooted.idel_task, hbooted.regular.agrees.mono fun t h => h.elim,
        hbooted.timed hpriority, fun t ht => ?_, fun _ _ t ticks priority older h _ => ?_⟩
      · simp [hbooted.log, slice] at ht
      · simp [hbooted.log] at h)
    (fun a b search op hwf ⟨hidle, hagrees, htimed, hasleep, hpunctual⟩ hallowed hstep => by
      obtain rfl : search = task_search .TASK_READY := hallowed
      exact ⟨hstep.frame.2.trans hidle, hstep.agrees_but_idle hwf hidle hagrees, hstep.timed htimed,
        hstep.asleep hwf hasleep, hstep.punctual hagrees htimed hasleep hpunctual⟩)
    hreach
  obtain ⟨c, node⟩ := s
  obtain rfl : c = a.toCore := href.core
  have hbounded : a.Refilled → a.InSlice ∧ a.Preempted := fun hrefilled =>
    (htimed hrefilled).elim (fun h => ⟨h.in_slice, h.preempted⟩) fun h => h.2
  exact ⟨hbounded, fun hawake => ⟨fun h => hpunctual hawake h.1, hbounded⟩⟩

/-- The sleepers of the shipped kernel: the init task is dispatched with no tick left. -/
def overslept : List (Op Nat) :=
  [enable, .clock, enable, .call (.sleep 10), enable, .call (.sleep 10), enable, .clock, .resume, .clock,
    .resume, .clock]

/-- A clock interrupt that comes to the task just woken wraps its `ticks`. -/
theorem time_slice_wraps : ∃ s : Kernel Nat Nat, Reachable 1 (shipped_tasks 2 3) Unrestricted s ∧
    ¬ (s.InSlice ∧ s.Preempted) := by
  have hrun : (run idle_yields overslept shipped_kernel).any (fun s => s.task_table.contains (some 2) &&
      s.log.any (fun e => match e with
        | .tick 2 0 _ => true
        | _ => false)) = true := by
    decide +kernel
  obtain ⟨s, hreach, hcheck⟩ := exists_reachable boots_shipped_kernel idle_yields_unrestricted _ _ hrun
  rw [Bool.and_eq_true, List.contains_iff_mem, List.any_eq_true] at hcheck
  obtain ⟨hmem, e, he, htick⟩ := hcheck
  refine ⟨s, hreach, fun ⟨hslice, _⟩ => ?_⟩
  split at htick
  · exact absurd (hslice _ _ _ he hmem).1 (by decide)
  · exact absurd htick (by simp)

/-- Both directions at a run in which no task sleeps and the slice of the init task ends. -/
theorem time_slice_bounded_shipped : ∃ s : Kernel Nat Nat, Reachable 1 (shipped_tasks 2 3) Unrestricted s ∧
    s.jiffies = 6 ∧ (s.Refilled → s.InSlice ∧ s.Preempted) ∧
      ((∀ ticks, Event.sleep 1 ticks ∉ s.log) → (s.InSlice ∧ s.Preempted ↔ s.Refilled)) := by
  obtain ⟨s, hreach, hjiffies⟩ := exists_reachable boots_shipped_kernel idle_yields_unrestricted
    [enable, .clock, enable, .clock, .resume, .clock, .resume, .clock, .resume, .clock, .resume, .clock]
    (fun s => s.jiffies = 6) (by decide +kernel)
  exact ⟨s, hreach, of_decide_eq_true hjiffies, time_slice_bounded (by decide) hreach⟩

end onix
