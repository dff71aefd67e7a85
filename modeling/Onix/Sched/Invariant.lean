import Onix.Sched.Refinement

namespace onix

variable {τ ℓ : Type}

namespace Core

/-- The running task can be preempted, and so can every task below its top frame. -/
structure Open (c : Core τ ℓ) : Prop where
  top : Preemptible (c.stack c.current)
  below : ∀ t, Preemptible (c.stack t).tail

theorem Open.congr {c d : Core τ ℓ} (hopen : c.Open) (hcurrent : d.current = c.current)
    (hstack : d.stack = c.stack) : d.Open :=
  ⟨by rw [hstack, hcurrent]; exact hopen.top, by rw [hstack]; exact hopen.below⟩

/-- With interrupts on, or without a frame, the running task can be preempted. -/
theorem WF.open {c : Core τ ℓ} (hwf : c.WF) (h : c.IF = true ∨ c.stack c.current = []) : c.Open := by
  refine ⟨?_, hwf.shape⟩
  cases hstack : c.stack c.current with
  | nil => simp
  | cons f rest =>
    have hIF : c.IF = true := h.resolve_right (by simp [hstack])
    have htop : ¬ f.Atomic := fun hatomic => by simp [hwf.intr f rest hstack hatomic] at hIF
    have hrest : Preemptible rest := by simpa [hstack] using hwf.shape c.current
    exact preemptible_cons.mpr ⟨htop, hrest⟩

variable [DecidableEq τ]

/-- What an act leaves of the stacks. The running task is at a point where it can be preempted, or
at an atomic frame with interrupts off, or it spins for good; it gives up the CPU in the second
case only. -/
inductive Paused (c : Core τ ℓ) : Bool → Prop where
  | preemptible (hopen : c.Open) : Paused c false
  | atomic {calls : Bool} {d : Core τ ℓ} {f : Frame ℓ} (hopen : d.Open)
      (hcurrent : c.current = d.current) (hstack : c.stack = (d.push_frame f).stack)
      (hIF : c.IF = false) : Paused c calls
  | stuck (hstuck : c.Stuck) : Paused c false

/-- Below the top frame a task can be preempted. -/
theorem WF.pop {c : Core τ ℓ} (hwf : c.WF) : c.pop_frame.Open := by
  refine ⟨by simpa using hwf.shape c.current, fun t => ?_⟩
  by_cases ht : t = c.current
  · subst ht
    intro f hf
    refine hwf.shape c.current f (List.mem_of_mem_tail ?_)
    simpa using hf
  · simpa [ht] using hwf.shape t

theorem Open.push {c : Core τ ℓ} (hopen : c.Open) {f : Frame ℓ} (hf : ¬ f.Atomic) :
    (c.push_frame f).Open := by
  refine ⟨by simpa [hf] using hopen.top, fun t => ?_⟩
  by_cases ht : t = c.current
  · subst ht
    simpa using hopen.top
  · simpa [ht] using hopen.below t

theorem LockEntry.open {c d : Core τ ℓ} {op : Op ℓ} {m : ℓ} {intr again : Bool}
    (hentry : c.LockEntry op m intr again d) (hwf : c.WF) : d.Open := by
  cases hentry with
  | call hthread => exact (hwf.open (.inr hthread.1)).congr rfl rfl
  | spin hstack => exact (hwf.pop.push (f := .spin_lock m .hold) id).congr rfl rfl
  | retry hstack => exact hwf.pop

theorem UnlockEntry.open {c d : Core τ ℓ} {op : Op ℓ} {m : ℓ} {intr : Bool}
    (hentry : c.UnlockEntry op m intr d) (hwf : c.WF) : d.Open := by
  cases hentry with
  | call hthread => exact (hwf.open (.inr hthread.1)).congr rfl rfl
  | spin hstack => exact hwf.pop.congr rfl rfl

theorem stuck_fail {c : Core τ ℓ} (e : Failure) (hIF : c.IF = false) : (c.fail e).Stuck :=
  ⟨hIF, e, c.stack c.current, by simp⟩

theorem paused_fail {c : Core τ ℓ} (e : Failure) (hIF : c.IF = false) : (c.fail e).Paused false :=
  .stuck (stuck_fail e hIF)

theorem Open.push_atomic {c d : Core τ ℓ} {calls : Bool} (hopen : c.Open) (f : Frame ℓ)
    (hIF : d.IF = false) (hcurrent : d.current = c.current)
    (hstack : d.stack = (c.push_frame f).stack) : d.Paused calls :=
  .atomic hopen hcurrent hstack hIF

/-- The stacks behind an act are in order, unless the running task spins for good. -/
theorem Paused.shape {c : Core τ ℓ} {calls : Bool} (hpaused : c.Paused calls) :
    (∀ t, Preemptible (c.stack t).tail) ∨ calls = false ∧ c.Stuck := by
  cases hpaused with
  | preemptible hopen => exact .inl hopen.below
  | stuck hstuck => exact .inr ⟨rfl, hstuck⟩
  | @atomic _ d f hopen hcurrent hstack hIF =>
    refine .inl fun t => ?_
    rw [hstack]
    by_cases ht : t = d.current
    · subst ht
      simpa using hopen.top
    · simpa [ht] using hopen.below t

theorem Paused.intr {c : Core τ ℓ} {calls : Bool} (hpaused : c.Paused calls) {f : Frame ℓ}
    {rest : List (Frame ℓ)} (hstack : c.stack c.current = f :: rest) (hatomic : f.Atomic) :
    c.IF = false := by
  cases hpaused with
  | preemptible hopen =>
    have htop := hopen.top
    rw [hstack, preemptible_cons] at htop
    exact absurd hatomic htop.1
  | atomic hopen hcurrent hstack' hIF => exact hIF
  | stuck hstuck => exact hstuck.1

variable [DecidableEq ℓ]

theorem Open.spin_lock_stmt {c : Core τ ℓ} (hopen : c.Open) (l : ℓ) (point : SpinLockPoint) :
    (c.spin_lock_stmt l point).Open := by
  cases point with
  | test =>
    rw [Core.spin_lock_stmt]
    split <;> exact hopen.push id
  | check =>
    rw [Core.spin_lock_stmt]
    split <;> exact hopen.push id
  | hold => exact (hopen.congr (d := c.set_lock l _) rfl rfl).push id
  | acquire => exact hopen
  | set => exact hopen.congr rfl rfl
  | again => exact hopen.congr rfl rfl

theorem Open.spin_unlock_stmt {c : Core τ ℓ} (hopen : c.Open) (l : ℓ) (point : SpinUnlockPoint) :
    (c.spin_unlock_stmt l point).Open := by
  cases point with
  | check_holder =>
    rw [Core.spin_unlock_stmt]
    split <;> exact hopen.push id
  | test =>
    rw [Core.spin_unlock_stmt]
    split <;> exact hopen.push id
  | check_repeat =>
    rw [Core.spin_unlock_stmt]
    split <;> exact hopen.push id
  | drop => exact hopen.congr rfl rfl
  | clear_holder => exact (hopen.congr (d := c.set_lock l _) rfl rfl).push id
  | clear_repeat => exact (hopen.congr (d := c.set_lock l _) rfl rfl).push id
  | release => exact hopen

end Core

namespace Sched

variable [DecidableEq τ] [DecidableEq ℓ] {a b : Sched τ ℓ} {op : Op ℓ} {calls : Bool}

/-- What no act changes. -/
theorem Act.frame (hact : a.Act op calls b) :
    b.task_table = a.task_table ∧ b.idel_task = a.idel_task ∧ b.current = a.current ∧
      (∀ t, (b.task t).magic = (a.task t).magic) ∧ ∀ t, (b.task t).priority = (a.task t).priority := by
  cases hact with
  | tick hIF hticks => simp
  | expire hIF hticks => simp
  | sleep hthread hfree => simp [Core.doze]
  | take hentry hvalue => simp [Core.take_mutex, hentry.frame]
  | wait hentry hvalue hfree => simp [Core.wait_mutex, hentry.frame]
  | wait_refused hentry hvalue hlinked => simp [hentry.frame]
  | release_refused hentry hvalue => simp [hentry.frame]
  | release hentry hvalue hempty => simp [Core.free_mutex, hentry.frame]
  | handoff hentry hvalue hlast => simp [Core.free_mutex, hentry.frame]
  | _ => simp

/-- An act gives up the CPU with interrupts off. -/
theorem Act.off (hact : a.Act op true b) (hwf : a.WF) : b.IF = false := by
  cases hact with
  | expire hIF hticks => simp
  | sleep hthread hfree => simp [Core.doze]
  | wait hentry hvalue hfree => simp [Core.wait_mutex, (hentry.enabled hwf.toWF).2]
  | handoff hentry hvalue hlast => simp [Core.free_mutex, hentry.frame]
  | _ => simp

theorem Act.paused (hact : a.Act op calls b) (hwf : a.WF) : b.Paused calls := by
  cases hact with
  | tick hIF hticks =>
    exact (hwf.open (.inl hIF)).push_atomic (.iret a.IF) (by simp) (by simp) (by simp)
  | expire hIF hticks =>
    exact (hwf.open (.inl hIF)).push_atomic (.iret a.IF) (by simp) (by simp) (by simp)
  | set_interrupt_state hstack hboot =>
    exact .preemptible ((hwf.open (.inr hstack)).congr rfl rfl)
  | yield hthread => exact (hwf.open (.inr hthread.1)).push_atomic (.iret a.IF) rfl rfl rfl
  | sleep hthread hfree => exact (hwf.open (.inr hthread.1)).push_atomic (.iret a.IF) rfl rfl rfl
  | sleep_refused hthread hlinked => exact Core.paused_fail _ rfl
  | test_block hthread hgate hfree =>
    exact (hwf.open (.inr hthread.1)).push_atomic (.iret a.IF) rfl rfl rfl
  | test_refused hthread hgate hlinked => exact Core.paused_fail _ rfl
  | test_wake hthread hgate =>
    exact (hwf.open (.inr hthread.1)).push_atomic (.iret a.IF) rfl rfl rfl
  | take hentry hvalue => exact .preemptible ((hentry.open hwf.toWF).congr rfl rfl)
  | wait hentry hvalue hfree =>
    exact (hentry.open hwf.toWF).push_atomic _ (hentry.enabled hwf.toWF).2 rfl rfl
  | wait_refused hentry hvalue hlinked => exact Core.paused_fail _ (hentry.enabled hwf.toWF).2
  | release_refused hentry hvalue => exact Core.paused_fail _ hentry.frame.2.2.2.2.2.2.2
  | release hentry hvalue hempty => exact .preemptible ((hentry.open hwf.toWF).congr rfl rfl)
  | handoff hentry hvalue hlast =>
    exact (hentry.open hwf.toWF).push_atomic _ hentry.frame.2.2.2.2.2.2.2 rfl rfl
  | iret hstack => exact .preemptible (hwf.pop.congr rfl rfl)
  | unlock_return hstack => exact .preemptible (hwf.pop.congr rfl rfl)
  | call_spin_lock hthread => exact .preemptible ((hwf.open (.inr hthread.1)).push id)
  | call_spin_unlock hthread => exact .preemptible ((hwf.open (.inr hthread.1)).push id)
  | spin_lock hstack hpoint => exact .preemptible (hwf.pop.spin_lock_stmt _ _)
  | spin_unlock hstack hpoint => exact .preemptible (hwf.pop.spin_unlock_stmt _ _)

end Sched

namespace Core

variable [DecidableEq τ]

theorem UnlockEntry.log {c d : Core τ ℓ} {op : Op ℓ} {m : ℓ} {intr : Bool}
    (hentry : c.UnlockEntry op m intr d) : d.log = c.log ∨ d.log = .unlocked c.current m :: c.log := by
  cases hentry with
  | call hthread => exact .inl rfl
  | spin hstack => exact .inr rfl

variable [DecidableEq ℓ]

theorem spin_lock_stmt_log (c : Core τ ℓ) (l : ℓ) (point : SpinLockPoint) :
    (c.spin_lock_stmt l point).log = c.log ∨
      (c.spin_lock_stmt l point).log = .locked c.current l :: c.log := by
  cases point with
  | test => by_cases h : (c.lock l).holder = some c.current <;> simp [spin_lock_stmt, h]
  | check => by_cases h : (c.lock l).repeat = 0 <;> simp [spin_lock_stmt, h]
  | _ => simp [spin_lock_stmt]

theorem spin_unlock_stmt_log (c : Core τ ℓ) (l : ℓ) (point : SpinUnlockPoint) :
    (c.spin_unlock_stmt l point).log = c.log ∨
      (c.spin_unlock_stmt l point).log = .unlocked c.current l :: c.log := by
  cases point with
  | check_holder => by_cases h : (c.lock l).holder = some c.current <;> simp [spin_unlock_stmt, h]
  | test => by_cases h : (c.lock l).repeat > 1 <;> simp [spin_unlock_stmt, h]
  | check_repeat => by_cases h : (c.lock l).repeat = 1 <;> simp [spin_unlock_stmt, h]
  | _ => simp [spin_unlock_stmt]

end Core

namespace Sched

variable [DecidableEq τ] [DecidableEq ℓ] {a b : Sched τ ℓ} {op : Op ℓ} {calls : Bool}

/-- A task that spins with interrupts off does not act. -/
theorem Act.not_stuck (hact : a.Act op calls b) : ¬ a.Stuck := by
  rintro ⟨hIF, e, rest, hspin⟩
  have hlock : ∀ {m intr again c}, ¬ a.LockEntry op m intr again c := by
    intro m intr again c hentry
    cases hentry with
    | call hthread => simp [hthread.1] at hspin
    | spin hstack => simp [hstack] at hspin
    | retry hstack => simp [hstack] at hspin
  have hunlock : ∀ {m intr c}, ¬ a.UnlockEntry op m intr c := by
    intro m intr c hentry
    cases hentry with
    | call hthread => simp [hthread.1] at hspin
    | spin hstack => simp [hstack] at hspin
  cases hact with
  | tick hon hticks => simp [hIF] at hon
  | expire hon hticks => simp [hIF] at hon
  | take hentry hvalue => exact hlock hentry
  | wait hentry hvalue hfree => exact hlock hentry
  | wait_refused hentry hvalue hlinked => exact hlock hentry
  | release_refused hentry hvalue => exact hunlock hentry
  | release hentry hvalue hempty => exact hunlock hentry
  | handoff hentry hvalue hlast => exact hunlock hentry
  | set_interrupt_state hstack hboot => simp [hstack] at hspin
  | iret hstack => simp [hstack] at hspin
  | unlock_return hstack => simp [hstack] at hspin
  | spin_lock hstack hpoint => simp [hstack] at hspin
  | spin_unlock hstack hpoint => simp [hstack] at hspin
  | yield hthread => simp [hthread.1] at hspin
  | sleep hthread hfree => simp [hthread.1] at hspin
  | sleep_refused hthread hlinked => simp [hthread.1] at hspin
  | test_block hthread hgate hfree => simp [hthread.1] at hspin
  | test_refused hthread hgate hlinked => simp [hthread.1] at hspin
  | test_wake hthread hgate => simp [hthread.1] at hspin
  | call_spin_lock hthread => simp [hthread.1] at hspin
  | call_spin_unlock hthread => simp [hthread.1] at hspin

/-- The log with events of the running task on locks added to it. -/
def LockLog (a : Sched τ ℓ) (log : List (Event τ ℓ)) : Prop :=
  ∃ es, log = es ++ a.log ∧ ∀ e ∈ es, e.OfLock a.current

omit [DecidableEq τ] [DecidableEq ℓ] in
theorem LockLog.cons {e : Event τ ℓ} {log : List (Event τ ℓ)} (h : LockLog a log)
    (he : e.OfLock a.current) : LockLog a (e :: log) := by
  obtain ⟨es, hlog, hes⟩ := h
  exact ⟨e :: es, by simp [hlog], by simpa [he] using hes⟩

/-- An act that has nothing to do with time: it changes neither the sleep list nor `ticks`, unless it
ends in a task spinning for good. -/
structure Timeless (a b : Sched τ ℓ) (calls : Bool) : Prop where
  log : LockLog a b.log
  sleep_list : b.queue .sleep_list = a.queue .sleep_list
  jiffies : b.jiffies = a.jiffies
  ticks : (∀ t, (b.task t).ticks = (a.task t).ticks) ∨ calls = false ∧ b.Stuck ∧
    ∀ t, t ≠ a.current → (b.task t).ticks = (a.task t).ticks

/-- What an act does with time: what a clock interrupt does, a task going to sleep, or nothing. -/
theorem Act.time_cases (hact : a.Act op calls b) :
    op = .clock ∧ b = a.clock ∨
      (∃ ms, op = .call (.sleep ms) ∧ calls = true ∧ some a.current ∈ a.task_table ∧
        a.Free a.current ∧ b = ⟨a.gate.doze ms,
          Function.update a.queue .sleep_list (a.insert_sleeper a.current (a.wake_time ms))⟩) ∨
      Timeless a b calls := by
  have hnil : LockLog a a.log := ⟨[], by simp, by simp⟩
  have hunlock : ∀ {m intr c}, a.UnlockEntry op m intr c → LockLog a c.log := fun hentry => by
    rcases hentry.log with hlog | hlog <;> rw [hlog]
    · exact hnil
    · exact hnil.cons rfl
  cases hact with
  | tick hIF hticks => exact .inl ⟨rfl, rfl⟩
  | expire hIF hticks => exact .inl ⟨rfl, rfl⟩
  | @sleep ms hthread hfree => exact .inr (.inl ⟨ms, rfl, rfl, hthread.2, hfree, rfl⟩)
  | sleep_refused hthread hlinked =>
    exact .inr (.inr ⟨hnil, rfl, rfl, .inr ⟨rfl, Core.stuck_fail _ rfl, fun t ht => by simp [ht]⟩⟩)
  | test_block hthread hgate hfree =>
    exact .inr (.inr ⟨hnil, by simp, rfl, .inl fun t => by simp⟩)
  | test_wake hthread hgate => exact .inr (.inr ⟨hnil, by simp, rfl, .inl fun t => by simp⟩)
  | @take _ m _ _ _ hentry hvalue =>
    refine .inr (.inr ⟨?_, rfl, ?_, .inl fun t => ?_⟩)
    · simpa [Core.take_mutex, hentry.frame] using hnil.cons (e := .acquire a.current m) rfl
    all_goals simp [Core.take_mutex, hentry.frame]
  | @wait _ m _ again _ hentry hvalue hfree =>
    refine .inr (.inr ⟨?_, by simp, ?_, .inl fun t => ?_⟩)
    · simpa [Core.wait_mutex, hentry.frame] using hnil.cons (e := .enqueue a.current m again) rfl
    all_goals simp [Core.wait_mutex, hentry.frame]
  | @wait_refused _ m _ again _ hentry hvalue hlinked =>
    refine .inr (.inr ⟨?_, rfl, ?_, .inl fun t => ?_⟩)
    · simpa [hentry.frame] using hnil.cons (e := .enqueue a.current m again) rfl
    all_goals simp [hentry.frame]
  | release_refused hentry hvalue =>
    have hlog := hunlock hentry
    refine .inr (.inr ⟨hlog, rfl, ?_, .inl fun t => ?_⟩) <;> simp [hentry.frame]
  | @release _ m _ _ hentry hvalue hempty =>
    refine .inr (.inr ⟨?_, rfl, ?_, .inl fun t => ?_⟩)
    · simpa [Core.free_mutex, hentry.frame] using
        (hunlock hentry).cons (e := .release a.current m none) rfl
    all_goals simp [Core.free_mutex, hentry.frame]
  | @handoff _ m _ _ _ t hentry hvalue hlast =>
    refine .inr (.inr ⟨?_, by simp, ?_, .inl fun t => ?_⟩)
    · simpa [Core.free_mutex, hentry.frame] using
        (hunlock hentry).cons (e := .release a.current m (some t)) rfl
    all_goals simp [Core.free_mutex, hentry.frame]
  | @spin_lock l point _ hstack hpoint =>
    refine .inr (.inr ⟨?_, rfl, ?_, .inl fun t => ?_⟩)
    · rcases a.pop_frame.spin_lock_stmt_log l point with hlog | hlog <;> rw [hlog]
      · exact hnil
      · exact hnil.cons rfl
    all_goals simp
  | @spin_unlock l point _ hstack hpoint =>
    refine .inr (.inr ⟨?_, rfl, ?_, .inl fun t => ?_⟩)
    · rcases a.pop_frame.spin_unlock_stmt_log l point with hlog | hlog <;> rw [hlog]
      · exact hnil
      · exact hnil.cons rfl
    all_goals simp
  | _ => exact .inr (.inr ⟨hnil, rfl, rfl, .inl fun t => by simp⟩)

/-- An act adds to the log. -/
theorem Act.log_suffix (hact : a.Act op calls b) : a.log <:+ b.log := by
  rcases hact.time_cases with ⟨-, rfl⟩ | ⟨ms, -, -, -, -, rfl⟩ | ⟨⟨es, hlog, -⟩, -, -, -⟩
  · exact ⟨_ :: _, by rw [clock_log]; rfl⟩
  · exact ⟨[_], rfl⟩
  · exact ⟨es, hlog.symm⟩

/-- An act does not call `schedule`. -/
theorem Act.search_mem (hact : a.Act op calls b) {current : τ} {task : τ → task_t} {next : Option τ}
    (hmem : Event.search current task next ∈ b.log) : Event.search current task next ∈ a.log := by
  rcases hact.time_cases with ⟨-, rfl⟩ | ⟨ms, -, -, -, -, rfl⟩ | ⟨⟨es, hlog, hes⟩, -, -, -⟩
  · simpa [clock_log] using hmem
  · simpa [Core.doze] using hmem
  · rw [hlog, List.mem_append] at hmem
    exact hmem.resolve_left fun h => (hes _ h).elim

/-- Only a task of the table does anything but take a clock interrupt or set the interrupt flag. -/
theorem Act.mem (hact : a.Act op calls b) (hwf : a.WF) :
    some a.current ∈ a.task_table ∨ op = .clock ∨ op = .call (.set_interrupt_state true) := by
  have hframe : ∀ {f rest}, a.stack a.current = f :: rest → some a.current ∈ a.task_table :=
    fun hstack => hwf.boot.resolve_right (by simp [hstack])
  cases hact with
  | tick hIF hticks => exact .inr (.inl rfl)
  | expire hIF hticks => exact .inr (.inl rfl)
  | set_interrupt_state hstack hboot => exact hboot.imp_right fun hstate => .inr (by rw [hstate])
  | take hentry hvalue => exact .inl (hentry.enabled hwf.toWF).1
  | wait hentry hvalue hfree => exact .inl (hentry.enabled hwf.toWF).1
  | wait_refused hentry hvalue hlinked => exact .inl (hentry.enabled hwf.toWF).1
  | release_refused hentry hvalue => exact .inl (hentry.mem hwf.toWF)
  | release hentry hvalue hempty => exact .inl (hentry.mem hwf.toWF)
  | handoff hentry hvalue hlast => exact .inl (hentry.mem hwf.toWF)
  | iret hstack => exact .inl (hframe hstack)
  | unlock_return hstack => exact .inl (hframe hstack)
  | spin_lock hstack hpoint => exact .inl (hframe hstack)
  | spin_unlock hstack hpoint => exact .inl (hframe hstack)
  | yield hthread => exact .inl hthread.2
  | sleep hthread hfree => exact .inl hthread.2
  | sleep_refused hthread hlinked => exact .inl hthread.2
  | test_block hthread hgate hfree => exact .inl hthread.2
  | test_refused hthread hgate hlinked => exact .inl hthread.2
  | test_wake hthread hgate => exact .inl hthread.2
  | call_spin_lock hthread => exact .inl hthread.2
  | call_spin_unlock hthread => exact .inl hthread.2

/-- The boot code has its first clock interrupt on the last tick of its slice. -/
theorem Act.boot (hact : a.Act op false b) (hwf : a.WF) :
    some b.current ∈ b.task_table ∨ b.stack b.current = [] ∧ (b.task b.current).ticks = 1 := by
  rw [hact.frame.1, hact.frame.2.2.1]
  by_cases hmem : some a.current ∈ a.task_table
  · exact .inl hmem
  obtain ⟨hnil, hone⟩ := hwf.boot.resolve_left hmem
  have hdue : a.current ∉ a.due := fun hdue => hmem (hwf.member .sleep_list _ (due_subset a hdue))
  rcases (hact.mem hwf).resolve_left hmem with rfl | rfl
  · obtain ⟨-, -, hticks⟩ := hact.of_clock
    simp [hdue, hone] at hticks
  · cases hact with
    | set_interrupt_state hstack hboot => exact .inr ⟨hnil, hone⟩
    | take hentry hvalue => cases hentry
    | wait_refused hentry hvalue hlinked => cases hentry
    | release_refused hentry hvalue => cases hentry
    | release hentry hvalue hempty => cases hentry

/-- An act leaves the queues, puts the running task into one of them, or takes tasks off one. -/
theorem Act.queue_cases (hact : a.Act op calls b) (hwf : a.WF) :
    b.queue = a.queue ∨
      (∃ l l₁ l₂, some a.current ∈ a.task_table ∧ a.Free a.current ∧ a.queue l = l₁ ++ l₂ ∧
        b.queue = Function.update a.queue l (l₁ ++ a.current :: l₂)) ∨
      ∃ l ts, ts.Sublist (a.queue l) ∧ b.queue = Function.update a.queue l ts := by
  cases hact with
  | tick hIF hticks => exact .inr (.inr ⟨.sleep_list, a.asleep, List.dropWhile_sublist _, rfl⟩)
  | expire hIF hticks => exact .inr (.inr ⟨.sleep_list, a.asleep, List.dropWhile_sublist _, rfl⟩)
  | sleep hthread hfree =>
    exact .inr (.inl ⟨.sleep_list, _, _, hthread.2, hfree, List.takeWhile_append_dropWhile.symm, rfl⟩)
  | test_block hthread hgate hfree =>
    exact .inr (.inl ⟨.block_list, [], _, hthread.2, hfree, rfl, rfl⟩)
  | test_wake hthread hgate => exact .inr (.inr ⟨.block_list, _, List.erase_sublist, rfl⟩)
  | @wait _ m _ _ _ hentry hvalue hfree =>
    exact .inr (.inl ⟨.waiters m, [], _, (hentry.enabled hwf.toWF).1, hfree, rfl, rfl⟩)
  | @handoff _ m _ _ waiters t hentry hvalue hlast =>
    refine .inr (.inr ⟨.waiters m, waiters, ?_, rfl⟩)
    rw [hlast]
    exact List.sublist_append_left _ _
  | _ => exact .inl rfl

/-- A task in a queue behind an act was in that queue before, or it is the running task. -/
theorem Act.queue_mem (hact : a.Act op calls b) (hwf : a.WF) {l : ListPtr ℓ} {t : τ}
    (ht : t ∈ b.queue l) :
    t ∈ a.queue l ∨ t = a.current ∧ a.Free t ∧ some t ∈ a.task_table := by
  have hother : ∀ {l' ts}, b.queue = Function.update a.queue l' ts → l ≠ l' → t ∈ a.queue l := by
    intro l' ts heq hne
    rwa [heq, Function.update_of_ne hne] at ht
  rcases hact.queue_cases hwf with heq | ⟨l', l₁, l₂, hmem, hfree, hl', heq⟩ | ⟨l', ts, hsub, heq⟩
  · exact .inl (heq ▸ ht)
  · by_cases hl : l = l'
    · subst hl
      rw [heq, Function.update_self, List.mem_append, List.mem_cons] at ht
      rw [hl', List.mem_append]
      rcases ht with ht | rfl | ht
      · exact .inl (.inl ht)
      · exact .inr ⟨rfl, hfree, hmem⟩
      · exact .inl (.inr ht)
    · exact .inl (hother heq hl)
  · by_cases hl : l = l'
    · subst hl
      rw [heq, Function.update_self] at ht
      exact .inl (hsub.subset ht)
    · exact .inl (hother heq hl)

/-- `block_list` holds the task of gate.c, unless `sys_test` was called by a task that still is in
some list. -/
theorem Act.gate (hact : a.Act op calls b) (hwf : a.WF) :
    b.queue .block_list = b.gate_task.toList ∨
      (some a.current ∈ a.task_table ∧ ¬ a.Free a.current) ∧ calls = false ∧ b.Stuck := by
  have hgate := hwf.gate
  cases hact with
  | test_block hthread hnone hfree => simp [hgate, hnone]
  | test_refused hthread hnone hlinked =>
    exact .inr ⟨⟨hthread.2, hlinked⟩, rfl, Core.stuck_fail _ rfl⟩
  | test_wake hthread hsome => simp [hgate, hsome]
  | take hentry hvalue => simp [Core.take_mutex, hentry.frame, hgate]
  | wait hentry hvalue hfree => simp [Core.wait_mutex, hentry.frame, hgate]
  | wait_refused hentry hvalue hlinked => simp [hentry.frame, hgate]
  | release_refused hentry hvalue => simp [hentry.frame, hgate]
  | release hentry hvalue hempty => simp [Core.free_mutex, hentry.frame, hgate]
  | handoff hentry hvalue hlast => simp [Core.free_mutex, hentry.frame, hgate]
  | sleep hthread hfree => simp [Core.doze, hgate]
  | _ => simp [hgate]

/-- A step keeps the invariant, unless it leaves the running task spinning for good. -/
theorem Step.wf {search : Core τ ℓ → Option τ} (hsound : Sound search) (hwf : a.WF)
    (hstep : a.Step search op b) {node : NodeHeap (NodePtr τ ℓ)}
    (hrep : Represents b.tasks node b.queue) : b.WF ∨ b.Stuck := by
  cases hstep with
  | stay hact =>
    obtain ⟨htable, hidle, hcurrent, hmagic, -⟩ := hact.frame
    have hpaused := hact.paused hwf
    rcases hact.gate hwf with hgate | ⟨-, -, hstuck⟩
    · rcases hpaused.shape with hshape | ⟨-, hstuck⟩
      · refine .inl ⟨⟨?_, ?_, ?_, fun f rest => hpaused.intr, hshape, hact.boot hwf⟩, ?_, hgate,
          hrep.nodup, hrep.disjoint⟩
        · rw [htable, hidle]
          exact hwf.idle
        · intro t ht
          rw [hmagic, hwf.magic t (htable ▸ ht)]
        · rw [hcurrent, hmagic, hwf.current]
        · intro l t ht
          rw [htable]
          exact (hact.queue_mem hwf ht).elim (hwf.member l t) fun h => h.2.2
      · exact .inr hstuck
    · exact .inr hstuck
  | @switch b next hact hsearch =>
    obtain ⟨htable, hidle, hcurrent, hmagic, -⟩ := hact.frame
    have hpaused := hact.paused hwf
    have hgate := (hact.gate hwf).resolve_right fun h => by simp at h
    have hshape := hpaused.shape.resolve_right fun h => by simp at h
    have hidle' : ∃ idle, b.idel_task = some idle ∧ some idle ∈ b.task_table := by
      rw [htable, hidle]
      exact hwf.idle
    obtain ⟨next', hsearch', hnext⟩ := hsound b.toCore hidle'
    obtain rfl : next = next' := Option.some.inj (hsearch.symm.trans hsearch')
    refine .inl ⟨⟨?_, ?_, ?_, ?_, ?_, ?_⟩, ?_, ?_, hrep.nodup, hrep.disjoint⟩
    · simpa using hidle'
    · intro t ht
      simp only [Core.dispatch_frame, Core.dispatch_fields] at ht ⊢
      rw [hmagic, hwf.magic t (htable ▸ ht)]
    · simp only [Core.dispatch_frame, Core.dispatch_fields]
      rw [hmagic, hwf.magic next (htable ▸ hnext)]
    · intro f rest _ _
      simpa using hact.off hwf
    · simpa using hshape
    · simp [hnext]
    · intro l t ht
      simp only [Core.dispatch_frame, htable]
      exact (hact.queue_mem hwf ht).elim (hwf.member l t) fun h => h.2.2
    · simpa using hgate

theorem Step.member {search : Core τ ℓ → Option τ} (hstep : a.Step search op b) (hwf : a.WF)
    {l : ListPtr ℓ} {t : τ} (ht : t ∈ b.queue l) : some t ∈ b.task_table := by
  have hact' : ∀ {c : Sched τ ℓ} {calls}, a.Act op calls c → t ∈ c.queue l → some t ∈ c.task_table := by
    intro c calls hact ht
    rw [hact.frame.1]
    exact (hact.queue_mem hwf ht).elim (hwf.member l t) fun h => h.2.2
  cases hstep with
  | stay hact => exact hact' hact ht
  | switch hact hsearch => simpa using hact' hact ht

/-- What no step changes. -/
theorem Step.frame {search : Core τ ℓ → Option τ} (hstep : a.Step search op b) :
    b.task_table = a.task_table ∧ b.idel_task = a.idel_task := by
  cases hstep with
  | stay hact => exact ⟨hact.frame.1, hact.frame.2.1⟩
  | switch hact hsearch => simp [hact.frame]

/-- A step adds to the log. -/
theorem Step.log_suffix {search : Core τ ℓ → Option τ} (hstep : a.Step search op b) : a.log <:+ b.log := by
  cases hstep with
  | stay hact => exact hact.log_suffix
  | switch hact hsearch => exact hact.log_suffix.trans (by simp)

end Sched

end onix
