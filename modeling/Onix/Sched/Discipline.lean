import Onix.Sched.Reach
import Onix.Sched.Search

namespace onix

variable {τ ℓ : Type}

/-- What the code of `idle_thread` does: it enables interrupts and yields. -/
def IdleOp : Op ℓ → Prop
  | .clock => True
  | .resume => True
  | .call .yield => True
  | .call (.set_interrupt_state true) => True
  | _ => False

variable [DecidableEq τ]

/-- Any scheduler that dispatches schedulable tasks, and an idle task that only yields. -/
structure Disciplined (c : Core τ ℓ) (search : Core τ ℓ → Option τ) (op : Op ℓ) : Prop where
  sound : Sound search
  picks : Picks search
  idle : c.idel_task = some c.current → IdleOp op

/-- The kernel runs with its own search; its tasks may do anything. -/
def Unrestricted (_ : Core τ ℓ) (search : Core τ ℓ → Option τ) (_ : Op ℓ) : Prop :=
  search = task_search .TASK_READY

/-- The scheduler of the kernel, and an idle task that only yields. -/
structure Shipped (c : Core τ ℓ) (search : Core τ ℓ → Option τ) (op : Op ℓ) : Prop where
  search_eq : search = task_search .TASK_READY
  idle : c.idel_task = some c.current → IdleOp op

theorem Shipped.disciplined {c : Core τ ℓ} {search : Core τ ℓ → Option τ} {op : Op ℓ}
    (h : Shipped c search op) : Disciplined c search op :=
  ⟨h.search_eq ▸ task_search_sound, h.search_eq ▸ task_search_picks, h.idle⟩

/-- The asserts a task can fail by misusing a lock: releasing what it does not hold. -/
def Misuse (e : Failure) : Prop :=
  e = .assertion .mutex_unlock_held ∨ e = .assertion .spin_lock_repeat ∨
    e = .assertion .spin_unlock_holder ∨ e = .assertion .spin_unlock_repeat

/-- The asserts a task can fail by giving up the CPU for a list while it is in one. -/
def Refused (e : Failure) : Prop := e = .assertion .task_sleep_next ∨ e = .assertion .task_block_next

namespace Sched

/-- The idle task is in no list, and it is interrupted in no kernel code. -/
structure Quiet (a : Sched τ ℓ) (idle : τ) : Prop where
  free : a.Free idle
  frames : ∀ f ∈ a.stack idle, ∃ IF, f = .iret IF

/-- What holds between operations while the idle task only yields. -/
structure Regular (a : Sched τ ℓ) : Prop where
  agrees : a.Agrees fun _ => False
  member : ∀ l t, t ∈ a.queue l → some t ∈ a.task_table
  gate : a.queue .block_list = a.gate_task.toList
  quiet : ∀ idle, a.idel_task = some idle → a.Quiet idle
  spins : ∀ t e, Frame.spin e ∈ a.stack t → Misuse e

end Sched

namespace Core

variable {c d : Core τ ℓ} {op : Op ℓ} {m : ℓ} {intr again : Bool} {t : τ}

theorem LockEntry.stack_of_ne (hentry : c.LockEntry op m intr again d) (ht : t ≠ c.current) :
    d.stack t = c.stack t := by
  cases hentry <;> simp [ht]

theorem UnlockEntry.stack_of_ne (hentry : c.UnlockEntry op m intr d) (ht : t ≠ c.current) :
    d.stack t = c.stack t := by
  cases hentry <;> simp [ht]

theorem LockEntry.spin_mem (hentry : c.LockEntry op m intr again d) {e : Failure}
    (he : Frame.spin e ∈ d.stack c.current) : Frame.spin e ∈ c.stack c.current := by
  cases hentry with
  | call hthread => exact he
  | spin hstack => exact List.mem_of_mem_tail (by simpa using he)
  | retry hstack => exact List.mem_of_mem_tail (by simpa using he)

theorem UnlockEntry.spin_mem (hentry : c.UnlockEntry op m intr d) {e : Failure}
    (he : Frame.spin e ∈ d.stack c.current) : Frame.spin e ∈ c.stack c.current := by
  cases hentry with
  | call hthread => exact he
  | spin hstack => exact List.mem_of_mem_tail (by simpa using he)

/-- The idle task never gets into `mutex_lock`. -/
theorem LockEntry.not_idle (hentry : c.LockEntry op m intr again d) (hop : IdleOp op)
    (hframes : ∀ f ∈ c.stack c.current, ∃ IF, f = .iret IF) : False := by
  cases hentry with
  | call hthread => exact hop
  | spin hstack => simp [hstack] at hframes
  | retry hstack => simp [hstack] at hframes

theorem UnlockEntry.not_idle (hentry : c.UnlockEntry op m intr d) (hop : IdleOp op)
    (hframes : ∀ f ∈ c.stack c.current, ∃ IF, f = .iret IF) : False := by
  cases hentry with
  | call hthread => exact hop
  | spin hstack => simp [hstack] at hframes

variable [DecidableEq ℓ]

theorem spin_lock_stmt_stack_of_ne (l : ℓ) (point : SpinLockPoint) (ht : t ≠ c.current) :
    (c.spin_lock_stmt l point).stack t = c.stack t := by
  cases point with
  | test => by_cases h : (c.lock l).holder = some c.current <;> simp [spin_lock_stmt, h, ht]
  | check => by_cases h : (c.lock l).repeat = 0 <;> simp [spin_lock_stmt, h, ht]
  | _ => simp [spin_lock_stmt, ht]

theorem spin_unlock_stmt_stack_of_ne (l : ℓ) (point : SpinUnlockPoint) (ht : t ≠ c.current) :
    (c.spin_unlock_stmt l point).stack t = c.stack t := by
  cases point with
  | check_holder => by_cases h : (c.lock l).holder = some c.current <;> simp [spin_unlock_stmt, h, ht]
  | test => by_cases h : (c.lock l).repeat > 1 <;> simp [spin_unlock_stmt, h, ht]
  | check_repeat => by_cases h : (c.lock l).repeat = 1 <;> simp [spin_unlock_stmt, h, ht]
  | _ => simp [spin_unlock_stmt, ht]

theorem spin_lock_stmt_spin_mem {l : ℓ} {point : SpinLockPoint} {e : Failure}
    (he : Frame.spin e ∈ (c.spin_lock_stmt l point).stack c.current) :
    Frame.spin e ∈ c.stack c.current ∨ Misuse e := by
  cases point with
  | test => by_cases h : (c.lock l).holder = some c.current <;> simp_all [spin_lock_stmt]
  | check => by_cases h : (c.lock l).repeat = 0 <;> simp_all [spin_lock_stmt, Misuse]; tauto
  | _ => simp_all [spin_lock_stmt]

theorem spin_unlock_stmt_spin_mem {l : ℓ} {point : SpinUnlockPoint} {e : Failure}
    (he : Frame.spin e ∈ (c.spin_unlock_stmt l point).stack c.current) :
    Frame.spin e ∈ c.stack c.current ∨ Misuse e := by
  cases point with
  | check_holder =>
    by_cases h : (c.lock l).holder = some c.current <;> simp_all [spin_unlock_stmt, Misuse]; tauto
  | test => by_cases h : (c.lock l).repeat > 1 <;> simp_all [spin_unlock_stmt]
  | check_repeat =>
    by_cases h : (c.lock l).repeat = 1 <;> simp_all [spin_unlock_stmt, Misuse]; tauto
  | _ => simp_all [spin_unlock_stmt]

end Core

namespace Sched

variable [DecidableEq ℓ] {a b : Sched τ ℓ} {op : Op ℓ} {calls : Bool}

/-- The stacks of the other tasks do not change in an act. -/
theorem Act.stack_of_ne (hact : a.Act op calls b) {t : τ} (ht : t ≠ a.current) :
    b.stack t = a.stack t := by
  cases hact with
  | tick hIF hticks => simp [ht]
  | expire hIF hticks => simp [ht]
  | take hentry hvalue => simp [Core.take_mutex, hentry.stack_of_ne ht]
  | wait hentry hvalue hfree => simp [Core.wait_mutex, hentry.frame, ht, hentry.stack_of_ne ht]
  | wait_refused hentry hvalue hlinked => simp [hentry.frame, ht, hentry.stack_of_ne ht]
  | release_refused hentry hvalue => simp [hentry.frame, ht, hentry.stack_of_ne ht]
  | release hentry hvalue hempty => simp [Core.free_mutex, hentry.stack_of_ne ht]
  | handoff hentry hvalue hlast => simp [Core.free_mutex, hentry.frame, ht, hentry.stack_of_ne ht]
  | spin_lock hstack hpoint => rw [Core.spin_lock_stmt_stack_of_ne _ _ (by simpa using ht)]; simp [ht]
  | spin_unlock hstack hpoint => rw [Core.spin_unlock_stmt_stack_of_ne _ _ (by simpa using ht)]; simp [ht]
  | _ => simp [Core.doze, ht]

/-- A task that spins behind an act did so before, or misused a lock, or was refused for being in
a list. -/
theorem Act.spins (hact : a.Act op calls b) (hwf : a.WF) {t : τ} {e : Failure}
    (he : Frame.spin e ∈ b.stack t) :
    Frame.spin e ∈ a.stack t ∨ Misuse e ∨
      Refused e ∧ some a.current ∈ a.task_table ∧ ¬ a.Free a.current := by
  by_cases ht : t = a.current
  · subst ht
    cases hact with
    | tick hIF hticks => exact .inl (by simpa using he)
    | expire hIF hticks => exact .inl (by simpa using he)
    | sleep_refused hthread hlinked =>
      obtain rfl | he : e = .assertion .task_sleep_next ∨ Frame.spin e ∈ a.stack a.current := by simpa using he
      · exact .inr (.inr ⟨.inl rfl, hthread.2, hlinked⟩)
      · exact .inl he
    | test_refused hthread hgate hlinked =>
      obtain rfl | he : e = .assertion .task_block_next ∨ Frame.spin e ∈ a.stack a.current := by simpa using he
      · exact .inr (.inr ⟨.inr rfl, hthread.2, hlinked⟩)
      · exact .inl he
    | take hentry hvalue => exact .inl (hentry.spin_mem (by simpa [Core.take_mutex] using he))
    | wait hentry hvalue hfree =>
      exact .inl (hentry.spin_mem (by simpa [Core.wait_mutex, hentry.frame] using he))
    | wait_refused hentry hvalue hlinked =>
      simp only [Core.fail_frame, Core.push_frame_frame, Core.push_frame_stack, Core.emit_frame, hentry.frame,
        Function.update_self, List.mem_cons, Frame.spin.injEq, reduceCtorEq, false_or] at he
      obtain rfl | he := he
      · exact .inr (.inr ⟨.inr rfl, (hentry.enabled hwf.toWF).1, hlinked⟩)
      · exact .inl (hentry.spin_mem he)
    | release_refused hentry hvalue =>
      simp only [Core.fail_frame, hentry.frame, Function.update_self, List.mem_cons,
        Frame.spin.injEq] at he
      rcases he with rfl | he
      · exact .inr (.inl (.inl rfl))
      · exact .inl (hentry.spin_mem he)
    | release hentry hvalue hempty =>
      exact .inl (hentry.spin_mem (by simpa [Core.free_mutex] using he))
    | handoff hentry hvalue hlast =>
      exact .inl (hentry.spin_mem (by simpa [Core.free_mutex, hentry.frame] using he))
    | iret hstack => exact .inl (List.mem_of_mem_tail (by simpa using he))
    | unlock_return hstack => exact .inl (List.mem_of_mem_tail (by simpa using he))
    | spin_lock hstack hpoint =>
      rcases Core.spin_lock_stmt_spin_mem (c := a.pop_frame) he with he | he
      · exact .inl (List.mem_of_mem_tail (by simpa using he))
      · exact .inr (.inl he)
    | spin_unlock hstack hpoint =>
      rcases Core.spin_unlock_stmt_spin_mem (c := a.pop_frame) he with he | he
      · exact .inl (List.mem_of_mem_tail (by simpa using he))
      · exact .inr (.inl he)
    | test_wake hthread hgate => exact .inl (by simpa using he)
    | test_block hthread hgate hfree => exact .inl (by simpa using he)
    | sleep hthread hfree => exact .inl (by simpa [Core.doze] using he)
    | yield hthread => exact .inl (by simpa using he)
    | set_interrupt_state hstack hboot => exact .inl (by simpa using he)
    | call_spin_lock hthread => exact .inl (by simpa using he)
    | call_spin_unlock hthread => exact .inl (by simpa using he)
  · rw [hact.stack_of_ne ht] at he
    exact .inl he

/-- While the running task is the idle task, an act puts no task into a list. -/
theorem Act.quiet_current (hact : a.Act op calls b) (hop : IdleOp op) (hquiet : a.Quiet a.current) :
    b.Quiet a.current := by
  have hframe : ∀ {f rest}, a.stack a.current = f :: rest → ∃ IF, f = .iret IF :=
    fun hstack => hquiet.frames _ (by simp [hstack])
  have hclock : ∀ l, a.current ∉ a.clock.queue l := fun l hl => by
    by_cases h : l = .sleep_list
    · subst h
      exact hquiet.free .sleep_list (asleep_subset a (by simpa using hl))
    · exact hquiet.free l (by simpa [h] using hl)
  cases hact with
  | tick hIF hticks => exact ⟨hclock, by simpa using hquiet.frames⟩
  | expire hIF hticks => exact ⟨hclock, by simpa using hquiet.frames⟩
  | set_interrupt_state hstack hboot => exact ⟨hquiet.free, hquiet.frames⟩
  | yield hthread => exact ⟨hquiet.free, by simpa using hquiet.frames⟩
  | iret hstack =>
    exact ⟨hquiet.free, fun f hf => hquiet.frames f (List.mem_of_mem_tail (by simpa using hf))⟩
  | take hentry hvalue => exact (hentry.not_idle hop hquiet.frames).elim
  | wait hentry hvalue hfree => exact (hentry.not_idle hop hquiet.frames).elim
  | wait_refused hentry hvalue hlinked => exact (hentry.not_idle hop hquiet.frames).elim
  | release_refused hentry hvalue => exact (hentry.not_idle hop hquiet.frames).elim
  | release hentry hvalue hempty => exact (hentry.not_idle hop hquiet.frames).elim
  | handoff hentry hvalue hlast => exact (hentry.not_idle hop hquiet.frames).elim
  | unlock_return hstack => exact absurd (hframe hstack) (by simp)
  | spin_lock hstack hpoint => exact absurd (hframe hstack) (by simp)
  | spin_unlock hstack hpoint => exact absurd (hframe hstack) (by simp)
  | _ => exact hop.elim

/-- The idle task stays out of all lists. -/
theorem Act.quiet (hact : a.Act op calls b) (hwf : a.WF) {idle : τ}
    (hop : idle = a.current → IdleOp op) (hquiet : a.Quiet idle) : b.Quiet idle := by
  by_cases hidle : idle = a.current
  · subst hidle
    exact hact.quiet_current (hop rfl) hquiet
  · refine ⟨fun l hl => ?_, by rw [hact.stack_of_ne hidle]; exact hquiet.frames⟩
    rcases hact.queue_mem hwf hl with hmem | ⟨heq, -, -⟩
    · exact hquiet.free l hmem
    · exact hidle heq

omit [DecidableEq τ] [DecidableEq ℓ] in
/-- A task in no list whose state fits is schedulable. -/
theorem Settled.schedulable {t : τ} (hsettled : a.Settled fun _ => False)
    (hmem : some t ∈ a.task_table) (hfree : a.Free t) : a.Schedulable t := by
  obtain ⟨hfits, hrunning⟩ := hsettled t hmem id
  refine ⟨hmem, ?_⟩
  cases hstate : (a.task t).state with
  | TASK_READY => exact .inl rfl
  | TASK_RUNNING => exact .inr ⟨hrunning hstate, rfl⟩
  | TASK_SLEEPING => exact absurd (hfits.mem_sleep_list hstate) (hfree .sleep_list)
  | TASK_BLOCKED =>
    obtain ⟨l, -, hl⟩ := hfits.mem_blocks hstate
    exact absurd hl (hfree l)
  | _ => simp [Fits, hstate] at hfits

/-- A disciplined step finds a schedulable task to dispatch. -/
theorem Act.schedulable {search : Core τ ℓ → Option τ} (hact : a.Act op calls b) (hwf : a.WF)
    (hallowed : Disciplined a.toCore search op) (hregular : a.Regular) {next : τ}
    (hsearch : search b.toCore = some next) : b.Schedulable next := by
  obtain ⟨htable, hidle, -, -, -⟩ := hact.frame
  obtain ⟨idle, hsome, hmem⟩ := hwf.idle
  have hquiet := hact.quiet hwf (fun heq => hallowed.idle (heq ▸ hsome)) (hregular.quiet idle hsome)
  refine hallowed.picks b.toCore ⟨idle, by rw [hidle, hsome], ?_⟩ next hsearch
  exact (hact.settled hwf hregular.agrees).schedulable (by rw [htable]; exact hmem) hquiet.free

/-- The abstract kernel stays regular under a disciplined step. -/
theorem Step.regular {search : Core τ ℓ → Option τ} (hstep : a.Step search op b) (hwf : a.WF)
    (hallowed : Disciplined a.toCore search op) (hregular : a.Regular) : b.Regular := by
  have hspins : ∀ {c : Sched τ ℓ} {calls}, a.Act op calls c → ∀ t e, Frame.spin e ∈ c.stack t →
      Misuse e := by
    intro c calls hact t e he
    rcases hact.spins hwf he with he | hmisuse | ⟨-, hmem, hlinked⟩
    · exact hregular.spins t e he
    · exact hmisuse
    · exact absurd (hregular.agrees.free hmem id) hlinked
  have hquiet : ∀ {c : Sched τ ℓ} {calls}, a.Act op calls c → ∀ idle, c.idel_task = some idle →
      c.Quiet idle := by
    intro c calls hact idle hsome
    rw [hact.frame.2.1] at hsome
    exact hact.quiet hwf (fun heq => hallowed.idle (heq ▸ hsome)) (hregular.quiet idle hsome)
  have hmember : ∀ {c : Sched τ ℓ} {calls}, a.Act op calls c → ∀ l t, t ∈ c.queue l →
      some t ∈ a.task_table := by
    intro c calls hact l t ht
    exact (hact.queue_mem hwf ht).elim (hwf.member l t) fun h => h.2.2
  have hgate : ∀ {c : Sched τ ℓ} {calls}, a.Act op calls c →
      c.queue .block_list = c.gate_task.toList := fun hact =>
    (hact.gate hwf).resolve_right fun h => h.1.2 (hregular.agrees.free h.1.1 id)
  cases hstep with
  | stay hact =>
    exact ⟨hact.agrees hwf hregular.agrees, by rw [hact.frame.1]; exact hmember hact, hgate hact,
      hquiet hact, hspins hact⟩
  | switch hact hsearch =>
    refine ⟨(hact.settled hwf hregular.agrees).dispatch fun _ =>
      hact.schedulable hwf hallowed hregular hsearch, ?_, ?_, fun idle hsome => ?_, ?_⟩
    · simpa [hact.frame.1] using hmember hact
    · simpa using hgate hact
    · simp only [Core.dispatch_frame] at hsome
      obtain ⟨hfree, hframes⟩ := hquiet hact idle hsome
      exact ⟨hfree, by simpa using hframes⟩
    · simpa using hspins hact

omit [DecidableEq τ] [DecidableEq ℓ] in
theorem Booted.regular {idle : τ} {tasks : List (τ × u32)} (h : a.Booted idle tasks) : a.Regular := by
  have hfree : ∀ t, a.Free t := fun t l => by simp [h.queue l]
  refine ⟨⟨fun t ht _ => ?_, fun hmem _ => absurd hmem h.current⟩, fun l t ht => (hfree t l ht).elim,
    by simp [h.queue, h.gate_task], fun t _ => ⟨hfree t, ?_⟩, ?_⟩
  · obtain ⟨priority, hpriority⟩ := (h.mem t).mp ht
    have hstate : (a.task t).state = .TASK_READY := by rw [h.task t priority hpriority]; rfl
    exact ⟨by rw [Fits, hstate]; exact hfree t, fun hrunning => by simp [hstate] at hrunning⟩
  · simp [h.stack]
  · simp [h.stack]

end Sched

end onix
