import Onix.Sched.Discipline

namespace onix

variable {τ ℓ : Type}

/-- The stacks at which a task can be preempted: the code of its thread, a statement of a spin lock
function the thread has called, or a failed assertion. -/
inductive Plain : List (Frame ℓ) → Prop where
  | thread : Plain []
  | spin_lock (l : ℓ) (point : SpinLockPoint) : Plain [.spin_lock l point]
  | spin_unlock (l : ℓ) (point : SpinUnlockPoint) : Plain [.spin_unlock l point]
  | spin (e : Failure) (rest : List (Frame ℓ)) : Plain (.spin e :: rest)

/-- The stacks of the tasks between operations. -/
inductive Shaped : List (Frame ℓ) → Prop where
  | plain {frames : List (Frame ℓ)} (hplain : Plain frames) : Shaped frames
  | interrupted (IF : Bool) {frames : List (Frame ℓ)} (hplain : Plain frames) : Shaped (.iret IF :: frames)
  | locking (m : ℓ) (intr : Bool) : Shaped [.mutex_lock m intr]
  | spin_locking (l : ℓ) (intr : Bool) : Shaped [.mutex_lock l intr, .spin_lock l .hold]
  | unlocking (intr : Bool) : Shaped [.mutex_unlock intr]

/-- Where the stack of a task in a list stands: in the loop of `mutex_lock`, or in a system call. -/
def Lodges : ListPtr ℓ → List (Frame ℓ) → Prop
  | .waiters m, .mutex_lock m' _ :: _ => m' = m
  | .sleep_list, .iret _ :: _ => True
  | .block_list, .iret _ :: _ => True
  | _, _ => False

namespace Shaped

variable {rest : List (Frame ℓ)} {l : ℓ}

/-- Under the frame of a spin lock function is the code of the thread. -/
theorem spin_lock_rest {point : SpinLockPoint} (h : Shaped (.spin_lock l point :: rest)) : rest = [] := by
  cases h with
  | plain hplain =>
    cases hplain with
    | spin_lock l point => rfl

theorem spin_unlock_rest {point : SpinUnlockPoint} (h : Shaped (.spin_unlock l point :: rest)) :
    rest = [] := by
  cases h with
  | plain hplain =>
    cases hplain with
    | spin_unlock l point => rfl

theorem mutex_unlock_rest {intr : Bool} (h : Shaped (.mutex_unlock intr :: rest)) : rest = [] := by
  cases h with
  | plain hplain => cases hplain
  | unlocking intr => rfl

theorem iret_rest {IF : Bool} (h : Shaped (.iret IF :: rest)) : Plain rest := by
  cases h with
  | plain hplain => cases hplain
  | interrupted IF hplain => exact hplain

theorem mutex_lock_not_plain {intr : Bool} : ¬ Plain (.mutex_lock l intr :: rest) := by
  intro h
  cases h

/-- `mutex_lock` was called by the thread or by `spin_lock`. -/
theorem mutex_lock_rest {intr : Bool} (h : Shaped (.mutex_lock l intr :: rest)) :
    rest = [] ∨ rest = [.spin_lock l .hold] := by
  cases h with
  | plain hplain => cases hplain
  | locking m intr => exact .inl rfl
  | spin_locking l intr => exact .inr rfl

/-- A stack without an atomic frame on top is plain. -/
theorem plain_of_top {frames : List (Frame ℓ)} (h : Shaped frames)
    (htop : ∀ f rest, frames = f :: rest → ¬ f.Atomic) : Plain frames := by
  cases h with
  | plain hplain => exact hplain
  | interrupted IF hplain => exact absurd trivial (htop _ _ rfl)
  | locking m intr => exact absurd trivial (htop _ _ rfl)
  | spin_locking l intr => exact absurd trivial (htop _ _ rfl)
  | unlocking intr => exact absurd trivial (htop _ _ rfl)

end Shaped

/-- How many statements `spin_unlock` has left at most, with the call of `mutex_unlock` in the last. -/
def SpinUnlockPoint.left : SpinUnlockPoint → Nat
  | .check_holder => 7
  | .test => 6
  | .drop => 1
  | .check_repeat => 5
  | .clear_holder => 4
  | .clear_repeat => 3
  | .release => 2

namespace Core

variable [DecidableEq τ] {c d : Core τ ℓ} {op : Op ℓ} {m : ℓ} {intr again : Bool}

/-- The stack with which a task is in the loop of `mutex_lock`. -/
theorem LockEntry.stack (hentry : c.LockEntry op m intr again d) (hshaped : Shaped (c.stack c.current)) :
    d.stack c.current = [] ∨ d.stack c.current = [.spin_lock m .hold] := by
  cases hentry with
  | call hthread => exact .inl hthread.1
  | spin hstack =>
    have hrest := (hstack ▸ hshaped).spin_lock_rest
    exact .inr (by simp [hstack, hrest])
  | retry hstack => exact (hstack ▸ hshaped).mutex_lock_rest.imp (by simp [hstack]) (by simp [hstack])

theorem UnlockEntry.stack (hentry : c.UnlockEntry op m intr d) (hshaped : Shaped (c.stack c.current)) :
    d.stack c.current = [] := by
  cases hentry with
  | call hthread => exact hthread.1
  | spin hstack =>
    have hrest := (hstack ▸ hshaped).spin_unlock_rest
    simp [hstack, hrest]

variable [DecidableEq ℓ]

/-- Behind a statement of a spin lock function the task is at a next one, has returned, or spins. -/
theorem spin_lock_stmt_stack (hstack : c.stack c.current = []) (l : ℓ) (point : SpinLockPoint) :
    (c.spin_lock_stmt l point).stack c.current = [] ∨
      (∃ next, (c.spin_lock_stmt l point).stack c.current = [.spin_lock l next]) ∨
      ∃ e, (c.spin_lock_stmt l point).stack c.current = [.spin e] := by
  cases point with
  | test =>
    by_cases hholder : (c.lock l).holder = some c.current
    · exact .inr (.inl ⟨.again, by simp [spin_lock_stmt, hstack, hholder]⟩)
    · exact .inr (.inl ⟨.acquire, by simp [spin_lock_stmt, hstack, hholder]⟩)
  | hold => exact .inr (.inl ⟨.check, by simp [spin_lock_stmt, hstack]⟩)
  | check =>
    by_cases hrepeat : (c.lock l).repeat = 0
    · exact .inr (.inl ⟨.set, by simp [spin_lock_stmt, hstack, hrepeat]⟩)
    · exact .inr (.inr ⟨.assertion .spin_lock_repeat, by simp [spin_lock_stmt, hstack, hrepeat]⟩)
  | _ => exact .inl (by simp [spin_lock_stmt, hstack])

theorem spin_unlock_stmt_stack (hstack : c.stack c.current = []) (l : ℓ) (point : SpinUnlockPoint) :
    (c.spin_unlock_stmt l point).stack c.current = [] ∨
      (∃ next, next.left < point.left ∧ (c.spin_unlock_stmt l point).stack c.current = [.spin_unlock l next]) ∨
      ∃ e, (c.spin_unlock_stmt l point).stack c.current = [.spin e] := by
  cases point with
  | check_holder =>
    by_cases hholder : (c.lock l).holder = some c.current
    · exact .inr (.inl ⟨.test, by decide, by simp [spin_unlock_stmt, hstack, hholder]⟩)
    · exact .inr (.inr ⟨.assertion .spin_unlock_holder, by simp [spin_unlock_stmt, hstack, hholder]⟩)
  | test =>
    by_cases hrepeat : (c.lock l).repeat > 1
    · exact .inr (.inl ⟨.drop, by decide, by simp [spin_unlock_stmt, hstack, hrepeat]⟩)
    · exact .inr (.inl ⟨.check_repeat, by decide, by simp [spin_unlock_stmt, hstack, hrepeat]⟩)
  | check_repeat =>
    by_cases hrepeat : (c.lock l).repeat = 1
    · exact .inr (.inl ⟨.clear_holder, by decide, by simp [spin_unlock_stmt, hstack, hrepeat]⟩)
    · exact .inr (.inr ⟨.assertion .spin_unlock_repeat, by simp [spin_unlock_stmt, hstack, hrepeat]⟩)
  | clear_holder => exact .inr (.inl ⟨.clear_repeat, by decide, by simp [spin_unlock_stmt, hstack]⟩)
  | clear_repeat => exact .inr (.inl ⟨.release, by decide, by simp [spin_unlock_stmt, hstack]⟩)
  | _ => exact .inl (by simp [spin_unlock_stmt, hstack])

/-- The statements of the spin lock functions leave the task preemptible. -/
theorem spin_lock_stmt_plain (hstack : c.stack c.current = []) (l : ℓ) (point : SpinLockPoint) :
    Plain ((c.spin_lock_stmt l point).stack c.current) := by
  rcases spin_lock_stmt_stack hstack l point with h | ⟨next, h⟩ | ⟨e, h⟩ <;> rw [h]
  · exact .thread
  · exact .spin_lock l next
  · exact .spin e []

theorem spin_unlock_stmt_plain (hstack : c.stack c.current = []) (l : ℓ) (point : SpinUnlockPoint) :
    Plain ((c.spin_unlock_stmt l point).stack c.current) := by
  rcases spin_unlock_stmt_stack hstack l point with h | ⟨next, -, h⟩ | ⟨e, h⟩ <;> rw [h]
  · exact .thread
  · exact .spin_unlock l next
  · exact .spin e []

/-- The statements of the spin lock functions outside of the mutexes do not touch them. -/
theorem spin_lock_stmt_mutex (c : Core τ ℓ) (l l' : ℓ) (point : SpinLockPoint) :
    ((c.spin_lock_stmt l point).lock l').mutex = (c.lock l').mutex := by
  cases point with
  | test => by_cases h : (c.lock l).holder = some c.current <;> simp [spin_lock_stmt, h]
  | check => by_cases h : (c.lock l).repeat = 0 <;> simp [spin_lock_stmt, h]
  | _ => by_cases hl : l' = l <;> simp [spin_lock_stmt, hl]

theorem spin_unlock_stmt_mutex (c : Core τ ℓ) (l l' : ℓ) (point : SpinUnlockPoint) :
    ((c.spin_unlock_stmt l point).lock l').mutex = (c.lock l').mutex := by
  cases point with
  | check_holder => by_cases h : (c.lock l).holder = some c.current <;> simp [spin_unlock_stmt, h]
  | test => by_cases h : (c.lock l).repeat > 1 <;> simp [spin_unlock_stmt, h]
  | check_repeat => by_cases h : (c.lock l).repeat = 1 <;> simp [spin_unlock_stmt, h]
  | _ => by_cases hl : l' = l <;> simp [spin_unlock_stmt, hl]

end Core

namespace Sched

variable [DecidableEq τ] [DecidableEq ℓ] {a b : Sched τ ℓ} {op : Op ℓ} {calls : Bool}

/-- An act leaves the stack of the running task in order. -/
theorem Act.shaped_current (hact : a.Act op calls b) (hwf : a.WF)
    (hshaped : Shaped (a.stack a.current)) : Shaped (b.stack a.current) := by
  have hclock : a.IF = true → Plain (a.stack a.current) := fun hIF =>
    hshaped.plain_of_top fun f rest hstack hatomic => by simp [hwf.intr f rest hstack hatomic] at hIF
  cases hact with
  | tick hIF hticks => simpa using Shaped.interrupted a.IF (hclock hIF)
  | expire hIF hticks => simpa using Shaped.interrupted a.IF (hclock hIF)
  | set_interrupt_state hstack hboot => exact hshaped
  | yield hthread => simpa [hthread.1] using Shaped.interrupted (ℓ := ℓ) a.IF .thread
  | sleep hthread hfree => simpa [hthread.1, Core.doze] using Shaped.interrupted (ℓ := ℓ) a.IF .thread
  | sleep_refused hthread hlinked => simpa using Shaped.plain (.spin _ _)
  | test_block hthread hgate hfree => simpa [hthread.1] using Shaped.interrupted (ℓ := ℓ) a.IF .thread
  | test_refused hthread hgate hlinked => simpa using Shaped.plain (.spin _ _)
  | test_wake hthread hgate => simpa [hthread.1] using Shaped.interrupted (ℓ := ℓ) a.IF .thread
  | @take _ m _ _ c hentry hvalue =>
    rcases hentry.stack hshaped with hstack | hstack
    · simpa [Core.take_mutex, hstack] using Shaped.plain (ℓ := ℓ) .thread
    · simpa [Core.take_mutex, hstack] using Shaped.plain (.spin_lock m .hold)
  | @wait _ m intr _ c hentry hvalue hfree =>
    rcases hentry.stack hshaped with hstack | hstack
    · simpa [Core.wait_mutex, hentry.frame, hstack] using Shaped.locking m intr
    · simpa [Core.wait_mutex, hentry.frame, hstack] using Shaped.spin_locking m intr
  | wait_refused hentry hvalue hlinked => simpa [hentry.frame] using Shaped.plain (.spin _ _)
  | release_refused hentry hvalue => simpa [hentry.frame] using Shaped.plain (.spin _ _)
  | release hentry hvalue hempty =>
    simpa [Core.free_mutex, hentry.stack hshaped] using Shaped.plain (ℓ := ℓ) .thread
  | @handoff _ m intr _ _ _ hentry hvalue hlast =>
    simpa [Core.free_mutex, hentry.frame, hentry.stack hshaped] using Shaped.unlocking (ℓ := ℓ) intr
  | iret hstack => simpa [hstack] using Shaped.plain (hstack ▸ hshaped).iret_rest
  | unlock_return hstack =>
    simpa [hstack, (hstack ▸ hshaped).mutex_unlock_rest] using Shaped.plain (ℓ := ℓ) .thread
  | @call_spin_lock l hthread => simpa [hthread.1] using Shaped.plain (.spin_lock l .test)
  | @call_spin_unlock l hthread => simpa [hthread.1] using Shaped.plain (.spin_unlock l .check_holder)
  | spin_lock hstack hpoint =>
    exact .plain (Core.spin_lock_stmt_plain (by simp [hstack, (hstack ▸ hshaped).spin_lock_rest]) _ _)
  | spin_unlock hstack hpoint =>
    exact .plain (Core.spin_unlock_stmt_plain (by simp [hstack, (hstack ▸ hshaped).spin_unlock_rest]) _ _)

theorem Act.shaped (hact : a.Act op calls b) (hwf : a.WF) (hshaped : ∀ t, Shaped (a.stack t)) (t : τ) :
    Shaped (b.stack t) := by
  by_cases ht : t = a.current
  · rw [ht]
    exact hact.shaped_current hwf (hshaped _)
  · rw [hact.stack_of_ne ht]
    exact hshaped t

/-- A task that gets into a list in an act has the stack that fits. -/
theorem Act.lodges (hact : a.Act op calls b) (hwf : a.WF) {l : ListPtr ℓ} {t : τ}
    (hlodges : ∀ l t, t ∈ a.queue l → Lodges l (a.stack t))
    (hfree : some a.current ∈ a.task_table → a.Free a.current) (ht : t ∈ b.queue l) :
    Lodges l (b.stack t) := by
  rcases hact.queue_mem hwf ht with hmem | ⟨rfl, hout, -⟩
  · have hne : t ≠ a.current := by
      rintro rfl
      exact hfree (hwf.member _ _ hmem) l hmem
    rw [hact.stack_of_ne hne]
    exact hlodges l t hmem
  · -- the running task has entered the one list that the act changes
    have henter : ∀ {l' ts}, b.queue = Function.update a.queue l' ts → l = l' := by
      intro l' ts hqueue
      by_contra hne
      rw [hqueue, Function.update_of_ne hne] at ht
      exact hout l ht
    cases hact with
    | tick hIF hticks =>
      obtain rfl := henter rfl
      exact absurd (asleep_subset a (by simpa using ht)) (hout _)
    | expire hIF hticks =>
      obtain rfl := henter rfl
      exact absurd (asleep_subset a (by simpa using ht)) (hout _)
    | sleep hthread hfree' =>
      obtain rfl := henter rfl
      simp [Core.doze, Lodges]
    | test_block hthread hgate hfree' =>
      obtain rfl := henter rfl
      simp [Lodges]
    | test_wake hthread hgate =>
      obtain rfl := henter rfl
      exact absurd (List.mem_of_mem_erase (by simpa using ht)) (hout _)
    | @wait _ m _ _ _ hentry hvalue hfree' =>
      obtain rfl := henter rfl
      simp [Core.wait_mutex, hentry.frame, Lodges]
    | @handoff _ m _ _ waiters u hentry hvalue hlast =>
      obtain rfl := henter rfl
      exact absurd (by simpa [hlast] using Or.inl ht) (hout (.waiters m))
    | _ => exact absurd ht (hout l)

/-- Only a task that has found its mutex held, and waits for it, goes on in the loop of `mutex_lock`
later. -/
theorem Act.enters (hact : a.Act op calls b) (hshaped : Shaped (a.stack a.current)) {m : ℓ} {intr : Bool}
    {rest : List (Frame ℓ)} (hstack : b.stack a.current = .mutex_lock m intr :: rest) :
    a.current ∈ b.queue (.waiters m) ∧ calls = true ∧
      ∃ again c, a.LockEntry op m intr again c ∧ rest = c.stack a.current := by
  cases hact with
  | tick hIF hticks => simp at hstack
  | expire hIF hticks => simp at hstack
  | set_interrupt_state hnil hboot => simp [hnil] at hstack
  | sleep hthread hfree => simp [Core.doze] at hstack
  | take hentry hvalue =>
    rcases hentry.stack hshaped with hrest | hrest <;> simp [Core.take_mutex, hrest] at hstack
  | wait hentry hvalue hfree =>
    simp only [Core.wait_mutex, Core.set_state_frame, Core.push_frame_stack, Core.emit_frame, hentry.frame,
      Function.update_self, List.cons.injEq, Frame.mutex_lock.injEq] at hstack
    obtain ⟨⟨rfl, rfl⟩, rfl⟩ := hstack
    exact ⟨by simp, rfl, _, _, hentry, rfl⟩
  | wait_refused hentry hvalue hlinked => simp [hentry.frame] at hstack
  | release_refused hentry hvalue => simp [hentry.frame] at hstack
  | release hentry hvalue hempty => simp [Core.free_mutex, hentry.stack hshaped] at hstack
  | handoff hentry hvalue hlast => simp [Core.free_mutex, hentry.frame] at hstack
  | iret hiret =>
    simp only [Core.set_IF_frame, Core.pop_frame_stack, hiret, Function.update_self, List.tail_cons] at hstack
    exact absurd (hstack ▸ (hiret ▸ hshaped).iret_rest) Shaped.mutex_lock_not_plain
  | unlock_return hunlock =>
    simp [hunlock, (hunlock ▸ hshaped).mutex_unlock_rest] at hstack
  | @spin_lock l point _ hspin hpoint =>
    have hplain := Core.spin_lock_stmt_plain (c := a.pop_frame)
      (by simp [hspin, (hspin ▸ hshaped).spin_lock_rest]) l point
    exact absurd (hstack ▸ hplain) Shaped.mutex_lock_not_plain
  | @spin_unlock l point _ hspin hpoint =>
    have hplain := Core.spin_unlock_stmt_plain (c := a.pop_frame)
      (by simp [hspin, (hspin ▸ hshaped).spin_unlock_rest]) l point
    exact absurd (hstack ▸ hplain) Shaped.mutex_lock_not_plain
  | _ => simp at hstack

/-- Between operations every stack is in order and the stack of a task in a list fits the list. -/
structure Framed (a : Sched τ ℓ) : Prop where
  shaped : ∀ t, Shaped (a.stack t)
  lodges : ∀ l t, t ∈ a.queue l → Lodges l (a.stack t)

omit [DecidableEq τ] [DecidableEq ℓ] in
theorem Regular.free (h : a.Regular) (hmem : some a.current ∈ a.task_table) : a.Free a.current :=
  h.agrees.free hmem id

theorem Step.framed {search : Core τ ℓ → Option τ} (hstep : a.Step search op b) (hwf : a.WF)
    (hregular : a.Regular) (h : a.Framed) : b.Framed := by
  cases hstep with
  | stay hact =>
    exact ⟨hact.shaped hwf h.shaped, fun l t ht => hact.lodges hwf h.lodges hregular.free ht⟩
  | switch hact hsearch =>
    refine ⟨fun t => ?_, fun l t ht => ?_⟩
    · simpa using hact.shaped hwf h.shaped t
    · simpa using hact.lodges hwf h.lodges hregular.free ht

omit [DecidableEq τ] [DecidableEq ℓ] in
theorem Booted.framed {idle : τ} {tasks : List (τ × u32)} (h : a.Booted idle tasks) : a.Framed :=
  ⟨fun t => by rw [h.stack]; exact .plain .thread, fun l t ht => by simp [h.queue] at ht⟩

end Sched

end onix
