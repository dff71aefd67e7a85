import Onix.Sched.Shipped

namespace onix

variable {τ ℓ : Type}

/-- The asserts that interrupts are off. -/
def IntrAssert (e : Failure) : Prop :=
  e = .assertion .schedule_intr ∨ e = .assertion .task_search_intr ∨ e = .assertion .task_block_intr ∨
    e = .assertion .task_unblock_intr ∨ e = .assertion .task_sleep_intr ∨ e = .assertion .task_wakeup_intr

namespace Core

/-- The running task is about to call `mutex_lock` or `mutex_unlock`, in the code of its thread or in a
spin lock function, and `ret` is its stack when the call has returned. -/
inductive MutexCall (c : Core τ ℓ) : Op ℓ → List (Frame ℓ) → Prop where
  | lock {m : ℓ} (hstack : c.stack c.current = []) : MutexCall c (.call (.mutex_lock m)) []
  | unlock {m : ℓ} (hstack : c.stack c.current = []) : MutexCall c (.call (.mutex_unlock m)) []
  | spin_lock {l : ℓ} {rest : List (Frame ℓ)} (hstack : c.stack c.current = .spin_lock l .acquire :: rest) :
      MutexCall c .resume (.spin_lock l .hold :: rest)
  | spin_unlock {l : ℓ} {rest : List (Frame ℓ)} (hstack : c.stack c.current = .spin_unlock l .release :: rest) :
      MutexCall c .resume rest

/-- The task is in a call that it has entered with this interrupt flag. -/
def Pending (c : Core τ ℓ) (t : τ) (IF : Bool) (ret : List (Frame ℓ)) : Prop :=
  (∃ m, c.stack t = .mutex_lock m IF :: ret) ∨ c.stack t = .mutex_unlock IF :: ret

/-- The call has just returned to the task. -/
structure Returned (c : Core τ ℓ) (t : τ) (IF : Bool) (ret : List (Frame ℓ)) : Prop where
  stack : c.stack t = ret
  current : c.current = t
  IF : c.IF = IF

/-- The call has failed an assertion for good. -/
structure Failed (c : Core τ ℓ) (t : τ) (ret : List (Frame ℓ)) : Prop where
  stuck : c.Stuck
  stack : c.stack t ≠ ret

variable [DecidableEq τ] {c d : Core τ ℓ} {op : Op ℓ} {ret : List (Frame ℓ)} {m : ℓ} {intr again : Bool}

/-- A call of `mutex_lock` keeps the interrupt flag it was entered with. -/
theorem MutexCall.lock_entry (hcall : c.MutexCall op ret) (hentry : c.LockEntry op m intr again d) :
    d.stack c.current = ret ∧ intr = c.IF := by
  cases hentry with
  | call hthread =>
    cases hcall with
    | lock hstack => exact ⟨hstack, rfl⟩
  | spin hstack =>
    cases hcall with
    | spin_lock hstack' =>
      rw [hstack] at hstack'
      cases hstack'
      simp [hstack]
    | spin_unlock hstack' =>
      rw [hstack] at hstack'
      cases hstack'
  | retry hstack =>
    cases hcall with
    | spin_lock hstack' =>
      rw [hstack] at hstack'
      cases hstack'
    | spin_unlock hstack' =>
      rw [hstack] at hstack'
      cases hstack'

omit [DecidableEq τ] in
/-- A task that goes on into a mutex function is at one of two points of the spin lock functions. -/
theorem MutexCall.top (hcall : c.MutexCall .resume ret) {f : Frame ℓ} {rest : List (Frame ℓ)}
    (hstack : c.stack c.current = f :: rest) :
    ∃ l, f = .spin_lock l .acquire ∨ f = .spin_unlock l .release := by
  cases hcall with
  | spin_lock hstack' =>
    rw [hstack] at hstack'
    exact ⟨_, .inl (List.cons.inj hstack').1⟩
  | spin_unlock hstack' =>
    rw [hstack] at hstack'
    exact ⟨_, .inr (List.cons.inj hstack').1⟩

theorem MutexCall.unlock_entry (hcall : c.MutexCall op ret) (hentry : c.UnlockEntry op m intr d) :
    d.stack c.current = ret ∧ intr = c.IF := by
  cases hentry with
  | call hthread =>
    cases hcall with
    | unlock hstack => exact ⟨hstack, rfl⟩
  | spin hstack =>
    cases hcall with
    | spin_lock hstack' =>
      rw [hstack] at hstack'
      cases hstack'
    | spin_unlock hstack' =>
      rw [hstack] at hstack'
      cases hstack'
      simp [hstack]

end Core

namespace Sched

variable [DecidableEq τ] [DecidableEq ℓ] {a b : Sched τ ℓ} {op : Op ℓ} {calls : Bool} {ret : List (Frame ℓ)}

/-- What becomes of a call in its first act. -/
theorem Act.enters_call (hact : a.Act op calls b) (hwf : a.WF) (hcall : a.MutexCall op ret) :
    b.Pending a.current a.IF ret ∨ calls = false ∧ (b.Returned a.current a.IF ret ∨ b.Failed a.current ret) := by
  cases hact with
  | take hentry hvalue =>
    obtain ⟨hstack, rfl⟩ := hcall.lock_entry hentry
    exact .inr ⟨rfl, .inl ⟨by simpa [Core.take_mutex] using hstack, by simp [Core.take_mutex, hentry.frame],
      by simp [Core.take_mutex]⟩⟩
  | @wait op m intr again c hentry hvalue hfree =>
    obtain ⟨hstack, rfl⟩ := hcall.lock_entry hentry
    exact .inl (.inl ⟨m, by simp [Core.wait_mutex, hentry.frame, hstack]⟩)
  | wait_refused hentry hvalue hlinked =>
    obtain ⟨hstack, rfl⟩ := hcall.lock_entry hentry
    refine .inr ⟨rfl, .inr ⟨Core.stuck_fail _ (by simpa using (hentry.enabled hwf.toWF).2), fun hret => ?_⟩⟩
    simp only [Core.fail_frame, Core.push_frame_frame, Core.push_frame_stack, Core.emit_frame, hentry.frame,
      Function.update_self, hstack] at hret
    exact absurd (congrArg List.length hret) (by simp only [List.length_cons]; omega)
  | release_refused hentry hvalue =>
    obtain ⟨hstack, rfl⟩ := hcall.unlock_entry hentry
    refine .inr ⟨rfl, .inr ⟨Core.stuck_fail _ hentry.frame.2.2.2.2.2.2.2, fun hret => ?_⟩⟩
    simp [hentry.frame, hstack] at hret
  | release hentry hvalue hempty =>
    obtain ⟨hstack, rfl⟩ := hcall.unlock_entry hentry
    exact .inr ⟨rfl, .inl ⟨by simpa [Core.free_mutex] using hstack, by simp [Core.free_mutex, hentry.frame],
      by simp⟩⟩
  | handoff hentry hvalue hlast =>
    obtain ⟨hstack, rfl⟩ := hcall.unlock_entry hentry
    exact .inl (.inr (by simp [Core.free_mutex, hentry.frame, hstack]))
  | tick hIF hticks => cases hcall
  | expire hIF hticks => cases hcall
  | set_interrupt_state hstack hboot => cases hcall
  | yield hthread => cases hcall
  | sleep hthread hfree => cases hcall
  | sleep_refused hthread hlinked => cases hcall
  | test_block hthread hgate hfree => cases hcall
  | test_refused hthread hgate hlinked => cases hcall
  | test_wake hthread hgate => cases hcall
  | call_spin_lock hthread => cases hcall
  | call_spin_unlock hthread => cases hcall
  | iret hstack =>
    obtain ⟨l, heq | heq⟩ := hcall.top hstack <;> cases heq
  | unlock_return hstack =>
    obtain ⟨l, heq | heq⟩ := hcall.top hstack <;> cases heq
  | spin_lock hstack hpoint =>
    obtain ⟨l, heq | heq⟩ := hcall.top hstack <;> cases heq
    exact absurd rfl hpoint
  | spin_unlock hstack hpoint =>
    obtain ⟨l, heq | heq⟩ := hcall.top hstack <;> cases heq
    exact absurd rfl hpoint

end Sched

namespace Core

variable [DecidableEq τ] {c d : Core τ ℓ} {op : Op ℓ} {ret : List (Frame ℓ)} {m : ℓ} {intr again IF : Bool}

omit [DecidableEq τ] in
theorem Pending.ne_nil {t : τ} (hpending : c.Pending t IF ret) : c.stack t ≠ [] := by
  obtain ⟨m, hstack⟩ | hstack := hpending <;> simp [hstack]

omit [DecidableEq τ] in
theorem Pending.top {t : τ} (hpending : c.Pending t IF ret) {f : Frame ℓ} {rest : List (Frame ℓ)}
    (hstack : c.stack t = f :: rest) : rest = ret ∧ ((∃ m, f = .mutex_lock m IF) ∨ f = .mutex_unlock IF) := by
  obtain ⟨m, hstack'⟩ | hstack' := hpending
  · rw [hstack] at hstack'
    cases hstack'
    exact ⟨rfl, .inl ⟨m, rfl⟩⟩
  · rw [hstack] at hstack'
    cases hstack'
    exact ⟨rfl, .inr rfl⟩

omit [DecidableEq τ] in
/-- Interrupts are off whenever a task runs in a call. -/
theorem Pending.off (hpending : c.Pending c.current IF ret) (hwf : c.WF) : c.IF = false := by
  obtain ⟨m, hstack⟩ | hstack := hpending
  · exact hwf.intr _ _ hstack trivial
  · exact hwf.intr _ _ hstack trivial

/-- The only way back into `mutex_lock` is the test of its while loop. -/
theorem Pending.lock_entry (hpending : c.Pending c.current IF ret) (hentry : c.LockEntry op m intr again d) :
    d.stack c.current = ret ∧ intr = IF := by
  cases hentry with
  | call hthread => exact absurd hthread.1 hpending.ne_nil
  | spin hstack =>
    obtain ⟨-, ⟨m, heq⟩ | heq⟩ := hpending.top hstack <;> cases heq
  | retry hstack =>
    obtain ⟨rfl, ⟨m, heq⟩ | heq⟩ := hpending.top hstack <;> cases heq
    simp [hstack]

theorem Pending.not_unlock_entry (hpending : c.Pending c.current IF ret) : ¬ c.UnlockEntry op m intr d := by
  intro hentry
  cases hentry with
  | call hthread => exact absurd hthread.1 hpending.ne_nil
  | spin hstack =>
    obtain ⟨-, ⟨m, heq⟩ | heq⟩ := hpending.top hstack <;> cases heq

end Core

namespace Sched

variable [DecidableEq τ] [DecidableEq ℓ] {a b : Sched τ ℓ} {op : Op ℓ} {calls : Bool} {ret : List (Frame ℓ)}

/-- What becomes of a call in an act of its task. -/
theorem Act.goes_on (hact : a.Act op calls b) (hwf : a.WF) {IF : Bool} (hpending : a.Pending a.current IF ret) :
    b.Pending a.current IF ret ∨ calls = false ∧ (b.Returned a.current IF ret ∨ b.Failed a.current ret) := by
  have hoff := hpending.off hwf.toWF
  have hnil := hpending.ne_nil
  cases hact with
  | tick hIF hticks => simp [hIF] at hoff
  | expire hIF hticks => simp [hIF] at hoff
  | set_interrupt_state hstack hboot => exact absurd hstack hnil
  | take hentry hvalue =>
    obtain ⟨hstack, rfl⟩ := hpending.lock_entry hentry
    exact .inr ⟨rfl, .inl ⟨by simpa [Core.take_mutex] using hstack, by simp [Core.take_mutex, hentry.frame],
      by simp [Core.take_mutex]⟩⟩
  | @wait op m intr again c hentry hvalue hfree =>
    obtain ⟨hstack, rfl⟩ := hpending.lock_entry hentry
    exact .inl (.inl ⟨m, by simp [Core.wait_mutex, hentry.frame, hstack]⟩)
  | wait_refused hentry hvalue hlinked =>
    obtain ⟨hstack, rfl⟩ := hpending.lock_entry hentry
    refine .inr ⟨rfl, .inr ⟨Core.stuck_fail _ (by simpa using (hentry.enabled hwf.toWF).2), fun hret => ?_⟩⟩
    simp only [Core.fail_frame, Core.push_frame_frame, Core.push_frame_stack, Core.emit_frame, hentry.frame,
      Function.update_self, hstack] at hret
    exact absurd (congrArg List.length hret) (by simp only [List.length_cons]; omega)
  | release_refused hentry hvalue => exact absurd hentry hpending.not_unlock_entry
  | release hentry hvalue hempty => exact absurd hentry hpending.not_unlock_entry
  | handoff hentry hvalue hlast => exact absurd hentry hpending.not_unlock_entry
  | iret hstack =>
    obtain ⟨-, ⟨m, heq⟩ | heq⟩ := hpending.top hstack <;> cases heq
  | unlock_return hstack =>
    obtain ⟨rfl, ⟨m, heq⟩ | heq⟩ := hpending.top hstack <;> cases heq
    exact .inr ⟨rfl, .inl ⟨by simp [hstack], rfl, rfl⟩⟩
  | spin_lock hstack hpoint =>
    obtain ⟨-, ⟨m, heq⟩ | heq⟩ := hpending.top hstack <;> cases heq
  | spin_unlock hstack hpoint =>
    obtain ⟨-, ⟨m, heq⟩ | heq⟩ := hpending.top hstack <;> cases heq
  | yield hthread => exact absurd hthread.1 hnil
  | sleep hthread hfree => exact absurd hthread.1 hnil
  | sleep_refused hthread hlinked => exact absurd hthread.1 hnil
  | test_block hthread hgate hfree => exact absurd hthread.1 hnil
  | test_refused hthread hgate hlinked => exact absurd hthread.1 hnil
  | test_wake hthread hgate => exact absurd hthread.1 hnil
  | call_spin_lock hthread => exact absurd hthread.1 hnil
  | call_spin_unlock hthread => exact absurd hthread.1 hnil

/-- A call that gives up the CPU has not returned. -/
theorem Step.of_act {search : Core τ ℓ → Option τ} {t : τ} {IF : Bool} (hstep : a.Step search op b)
    (hacts : ∀ calls b, a.Act op calls b →
      b.Pending t IF ret ∨ calls = false ∧ (b.Returned t IF ret ∨ b.Failed t ret)) :
    b.Pending t IF ret ∨ b.Returned t IF ret ∨ b.Failed t ret := by
  cases hstep with
  | stay hact => exact (hacts _ _ hact).imp_right And.right
  | switch hact hsearch =>
    obtain hpending | ⟨hcalls, -⟩ := hacts _ _ hact
    · exact .inl (by simpa [Core.Pending] using hpending)
    · cases hcalls

/-- Nothing changes for a call while other tasks run. -/
theorem Step.pending {search : Core τ ℓ → Option τ} {t : τ} {IF : Bool} (hstep : a.Step search op b) (hwf : a.WF)
    (hpending : a.Pending t IF ret) : b.Pending t IF ret ∨ b.Returned t IF ret ∨ b.Failed t ret := by
  refine hstep.of_act fun calls b hact => ?_
  by_cases ht : t = a.current
  · subst ht
    exact hact.goes_on hwf hpending
  · unfold Core.Pending at hpending ⊢
    rw [hact.stack_of_ne ht]
    exact .inl hpending

end Sched

variable [DecidableEq τ] [DecidableEq ℓ] {idle : τ} {tasks : List (τ × u32)}

theorem intr_assert_not_misuse {e : Failure} (he : IntrAssert e) : ¬ Misuse e ∧ ¬ Refused e := by
  unfold IntrAssert at he
  obtain rfl | rfl | rfl | rfl | rfl | rfl := he <;> exact ⟨by simp [Misuse], by simp [Refused]⟩

/-- No task has failed an assert on the interrupt flag. -/
theorem no_intr_assert {s : Kernel τ ℓ} (hreach : Reachable idle tasks Unrestricted s) :
    ∃ a : Sched τ ℓ, Holds (fun a => ∀ t e, Frame.spin e ∈ a.stack t → ¬ IntrAssert e) s a := by
  refine reachable_invariant _ (fun _ _ _ h => h ▸ task_search_sound) (fun a _ hbooted t e he => ?_)
    (fun a b search op hwf hinv _ hstep => ?_) hreach
  · simp [hbooted.stack] at he
  · have hacts : ∀ {calls} {b : Sched τ ℓ}, a.Act op calls b → ∀ t e, Frame.spin e ∈ b.stack t →
        ¬ IntrAssert e := by
      intro calls b hact t e he hassert
      obtain ⟨hmisuse, hrefused⟩ := intr_assert_not_misuse hassert
      obtain hold | h | ⟨h, -⟩ := hact.spins hwf he
      · exact hinv t e hold hassert
      · exact hmisuse h
      · exact hrefused h
    cases hstep with
    | stay hact => exact hacts hact
    | switch hact hsearch => simpa using hacts hact

/-- Interrupts are off wherever an assert asks for it, and a call of `mutex_lock` or `mutex_unlock` made
here returns with the interrupt flag of now, whatever other tasks do until then. -/
structure FlagKept (s : Kernel τ ℓ) : Prop where
  asserts : ∀ t e, Frame.spin e ∈ s.stack t → ¬ IntrAssert e
  calls : ∀ op ret s₁ s₂, s.MutexCall op ret → step (task_search .TASK_READY) op s = some s₁ →
    Relation.ReflTransGen (fun s' s'' => s'.stack s.current ≠ ret ∧ Next Unrestricted s' s'') s₁ s₂ →
      s₂.stack s.current = ret → s₂.current = s.current ∧ s₂.IF = s.IF

/-- In every run of the kernel the interrupt flag is off where it must be, and each call of a mutex
function gives it back to its caller. -/
theorem interrupt_flag_discipline {s : Kernel τ ℓ} (hreach : Reachable idle tasks Unrestricted s) :
    FlagKept s := by
  obtain ⟨a, hholds⟩ := no_intr_assert hreach
  have hcore := hholds.refines.core
  refine ⟨by rw [hcore]; exact hholds.inv, fun op ret s₁ s₂ hcall hstep hrun => ?_⟩
  have htrue : ∀ {s : Kernel τ ℓ} {b : Sched τ ℓ}, Refines s b → (b.WF ∨ b.Stuck) →
      Holds (fun _ : Sched τ ℓ => True) s b := fun href hwf => ⟨href, hwf, trivial⟩
  -- the state of the call, from the first step on
  have hstages : ∃ b : Sched τ ℓ, Holds (fun _ => True) s₂ b ∧
      (b.Pending s.current s.IF ret ∨ b.Returned s.current s.IF ret ∨ b.Failed s.current ret) := by
    induction hrun with
    | refl =>
      obtain ⟨hwf, b, hab, href, hwf'⟩ := hholds.step task_search_sound hstep
      rw [hcore] at hcall ⊢
      exact ⟨b, htrue href hwf', hab.of_act fun calls b hact => hact.enters_call hwf hcall⟩
    | tail _ hnext ih =>
      obtain ⟨hne, search, op', rfl, hstep'⟩ := hnext
      obtain ⟨b, hb, hpending | hreturned | hfailed⟩ := ih
      · obtain ⟨hwf, b', hbb', href, hwf'⟩ := hb.step task_search_sound hstep'
        exact ⟨b', htrue href hwf', hbb'.pending hwf hpending⟩
      · rw [hb.refines.core] at hne
        exact absurd hreturned.stack hne
      · have hstuck := hfailed.stuck
        rw [← hb.refines.core] at hstuck
        rw [hstuck.step_eq_none] at hstep'
        cases hstep'
  obtain ⟨b, hb, hpending | hreturned | hfailed⟩ := hstages
  · rw [hb.refines.core]
    intro hret
    obtain ⟨m, hstack⟩ | hstack := hpending <;> simp [hret] at hstack
  · rw [hb.refines.core]
    exact fun _ => ⟨hreturned.current, hreturned.IF⟩
  · rw [hb.refines.core]
    exact fun hret => absurd hret hfailed.stack

/-- The task dispatched first holds the mutex, and the next one is about to lock it with interrupts on. -/
theorem interrupt_flag_discipline_shipped : ∃ s : Kernel Nat Nat, Reachable 1 (shipped_tasks 2 3) Unrestricted s ∧
    s.MutexCall (.call (.mutex_lock 0)) [] ∧ s.IF = true ∧ (s.lock 0).mutex.value = true ∧ FlagKept s := by
  obtain ⟨s, hreach, hcheck⟩ := exists_reachable boots_shipped_kernel idle_yields_unrestricted
    [enable, .clock, .call (.mutex_lock 0), .call .yield, enable]
    (fun s => s.stack s.current = [] ∧ s.IF = true ∧ (s.lock 0).mutex.value = true) (by decide +kernel)
  obtain ⟨hstack, hIF, hvalue⟩ := of_decide_eq_true hcheck
  exact ⟨s, hreach, .lock hstack, hIF, hvalue, interrupt_flag_discipline hreach⟩

end onix
