import Onix.Library.Runs
import Onix.Sched.Boot

namespace onix

variable {τ ℓ : Type} [DecidableEq τ] [DecidableEq ℓ]

/-- What may happen next in a state: which search the scheduler uses, and which operation. -/
abbrev Allowed (τ ℓ : Type) := Core τ ℓ → (Core τ ℓ → Option τ) → Op ℓ → Prop

def Next (allowed : Allowed τ ℓ) (s s' : Kernel τ ℓ) : Prop :=
  ∃ search op, allowed s.toCore search op ∧ step search op s = some s'

/-- The states of the runs from `task_init` whose steps are all allowed. -/
abbrev Reachable (idle : τ) (tasks : List (τ × u32)) (allowed : Allowed τ ℓ) : Kernel τ ℓ → Prop :=
  Runs.Reach (boots idle tasks) (Next allowed)

/-- A task that spins with interrupts off is the end of the run. -/
theorem Core.Stuck.step_eq_none {s : Kernel τ ℓ} (hstuck : s.Stuck) (search : Core τ ℓ → Option τ)
    (op : Op ℓ) : step search op s = none := by
  obtain ⟨hIF, e, rest, hstack⟩ := hstuck
  cases op with
  | clock => simp [step, hIF]
  | call call => simp [step, hstack]
  | resume => simp [step, hstack]

/-- An invariant of the abstract kernel, with the abstract state it holds of. -/
structure Holds (Inv : Sched τ ℓ → Prop) (s : Kernel τ ℓ) (a : Sched τ ℓ) : Prop where
  refines : Refines s a
  wf : a.WF ∨ a.Stuck
  inv : Inv a

/-- A step of the machine is a step of the abstract kernel, which does not spin for good then. -/
theorem Holds.step {Inv : Sched τ ℓ → Prop} {s s' : Kernel τ ℓ} {a : Sched τ ℓ} (h : Holds Inv s a)
    {search : Core τ ℓ → Option τ} (hsound : Sound search) {op : Op ℓ}
    (hstep : step search op s = some s') :
    a.WF ∧ ∃ b, a.Step search op b ∧ Refines s' b ∧ (b.WF ∨ b.Stuck) := by
  have hwf : a.WF := h.wf.resolve_right fun hstuck => by
    rw [← h.refines.core] at hstuck
    rw [hstuck.step_eq_none] at hstep
    exact absurd hstep (by simp)
  obtain ⟨b, hab, href⟩ := step_refines hsound hwf h.refines hstep
  exact ⟨hwf, b, hab, href, hab.wf hsound hwf href.represents⟩

/-- What holds of the abstract kernel behind `task_init`, and is kept by every allowed step of it,
holds in every reachable state. -/
theorem reachable_invariant {idle : τ} {tasks : List (τ × u32)} {allowed : Allowed τ ℓ}
    (Inv : Sched τ ℓ → Prop) (hsound : ∀ c search op, allowed c search op → Sound search)
    (hinit : ∀ a : Sched τ ℓ, a.WF → a.Booted idle tasks → Inv a)
    (hstep : ∀ (a b : Sched τ ℓ) search op, a.WF → Inv a → allowed a.toCore search op →
      a.Step search op b → Inv b)
    {s : Kernel τ ℓ} (hreach : Reachable idle tasks allowed s) : ∃ a, Holds Inv s a := by
  refine hreach.related (fun s hboots => ?_) (fun s s' a hholds hnext => ?_)
  · obtain ⟨a, href, hwf, hbooted⟩ := boots_refines hboots
    exact ⟨a, href, .inl hwf, hinit a hwf hbooted⟩
  · obtain ⟨search, op, hallowed, hrun⟩ := hnext
    obtain ⟨hwf, b, hab, href, hwf'⟩ := hholds.step (hsound _ _ _ hallowed) hrun
    rw [hholds.refines.core] at hallowed
    exact ⟨b, href, hwf', hstep a b search op hwf hholds.inv hallowed hab⟩

end onix
