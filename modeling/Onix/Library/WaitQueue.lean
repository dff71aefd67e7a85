import Mathlib.Data.Set.Insert
import Mathlib.Tactic

/-! A lock with a queue of waiting threads.

A thread that finds the lock held waits in the queue. Giving the lock back clears the flag and wakes
the thread that has been in the queue longest, which then tries again: whoever tries first takes the
lock, the woken thread or one that has not waited at all. -/

namespace WaitQueue

structure State (τ : Type) where
  held : Bool
  /-- the queue, with the thread that was put there last in front -/
  waiting : List τ
  /-- the threads that were taken off the queue and have not tried again -/
  woken : Set τ
  /-- the threads that have been in the queue and have not taken the lock since, in the order in
  which they first got there -/
  arrived : List τ

variable {τ : Type}

section Steps

variable [DecidableEq τ]

inductive Step (t : τ) (s : State τ) : State τ → Prop where
  | wait (hheld : s.held = true) (hout : t ∉ s.waiting) (hwoken : t ∉ s.woken) :
      Step t s { s with waiting := t :: s.waiting, arrived := s.arrived ++ [t] }
  | wait_again (hheld : s.held = true) (hout : t ∉ s.waiting) (hwoken : t ∈ s.woken) :
      Step t s { s with waiting := t :: s.waiting, woken := s.woken \ {t} }
  | take (hheld : s.held = false) (hout : t ∉ s.waiting) :
      Step t s { s with held := true, woken := s.woken \ {t}, arrived := s.arrived.erase t }
  | release (hheld : s.held = true) (hempty : s.waiting = []) : Step t s { s with held := false }
  | wake {waiting : List τ} {u : τ} (hheld : s.held = true) (hlast : s.waiting = waiting ++ [u]) :
      Step t s { s with held := false, waiting, woken := insert u s.woken }

end Steps

/-- While the lock is free and threads wait, some thread is about to try again. -/
def State.Rouses (s : State τ) : Prop := s.held = false → s.waiting ≠ [] → s.woken.Nonempty

/-- A thread takes the lock out of turn if another has been woken and has not tried again. -/
def State.Polite (s : State τ) (t : τ) : Prop := t ∈ s.woken ∨ s.woken = ∅

/-- The threads are served in the order of their arrival: at most one is woken, and it arrived before
all that wait. -/
def State.Ordered (s : State τ) : Prop :=
  ∃ next : Option τ, (∀ t, t ∈ s.woken ↔ next = some t) ∧ (s.held = true → next = none) ∧
    s.arrived = next.toList ++ s.waiting.reverse

variable {s s' : State τ} {t : τ}

/-- A thread that has arrived and tries again is the first of those that have. -/
theorem State.Ordered.first (h : s.Ordered) (hout : t ∉ s.waiting) (harrived : t ∈ s.arrived) :
    s.arrived.head? = some t := by
  obtain ⟨next, hwoken, -, horder⟩ := h
  rw [horder, List.mem_append, List.mem_reverse, Option.mem_toList] at harrived
  obtain rfl : next = some t := harrived.resolve_right hout
  simp [horder]

variable [DecidableEq τ]

/-- Every step on the lock leaves a thread that tries, if it leaves the lock free and threads waiting. -/
theorem Step.rouses (hstep : Step t s s') : s'.Rouses := by
  intro hfree hwaits
  cases hstep with
  | wait hheld hout hwoken => simp [hheld] at hfree
  | wait_again hheld hout hwoken => simp [hheld] at hfree
  | take hheld hout => simp at hfree
  | release hheld hempty => exact absurd hempty hwaits
  | wake hheld hlast => exact Set.insert_nonempty _ _

/-- The order of arrival is kept as long as nobody takes the lock out of turn. -/
theorem State.Ordered.step (hstep : Step t s s') (h : s.Ordered)
    (hpolite : s.held = false → s'.held = true → s.Polite t) : s'.Ordered := by
  obtain ⟨next, hwoken, hnone, horder⟩ := h
  cases hstep with
  | wait hheld hout hnew =>
    obtain rfl := hnone hheld
    exact ⟨none, hwoken, fun _ => rfl, by simp [horder]⟩
  | wait_again hheld hout hagain =>
    obtain rfl := hnone hheld
    exact absurd ((hwoken t).mp hagain) (by simp)
  | take hheld hout =>
    refine ⟨none, fun u => ?_, fun _ => rfl, ?_⟩
    · simp only [Set.mem_sdiff, Set.mem_singleton_iff, reduceCtorEq, iff_false, not_and, not_not]
      intro hu
      rcases hpolite hheld rfl with ht | hempty
      · exact Option.some.inj (((hwoken u).mp hu).symm.trans ((hwoken t).mp ht))
      · simp [hempty] at hu
    · rcases hpolite hheld rfl with ht | hempty
      · obtain rfl := (hwoken t).mp ht
        simp [horder]
      · have hnext : next = none := Option.eq_none_iff_forall_ne_some.mpr fun u hu => by
          simpa [hempty] using (hwoken u).mpr hu
        subst hnext
        simpa [horder] using hout
  | release hheld hempty => exact ⟨next, hwoken, by simp, horder⟩
  | @wake waiting u hheld hlast =>
    obtain rfl := hnone hheld
    refine ⟨some u, fun v => ?_, by simp, by simp [horder, hlast]⟩
    simp [hwoken, eq_comm]

end WaitQueue
