import Mathlib.Tactic

/-! Runs of a transition system: the states reached from the initial ones, and the histories of their
events, the last event first. -/

namespace Runs

variable {σ ι : Type}

/-- The states reached from an initial state. -/
inductive Reach (init : σ → Prop) (next : σ → σ → Prop) : σ → Prop where
  | init {s : σ} (hinit : init s) : Reach init next s
  | step {s s' : σ} (hreach : Reach init next s) (hnext : next s s') : Reach init next s'

variable {init : σ → Prop} {next : σ → σ → Prop}

/-- What a relation to an abstract state says of the initial states and is carried over every
step, it says of every reachable state. -/
theorem Reach.related {α : Type} {R : σ → α → Prop} (hinit : ∀ s, init s → ∃ a, R s a)
    (hstep : ∀ s s' a, R s a → next s s' → ∃ a', R s' a') {s : σ} (hreach : Reach init next s) :
    ∃ a, R s a := by
  induction hreach with
  | init hinit' => exact hinit _ hinit'
  | step _ hnext ih =>
    obtain ⟨a, ha⟩ := ih
    exact hstep _ _ a ha hnext

/-- An event that is none of the last ones is an earlier one. -/
theorem suffix_of_append {ε : Type} (es : List ε) {older log : List ε} {e : ε} (he : e ∉ es)
    (h : e :: older <:+ es ++ log) : e :: older <:+ log := by
  induction es with
  | nil => exact h
  | cons f es ih =>
    simp only [List.mem_cons, not_or] at he
    rcases List.suffix_cons_iff.mp h with heq | h
    · exact absurd (List.cons.inj heq).1 he.1
    · exact ih he.2 h

end Runs
