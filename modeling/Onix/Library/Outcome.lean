import Mathlib.Tactic

/-! Runs of programs with a state and an exception, where the state reached before the
exception survives it. `EStateM` keeps that state, so a failed run is still a run. -/

namespace Outcome

variable {ε σ ρ α β : Type}

/-- The first part of a sequence has returned; go on with the second. -/
theorem bind_of_ok {x : EStateM ε σ α} {s s₁ : σ} {a : α} (hx : x.run s = .ok a s₁)
    (f : α → EStateM ε σ β) : (x >>= f).run s = (f a).run s₁ := by
  rw [EStateM.run_bind, hx]

/-- The first part of a sequence has failed; the second is never reached. -/
theorem bind_of_error {x : EStateM ε σ α} {s s₁ : σ} {e : ε} (hx : x.run s = .error e s₁)
    (f : α → EStateM ε σ β) : (x >>= f).run s = .error e s₁ := by
  rw [EStateM.run_bind, hx]

theorem get_bind_run (f : σ → EStateM ε σ β) (s : σ) :
    ((get : EStateM ε σ σ) >>= f).run s = (f s).run s := rfl

theorem modify_bind_run (g : σ → σ) (f : PUnit → EStateM ε σ β) (s : σ) :
    ((modify g : EStateM ε σ PUnit) >>= f).run s = (f ()).run (g s) := rfl

/-- Run a program on one component of a larger state. -/
def zoom (get : σ → ρ) (put : ρ → σ → σ) (x : EStateM ε ρ α) : EStateM ε σ α := fun s =>
  match x.run (get s) with
  | .ok a r => .ok a (put r s)
  | .error e r => .error e (put r s)

theorem zoom_of_ok (get : σ → ρ) {put : ρ → σ → σ} {x : EStateM ε ρ α} {s : σ} {a : α} {r : ρ}
    (hx : x.run (get s) = .ok a r) : (zoom get put x).run s = .ok a (put r s) := by
  simp only [zoom, EStateM.run] at hx ⊢
  rw [hx]

theorem zoom_congr (get : σ → ρ) {put : ρ → σ → σ} {x y : EStateM ε ρ α} {s : σ}
    (hxy : x.run (get s) = y.run (get s)) : (zoom get put x).run s = (zoom get put y).run s := by
  simp only [zoom, EStateM.run] at hxy ⊢
  rw [hxy]

section Within

/-- The state a program leaves, whether it returns or fails. -/
def final (x : EStateM ε σ α) (s : σ) : σ :=
  match x.run s with
  | .ok _ s' => s'
  | .error _ s' => s'

theorem final_of_ok {x : EStateM ε σ α} {s s' : σ} {a : α} (hx : x.run s = .ok a s') :
    final x s = s' := by
  rw [final, hx]

theorem final_of_error {x : EStateM ε σ α} {s s' : σ} {e : ε} (hx : x.run s = .error e s') :
    final x s = s' := by
  rw [final, hx]

variable {R : σ → σ → Prop}

/-- What the first part of a sequence does and what the second does, wherever the first leaves it,
is what the sequence does. -/
theorem final_bind (htrans : ∀ s s₁ s₂, R s s₁ → R s₁ s₂ → R s s₂) {x : EStateM ε σ α}
    {f : α → EStateM ε σ β} {s : σ} (hx : R s (final x s))
    (hf : ∀ a s₁, x.run s = .ok a s₁ → R s₁ (final (f a) s₁)) : R s (final (x >>= f) s) := by
  cases hrun : x.run s with
  | ok a s₁ =>
    rw [final_of_ok hrun] at hx
    have hfinal : final (x >>= f) s = final (f a) s₁ := by rw [final, bind_of_ok hrun, ← final]
    rw [hfinal]
    exact htrans _ _ _ hx (hf a s₁ hrun)
  | error e s₁ =>
    rw [final_of_error hrun] at hx
    rwa [final_of_error (bind_of_error hrun f)]

end Within

end Outcome
