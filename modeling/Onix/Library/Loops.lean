import Onix.Library.Outcome

/-! Loops of programs that count turns with a machine word. -/

namespace Loop

variable {ε σ : Type}

/-- `n` turns of a loop, at consecutive words from `i` on. -/
def upFrom (body : UInt32 → EStateM ε σ Unit) (i : UInt32) : Nat → EStateM ε σ Unit
  | 0 => pure ()
  | n + 1 => do
    body i
    upFrom body (i + 1) n

/-- `for (i = 0; i < bound; i++)` -/
def upTo (bound : UInt32) (body : UInt32 → EStateM ε σ Unit) : EStateM ε σ Unit :=
  upFrom body 0 bound.toNat

/-- A loop whose every turn returns and carries an invariant on returns, and has carried it through. -/
theorem upFrom_returns (Inv : Nat → σ → Prop) {body : UInt32 → EStateM ε σ Unit} {i : UInt32}
    {n k : Nat}
    (hbody : ∀ j < n, ∀ s, Inv (k + j) s →
      ∃ s', (body (i + UInt32.ofNat j)).run s = .ok () s' ∧ Inv (k + j + 1) s')
    {s : σ} (hinv : Inv k s) : ∃ s', (upFrom body i n).run s = .ok () s' ∧ Inv (k + n) s' := by
  induction n generalizing i k s with
  | zero => exact ⟨s, rfl, hinv⟩
  | succ n ih =>
    obtain ⟨s₁, hrun, hinv₁⟩ := hbody 0 (Nat.succ_pos n) s hinv
    rw [show i + UInt32.ofNat 0 = i by simp] at hrun
    have hrest : ∀ j < n, ∀ s, Inv (k + 1 + j) s →
        ∃ s', (body (i + 1 + UInt32.ofNat j)).run s = .ok () s' ∧ Inv (k + 1 + j + 1) s' := by
      intro j hj t ht
      have hturn := hbody (j + 1) (Nat.succ_lt_succ hj) t (by rwa [show k + (j + 1) = k + 1 + j by omega])
      rwa [show i + UInt32.ofNat (j + 1) = i + 1 + UInt32.ofNat j by
          rw [UInt32.ofNat_add]; ac_rfl,
        show k + (j + 1) + 1 = k + 1 + j + 1 by omega] at hturn
    obtain ⟨s', hrun', hinv'⟩ := ih hrest hinv₁
    refine ⟨s', ?_, by rwa [show k + (n + 1) = k + 1 + n by omega]⟩
    rw [upFrom, Outcome.bind_of_ok hrun]
    exact hrun'

/-- The loop from zero on, with the invariant at the number of the turn. -/
theorem upTo_returns (Inv : Nat → σ → Prop) {bound : UInt32} {body : UInt32 → EStateM ε σ Unit}
    (hbody : ∀ j < bound.toNat, ∀ s, Inv j s →
      ∃ s', (body (UInt32.ofNat j)).run s = .ok () s' ∧ Inv (j + 1) s')
    {s : σ} (hinv : Inv 0 s) : ∃ s', (upTo bound body).run s = .ok () s' ∧ Inv bound.toNat s' := by
  have hturns : ∀ j < bound.toNat, ∀ s, Inv (0 + j) s →
      ∃ s', (body (0 + UInt32.ofNat j)).run s = .ok () s' ∧ Inv (0 + j + 1) s' := by
    intro j hj s hs
    rw [Nat.zero_add] at hs ⊢
    rw [UInt32.zero_add]
    exact hbody j hj s hs
  have h := upFrom_returns Inv hturns hinv
  rwa [Nat.zero_add] at h

/-- What every turn does, whether it returns or fails, the loop does. -/
theorem upFrom_final {R : σ → σ → Prop} (hrefl : ∀ s, R s s) (htrans : ∀ s s₁ s₂, R s s₁ → R s₁ s₂ → R s s₂)
    {body : UInt32 → EStateM ε σ Unit} (hbody : ∀ i s, R s (Outcome.final (body i) s)) (i : UInt32) (n : Nat)
    (s : σ) : R s (Outcome.final (upFrom body i n) s) := by
  induction n generalizing i s with
  | zero => exact hrefl s
  | succ n ih => exact Outcome.final_bind htrans (hbody i s) fun _ s₁ _ => ih (i + 1) s₁

end Loop
