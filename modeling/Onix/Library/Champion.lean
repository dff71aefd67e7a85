import Mathlib.Tactic

/-! One pass through a list that keeps a champion, and takes a later element instead where that beats the
champion. The relation need not be transitive. -/

namespace Champion

variable {α : Type} (beats : α → α → Prop)

/-- The element behind `before` is beaten by none of `behind`, and each one before it is beaten by a
later one. -/
structure FirstUnbeaten (before : List α) (t : α) (behind : List α) : Prop where
  unbeaten : ∀ v ∈ behind, ¬ beats v t
  beaten : ∀ a u b, before = a ++ u :: b → ∃ v ∈ b ++ t :: behind, beats v u

section FirstUnbeaten

variable {beats} {before behind : List α} {t c : α}

/-- A new last element that does not beat the champion changes nothing. -/
theorem FirstUnbeaten.keep (h : FirstUnbeaten beats before t behind) (hc : ¬ beats c t) :
    FirstUnbeaten beats before t (behind ++ [c]) where
  unbeaten := by
    intro v hv
    rw [List.mem_append, List.mem_singleton] at hv
    rcases hv with hv | rfl
    · exact h.unbeaten v hv
    · exact hc
  beaten := by
    intro a u b hbefore
    obtain ⟨v, hv, hbeats⟩ := h.beaten a u b hbefore
    refine ⟨v, ?_, hbeats⟩
    rw [← List.cons_append, ← List.append_assoc, List.mem_append]
    exact Or.inl hv

/-- A new last element that beats the champion beats all that the champion was kept against. -/
theorem FirstUnbeaten.replace (hbeats : ∀ r s c, ¬ beats r s → beats c s → beats c r)
    (h : FirstUnbeaten beats before t behind) (hc : beats c t) :
    FirstUnbeaten beats (before ++ t :: behind) c [] where
  unbeaten := by simp
  beaten := by
    intro a u b heq
    rcases List.append_eq_append_iff.mp heq with ⟨as, rfl, htail⟩ | ⟨bs, rfl, htail⟩
    · -- the element is the old champion or behind it
      refine ⟨c, by simp, ?_⟩
      cases as with
      | nil =>
        obtain ⟨rfl, -⟩ := List.cons.inj htail
        exact hc
      | cons s as =>
        obtain ⟨-, htail⟩ := List.cons.inj htail
        exact hbeats u t c (h.unbeaten u (by rw [htail]; simp)) hc
    · cases bs with
      | nil =>
        obtain ⟨rfl, -⟩ := List.cons.inj htail
        exact ⟨c, by simp, hc⟩
      | cons s bs =>
        obtain ⟨rfl, rfl⟩ := List.cons.inj htail
        obtain ⟨v, hv, hbeat⟩ := h.beaten a u bs rfl
        refine ⟨v, ?_, hbeat⟩
        rw [List.mem_append, List.mem_cons] at hv
        simp only [List.append_eq, List.mem_append, List.mem_cons, List.mem_nil_iff, or_false]
        exact Or.inl hv

/-- There is only one such element. -/
theorem FirstUnbeaten.unique {before' behind' : List α} {t' : α} (h : FirstUnbeaten beats before t behind)
    (h' : FirstUnbeaten beats before' t' behind') (heq : before ++ t :: behind = before' ++ t' :: behind') :
    before = before' ∧ t = t' ∧ behind = behind' := by
  rcases List.append_eq_append_iff.mp heq with ⟨as, rfl, htail⟩ | ⟨bs, rfl, htail⟩
  · cases as with
    | nil =>
      obtain ⟨rfl, rfl⟩ := List.cons.inj htail
      exact ⟨(List.append_nil _).symm, rfl, rfl⟩
    | cons s as =>
      obtain ⟨rfl, rfl⟩ := List.cons.inj htail
      obtain ⟨v, hv, hbeat⟩ := h'.beaten before t as rfl
      exact absurd hbeat (h.unbeaten v hv)
  · cases bs with
    | nil =>
      obtain ⟨rfl, rfl⟩ := List.cons.inj htail
      exact ⟨List.append_nil _, rfl, rfl⟩
    | cons s bs =>
      obtain ⟨rfl, rfl⟩ := List.cons.inj htail
      obtain ⟨v, hv, hbeat⟩ := h.beaten before' t' bs rfl
      exact absurd hbeat (h'.unbeaten v hv)

end FirstUnbeaten

def pass [DecidableRel beats] (champion : α) (l : List α) : α :=
  l.foldl (fun s c => if beats c s then c else s) champion

variable {beats} [DecidableRel beats]

theorem pass_cons (s c : α) (l : List α) :
    pass beats s (c :: l) = if beats c s then pass beats c l else pass beats s l := by
  unfold pass
  rw [List.foldl_cons]
  split_ifs <;> rfl

/-- The pass ends with the first element that no later one beats. -/
theorem pass_first_unbeaten (hbeats : ∀ r s c, ¬ beats r s → beats c s → beats c r) (s : α) (l : List α) :
    ∃ before behind, s :: l = before ++ pass beats s l :: behind ∧
      FirstUnbeaten beats before (pass beats s l) behind := by
  induction l using List.reverseRecOn with
  | nil => exact ⟨[], [], rfl, by simp, by simp⟩
  | append_singleton l c ih =>
    obtain ⟨before, behind, heq, hfirst⟩ := ih
    have hpass : pass beats s (l ++ [c]) = if beats c (pass beats s l) then c else pass beats s l := by
      unfold pass
      rw [List.foldl_append]
      rfl
    rw [hpass, ← List.cons_append]
    split_ifs with hc
    · exact ⟨s :: l, [], rfl, by rw [heq]; exact hfirst.replace hbeats hc⟩
    · exact ⟨before, behind ++ [c], by rw [heq]; simp, hfirst.keep hc⟩

end Champion
