import Mathlib.Data.Finset.Basic
import Mathlib.Order.Interval.Finset.Nat
import Mathlib.Tactic

/-! A row of cells that is leased out in sets of cells, behind a reserved beginning. -/

/-- The live leases, by their names; `cells` are the cells of a lease. -/
structure Arena {ι : Type} (cells : ι → Finset ℕ) where
  reserved : ℕ
  size : ℕ
  live : List ι
  nonempty : ∀ e ∈ live, (cells e).Nonempty
  inside : ∀ e ∈ live, cells e ⊆ Finset.Ico reserved size
  apart : live.Pairwise fun e f => Disjoint (cells e) (cells f)

namespace Arena

variable {ι : Type} {cells : ι → Finset ℕ} {a : Arena cells} {e f : ι} {k : ℕ}

/-- A cell is reserved or leased. -/
def Used (a : Arena cells) (k : ℕ) : Prop := k < a.reserved ∨ ∃ e ∈ a.live, k ∈ cells e

/-- Cells that are not used are leased. -/
def lease (a : Arena cells) (e : ι) (hne : (cells e).Nonempty) (hsize : ∀ k ∈ cells e, k < a.size)
    (hfree : ∀ k ∈ cells e, ¬ a.Used k) : Arena cells where
  reserved := a.reserved
  size := a.size
  live := e :: a.live
  nonempty := List.forall_mem_cons.mpr ⟨hne, a.nonempty⟩
  inside := by
    refine List.forall_mem_cons.mpr ⟨fun k hk => Finset.mem_Ico.mpr ⟨?_, hsize k hk⟩, a.inside⟩
    exact Nat.le_of_not_lt fun hlt => hfree k hk (.inl hlt)
  apart := by
    refine List.pairwise_cons.mpr ⟨fun f hf => ?_, a.apart⟩
    exact Finset.disjoint_left.mpr fun k hk hk' => hfree k hk (.inr ⟨f, hf, hk'⟩)

theorem used_lease (hne : (cells e).Nonempty) (hsize : ∀ k ∈ cells e, k < a.size)
    (hfree : ∀ k ∈ cells e, ¬ a.Used k) : (a.lease e hne hsize hfree).Used k ↔ k ∈ cells e ∨ a.Used k := by
  change (k < a.reserved ∨ ∃ f ∈ e :: a.live, k ∈ cells f) ↔ _ ∨ (k < a.reserved ∨ _)
  simp only [List.mem_cons, exists_eq_or_imp]
  exact or_left_comm

theorem nodup (a : Arena cells) : a.live.Nodup := by
  refine a.apart.imp_of_mem ?_
  rintro e f he - hdisjoint rfl
  obtain ⟨k, hk⟩ := a.nonempty e he
  exact Finset.disjoint_left.mp hdisjoint hk hk

/-- The leases in another order. -/
def rearrange (a : Arena cells) {l : List ι} (h : a.live.Perm l) : Arena cells where
  reserved := a.reserved
  size := a.size
  live := l
  nonempty := fun e he => a.nonempty e (h.mem_iff.mpr he)
  inside := fun e he => a.inside e (h.mem_iff.mpr he)
  apart := h.pairwise a.apart fun h => h.symm

theorem used_rearrange {l : List ι} (h : a.live.Perm l) : (a.rearrange h).Used k ↔ a.Used k := by
  unfold Used rearrange
  simp only [h.mem_iff]

variable [BEq ι] [LawfulBEq ι]

def release (a : Arena cells) (e : ι) : Arena cells where
  reserved := a.reserved
  size := a.size
  live := a.live.erase e
  nonempty := fun f hf => a.nonempty f (List.mem_of_mem_erase hf)
  inside := fun f hf => a.inside f (List.mem_of_mem_erase hf)
  apart := a.apart.sublist List.erase_sublist

/-- The other leases are apart from a live one. -/
theorem disjoint_of_mem_erase (he : e ∈ a.live) (hf : f ∈ a.live.erase e) : Disjoint (cells e) (cells f) := by
  have hpairwise := (List.perm_cons_erase he).pairwise a.apart fun h => h.symm
  exact (List.pairwise_cons.mp hpairwise).1 f hf

/-- The cells of a lease are not used any more when it is released, and the others are as before. -/
theorem used_release (he : e ∈ a.live) : (a.release e).Used k ↔ k ∉ cells e ∧ a.Used k := by
  have hmem : ∀ f, f ∈ a.live ↔ f = e ∨ f ∈ a.live.erase e := fun f => by
    rw [(List.perm_cons_erase he).mem_iff, List.mem_cons]
  constructor
  · rintro (hlt | ⟨f, hf, hk⟩)
    · exact ⟨fun hk => (Finset.mem_Ico.mp (a.inside e he hk)).1.not_gt hlt, .inl hlt⟩
    · exact ⟨fun hk' => Finset.disjoint_left.mp (disjoint_of_mem_erase he hf) hk' hk,
        .inr ⟨f, (hmem f).mpr (.inr hf), hk⟩⟩
  · rintro ⟨hk, hlt | ⟨f, hf, hk'⟩⟩
    · exact .inl hlt
    · rcases (hmem f).mp hf with rfl | hf
      · exact absurd hk' hk
      · exact .inr ⟨f, hf, hk'⟩

end Arena
