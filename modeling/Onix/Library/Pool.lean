import Mathlib.Data.Finset.Card
import Mathlib.Order.Interval.Finset.Nat
import Mathlib.Tactic

/-! A pool of numbered cells that are taken, the first free one first, and given back. -/

/-- The cells from `lo` up to `hi`, and those of them that are taken. -/
structure Pool where
  lo : ℕ
  hi : ℕ
  taken : Finset ℕ
  taken_subset : taken ⊆ Finset.Ico lo hi

namespace Pool

def free (p : Pool) : Finset ℕ := Finset.Ico p.lo p.hi \ p.taken

variable {p p' : Pool} {i : ℕ}

theorem mem_free : i ∈ p.free ↔ (p.lo ≤ i ∧ i < p.hi) ∧ i ∉ p.taken := by
  rw [free, Finset.mem_sdiff, Finset.mem_Ico]

def take (p : Pool) (i : ℕ) (hi : i ∈ p.free) : Pool where
  lo := p.lo
  hi := p.hi
  taken := insert i p.taken
  taken_subset := Finset.insert_subset (Finset.mem_sdiff.mp hi).1 p.taken_subset

def give (p : Pool) (i : ℕ) : Pool where
  lo := p.lo
  hi := p.hi
  taken := p.taken.erase i
  taken_subset := (Finset.erase_subset i p.taken).trans p.taken_subset

theorem free_take (hi : i ∈ p.free) : (p.take i hi).free = p.free.erase i := by
  ext j
  rw [Finset.mem_erase, mem_free, mem_free]
  change _ ∧ j ∉ insert i p.taken ↔ _
  rw [Finset.mem_insert, not_or]
  tauto

theorem free_give (hi : i ∈ p.taken) : (p.give i).free = insert i p.free := by
  have hrange := Finset.mem_Ico.mp (p.taken_subset hi)
  ext j
  rw [Finset.mem_insert, mem_free, mem_free]
  change (p.lo ≤ j ∧ j < p.hi) ∧ j ∉ p.taken.erase i ↔ _
  rw [Finset.mem_erase]
  by_cases hj : j = i
  · subst hj
    simp [hrange]
  · simp [hj]

/-- What can happen to a pool. -/
inductive Step (p : Pool) : Pool → Prop where
  | take {i : ℕ} (hi : i ∈ p.free) (hfirst : ∀ j ∈ p.free, i ≤ j) : Step p (p.take i hi)
  | give {i : ℕ} (hi : i ∈ p.taken) : Step p (p.give i)

end Pool
