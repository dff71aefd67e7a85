import Mathlib.Tactic

/-! The first run of free cells in a row of cells, found by a scan that only counts the free cells
behind it. -/

namespace FirstFit

/-- The `count` cells from `start` on are free and lie among the first `size`. -/
def Fits (used : Nat → Bool) (size count start : Nat) : Prop :=
  start + count ≤ size ∧ ∀ k, start ≤ k → k < start + count → used k = false

/-- No run of `count` free cells starts before this one. -/
structure First (used : Nat → Bool) (size count start : Nat) : Prop where
  fits : Fits used size count start
  first : ∀ t, Fits used size count t → start ≤ t

/-- The scan stands at `next` with no run behind it, and the last `counter` cells are free. -/
structure Scanned (used : Nat → Bool) (count next counter : Nat) : Prop where
  counter_le : counter ≤ next
  counter_lt : counter < count
  tail : ∀ k, next - counter ≤ k → k < next → used k = false
  longest : counter < next → used (next - counter - 1) = true

variable {used : Nat → Bool} {size count next counter start : Nat}

/-- One cell is a run of its own. -/
theorem fits_one : Fits used size 1 start ↔ start < size ∧ used start = false := by
  constructor
  · rintro ⟨hend, hfree⟩
    exact ⟨hend, hfree start le_rfl (Nat.lt_succ_self start)⟩
  · rintro ⟨hend, hfree⟩
    refine ⟨hend, fun k hfrom hto => ?_⟩
    obtain rfl : k = start := by omega
    exact hfree

theorem Scanned.init (used : Nat → Bool) (hcount : 0 < count) : Scanned used count 0 0 where
  counter_le := le_rfl
  counter_lt := hcount
  tail := fun k _ hk => absurd hk (Nat.not_lt_zero k)
  longest := fun h => absurd h (Nat.lt_irrefl 0)

/-- A run that ends where the scan stands starts within the free cells behind it. -/
theorem Scanned.start_le (h : Scanned used count next counter) (hfits : Fits used size count start)
    (hnext : next < start + count) : next - counter ≤ start := by
  by_contra hlt
  have hused := h.longest (by omega)
  have hfree := hfits.2 (next - counter - 1) (by omega) (by omega)
  rw [hfree] at hused
  exact Bool.false_ne_true hused

/-- A used cell starts the count again. -/
theorem Scanned.past_used (h : Scanned used count next counter) (hused : used next = true) :
    Scanned used count (next + 1) 0 where
  counter_le := Nat.zero_le _
  counter_lt := by
    have := h.counter_lt
    omega
  tail := fun k hk hk' => by omega
  longest := fun _ => hused

theorem Scanned.past_free (h : Scanned used count next counter) (hfree : used next = false)
    (hcount : counter + 1 ≠ count) : Scanned used count (next + 1) (counter + 1) where
  counter_le := Nat.succ_le_succ h.counter_le
  counter_lt := by
    have := h.counter_lt
    omega
  tail := by
    intro k hk hk'
    rcases Nat.lt_succ_iff_lt_or_eq.mp hk' with hlt | rfl
    · exact h.tail k (by omega) hlt
    · exact hfree
  longest := by
    intro hlt
    have hused := h.longest (by omega)
    rwa [show next + 1 - (counter + 1) - 1 = next - counter - 1 by omega]

/-- The first run is found where the count becomes what is asked for. -/
theorem Scanned.found (h : Scanned used count next counter) (hfree : used next = false)
    (hcount : counter + 1 = count) (hsize : next < size)
    (hnone : ∀ t, Fits used size count t → next < t + count) :
    First used size count (next + 1 - count) where
  fits := by
    have hle := h.counter_le
    refine ⟨by omega, fun k hk hk' => ?_⟩
    rcases Nat.lt_succ_iff_lt_or_eq.mp (show k < next + 1 by omega) with hlt | rfl
    · exact h.tail k (by omega) hlt
    · exact hfree
  first := by
    intro t hfits
    have hstart := h.start_le hfits (hnone t hfits)
    omega

/-- A run that has not ended before a cell does not end with it, unless the count is complete. -/
theorem Scanned.not_end (h : Scanned used count next counter) (hcount : counter + 1 ≠ count)
    (hfits : Fits used size count start) (hnone : next < start + count) : next + 1 < start + count := by
  have hstart := h.start_le hfits hnone
  have hle := h.counter_le
  have hlt := h.counter_lt
  omega

theorem Fits.not_end (hfits : Fits used size count start) (hcount : 0 < count)
    (hused : used next = true) (hnone : next < start + count) : next + 1 < start + count := by
  by_contra hend
  have hfree := hfits.2 next (by omega) hnone
  rw [hfree] at hused
  exact Bool.false_ne_true hused

end FirstFit
