import Mathlib.Tactic

/-! The rational numbers that the bits of a double stand for. -/

namespace Binary64

def negative (x : UInt64) : Prop := 2 ^ 63 ≤ x.toNat

instance : DecidablePred negative := fun x => inferInstanceAs (Decidable (2 ^ 63 ≤ x.toNat))

def exponent (x : UInt64) : ℕ := x.toNat / 2 ^ 52 % 2 ^ 11

def fraction (x : UInt64) : ℕ := x.toNat % 2 ^ 52

/-- Neither an infinity nor a NaN -/
def Finite (x : UInt64) : Prop := exponent x ≠ 2047

/-- An exponent of zero makes the double subnormal. -/
def magnitude (x : UInt64) : ℚ :=
  if exponent x = 0 then fraction x / 2 ^ 1074 else (2 ^ 52 + fraction x) * 2 ^ exponent x / 2 ^ 1075

def value (x : UInt64) : ℚ := if negative x then -magnitude x else magnitude x

/-- The same number with the other sign bit -/
def neg (x : UInt64) : UInt64 := x + 0x8000000000000000

variable (x : UInt64)

theorem neg_toNat : (neg x).toNat = (x.toNat + 2 ^ 63) % 2 ^ 64 := by
  unfold neg
  rw [UInt64.toNat_add]
  rfl

theorem negative_neg : negative (neg x) ↔ ¬ negative x := by
  have hlt := x.toNat_lt
  unfold negative
  rw [neg_toNat]
  omega

theorem exponent_neg : exponent (neg x) = exponent x := by
  have hlt := x.toNat_lt
  unfold exponent
  rw [neg_toNat]
  omega

theorem fraction_neg : fraction (neg x) = fraction x := by
  have hlt := x.toNat_lt
  unfold fraction
  rw [neg_toNat]
  omega

theorem finite_neg : Finite (neg x) ↔ Finite x := by
  unfold Finite
  rw [exponent_neg]

theorem value_neg : value (neg x) = -value x := by
  have hmagnitude : magnitude (neg x) = magnitude x := by
    unfold magnitude
    rw [exponent_neg, fraction_neg]
  unfold value
  rw [hmagnitude]
  by_cases hneg : negative x
  · rw [if_neg (fun h => (negative_neg x).mp h hneg), if_pos hneg, neg_neg]
  · rw [if_pos ((negative_neg x).mpr hneg), if_neg hneg]

end Binary64
