import Mathlib.Data.Nat.Init
import Mathlib.Tactic.Common

/-! Bytes that hold two decimal digits, one in each half. -/

namespace Bcd

/-- Both halves of the byte are decimal digits. -/
structure Valid (b : UInt8) : Prop where
  low : b.toNat % 16 < 10
  high : b.toNat / 16 < 10

instance : DecidablePred Valid := fun b =>
  decidable_of_iff (b.toNat % 16 < 10 ∧ b.toNat / 16 < 10) ⟨fun ⟨l, h⟩ => ⟨l, h⟩, fun ⟨l, h⟩ => ⟨l, h⟩⟩

/-- The number that the two digits stand for. -/
def value (b : UInt8) : ℕ := 10 * (b.toNat / 16) + b.toNat % 16

/-- The byte of a number of two digits. -/
def encode (n : ℕ) : UInt8 := UInt8.ofNat (16 * (n / 10) + n % 10)

variable {n : ℕ} {b : UInt8}

theorem encode_toNat (hn : n < 100) : (encode n).toNat = 16 * (n / 10) + n % 10 :=
  UInt8.toNat_ofNat_of_lt' (show 16 * (n / 10) + n % 10 < 2 ^ 8 by omega)

theorem encode_valid (hn : n < 100) : Valid (encode n) := by
  have hnat := encode_toNat hn
  constructor <;> omega

@[simp] theorem value_encode (hn : n < 100) : value (encode n) = n := by
  have hnat := encode_toNat hn
  unfold value
  omega

theorem Valid.value_lt (h : Valid b) : value b < 100 := by
  obtain ⟨hlow, hhigh⟩ := h
  unfold value
  omega

end Bcd
