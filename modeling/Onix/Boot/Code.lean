import Onix.Console.Write
import Onix.Library.Words

namespace onix.Boot

open Words

/-- Code of 16 or of 32 bits -/
inductive Bits where
  | bits16
  | bits32
  deriving DecidableEq

/-- `mov cx` and `pop cx` leave the upper half of `ecx` as it is. -/
def set_cx (ecx : u32) (cx : u16) : u32 := (ecx &&& 0xffff0000) ||| cx.toUInt32

namespace Bits

/-- The bytes of an address that `call` pushes -/
def address : Bits → ℕ
  | bits16 => 2
  | bits32 => 4

/-- The last offset that there is in a segment -/
def limit : Bits → ℕ
  | bits16 => 0xffff
  | bits32 => 0xffffffff

/-- `loop` counts in `cx`, or in all of `ecx`. -/
def count : Bits → u32 → ℕ
  | bits16, ecx => ecx.toUInt16.toNat
  | bits32, ecx => ecx.toNat

/-- `loop` counts down before it looks whether it is to go on. -/
def loop : Bits → u32 → u32
  | bits16, ecx => set_cx ecx (ecx.toUInt16 - 1)
  | bits32, ecx => ecx - 1

/-- `ecx` where a `loop` has come to its end -/
def ended : Bits → u32 → u32
  | bits16, ecx => set_cx ecx 0
  | bits32, _ => 0

end Bits

/-- The addresses behind the calls of `.waits` and `.reads` in a `read_disk`, as it is assembled -/
structure Labels where
  waited : u32
  taken : u32

/-- The code of a `read_disk`, with its place and that of its stack. -/
structure Code extends Labels where
  bits : Bits
  text : u32
  size : ℕ
  /-- the stack pointer at the entry, where the address to return to is -/
  esp : u32
  /-- it does not come around the end of its segment -/
  room : 2 + bits.address ≤ esp.toNat
  segment : bits = .bits16 → esp.toNat + 2 ≤ 2 ^ 16

namespace Code

variable (c : Code)

/-- Where `push cx` stores -/
def cx_at : u32 := c.esp - 2

/-- Where the calls behind `push cx` store the address to return to -/
def bottom : u32 := c.cx_at - UInt32.ofNat c.bits.address

def push_cx (ram : Ram) (ecx : u32) : Ram := put_half ram c.cx_at ecx.toUInt16

def pop_cx (ram : Ram) (ecx : u32) : u32 := set_cx ecx (half ram c.cx_at)

/-- `call`, with the address behind it -/
def call (back : u32) (ram : Ram) : Ram :=
  match c.bits with
  | .bits16 => put_half ram c.bottom back.toUInt16
  | .bits32 => put ram c.bottom back

/-- The bytes that `push` and `call` store -/
def Below (a : u32) : Prop := (a - c.bottom).toNat < c.bits.address + 2

/-- The bytes that the code goes on by: its own, and those of the stack with the address of its caller. -/
def Kept (a : u32) : Prop := (a - c.text).toNat < c.size ∨ (a - c.bottom).toNat < 2 * c.bits.address + 2

instance : DecidablePred c.Kept := fun _ => inferInstanceAs (Decidable (_ ∨ _))

/-- A word is stored within the segment, and not over what the code goes on by. -/
def Stores (a : u32) : Prop := a.toNat < c.bits.limit ∧ ¬ c.Kept a ∧ ¬ c.Kept (a + 1)

instance : DecidablePred c.Stores := fun _ => inferInstanceAs (Decidable (_ ∧ _ ∧ _))

/-- `mov [edi], ax`; `none` where the code that is read does not tell what happens next. -/
def store_ax (ram : Ram) (edi : u32) (ax : u16) : Option Ram :=
  if c.Stores edi then some (put_half ram edi ax) else none

end Code

/-- That of boot.asm, with the address behind its call in the stack -/
def boot_code (labels : Labels) : Code where
  toLabels := labels
  bits := .bits16
  text := 0x7c00
  size := 512
  esp := 0x7bfe
  room := by decide
  segment := by decide

/-- That of loader.asm, in the four sectors that boot.asm has read -/
def loader_code (labels : Labels) : Code where
  toLabels := labels
  bits := .bits32
  text := 0x1000
  size := 2048
  esp := 0xfffc
  room := by decide
  segment := by decide

/-- From further on, the distance to what lies behind is less, and to what lies before it is around the end. -/
theorem distance_from {a base : u32} {n : ℕ} (hn : n < 2 ^ 32) :
    (a - (base + UInt32.ofNat n)).toNat =
      if n ≤ (a - base).toNat then (a - base).toNat - n else (a - base).toNat + (2 ^ 32 - n) := by
  have hsplit : a - (base + UInt32.ofNat n) = a - base - UInt32.ofNat n := by grind
  have hlt := (a - base).toNat_lt
  rw [hsplit, UInt32.toNat_sub, UInt32.toNat_ofNat_of_lt' hn]
  split_ifs <;> omega

section Areas

variable {p b : u32}

end Areas

section Count

variable {ecx : u32}

/-- The halves of what fits into one -/
theorem low_half (h : ecx.toNat < 2 ^ 16) : ecx &&& 0xffff = ecx ∧ ecx &&& 0xffff0000 = 0 := by
  have hmask : (0xffff : u32).toNat = 2 ^ 16 - 1 := rfl
  have hlow : ecx &&& 0xffff = ecx := by
    rw [← UInt32.toNat_inj, UInt32.toNat_and, hmask, Nat.and_two_pow_sub_one_eq_mod, Nat.mod_eq_of_lt h]
  have hnone : (0xffff : u32) &&& 0xffff0000 = 0 := rfl
  refine ⟨hlow, ?_⟩
  rw [← hlow, UInt32.and_assoc, hnone, UInt32.and_zero]

namespace Bits

variable (b : Bits)

end Bits

end Count

namespace Code

variable {c : Code} {ram : Ram} {a b : u32}

theorem address_le (c : Code) : 2 ≤ c.bits.address ∧ c.bits.address ≤ 4 := by
  cases c.bits <;> decide

theorem Below.kept (h : c.Below b) : c.Kept b := by
  have haddress := c.address_le
  unfold Below at h
  exact .inr (by omega)

end Code

section Chain

variable {labels : Labels} {a : u32}

end Chain

end onix.Boot
