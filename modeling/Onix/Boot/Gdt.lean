import Onix.Console.Write
import Mathlib.Data.List.GetD

namespace onix

open Words

def GDT_SIZE : ℕ := 128

/-- `descriptor_t`, with the bit fields in their order -/
structure descriptor_t where
  limit_low : BitVec 16
  base_low : BitVec 24
  type : BitVec 4
  segment : BitVec 1
  DPL : BitVec 2
  present : BitVec 1
  limit_high : BitVec 4
  available : BitVec 1
  long_mode : BitVec 1
  big : BitVec 1
  granularity : BitVec 1
  base_high : BitVec 8
  deriving DecidableEq, Repr

/-- `selector_t` -/
structure selector_t where
  PRL : BitVec 2
  TI : BitVec 1
  index : BitVec 13
  deriving DecidableEq, Repr

/-- `pointer_t` -/
structure pointer_t where
  limit : u16
  base : u32
  deriving DecidableEq, Repr

/-- The descriptor that eight bytes are, the one at the lowest address first. -/
def descriptor_of (b0 b1 b2 b3 b4 b5 b6 b7 : BitVec 8) : descriptor_t where
  limit_low := b1 ++ b0
  base_low := b4 ++ b3 ++ b2
  type := b5.extractLsb' 0 4
  segment := b5.extractLsb' 4 1
  DPL := b5.extractLsb' 5 2
  present := b5.extractLsb' 7 1
  limit_high := b6.extractLsb' 0 4
  available := b6.extractLsb' 4 1
  long_mode := b6.extractLsb' 5 1
  big := b6.extractLsb' 6 1
  granularity := b6.extractLsb' 7 1
  base_high := b7

def descriptor_at (ram : Ram) (a : u32) : descriptor_t :=
  descriptor_of (ram a).toBitVec (ram (a + 1)).toBitVec (ram (a + 2)).toBitVec (ram (a + 3)).toBitVec
    (ram (a + 4)).toBitVec (ram (a + 5)).toBitVec (ram (a + 6)).toBitVec (ram (a + 7)).toBitVec

def descriptor_t.base (d : descriptor_t) : BitVec 32 := d.base_high ++ d.base_low

def descriptor_t.limit (d : descriptor_t) : BitVec 20 := d.limit_high ++ d.limit_low

/-- The memory, the register of the processor that `sgdt` and `lgdt` are about, and the variable `gdt_ptr`. -/
structure Segmentation where
  ram : Ram
  gdtr : pointer_t
  gdt_ptr : pointer_t

namespace Segmentation

def sgdt (s : Segmentation) : Segmentation := { s with gdt_ptr := s.gdtr }

def lgdt (s : Segmentation) : Segmentation := { s with gdtr := s.gdt_ptr }

/-- What a selector denotes: a descriptor of the table, if it lies in front of the limit. -/
def denotes (s : Segmentation) (selector : selector_t) : Option descriptor_t :=
  if selector.TI = 0 ∧ 8 * selector.index.toNat + 7 ≤ s.gdtr.limit.toNat then
    some (descriptor_at s.ram (s.gdtr.base + UInt32.ofNat (8 * selector.index.toNat)))
  else none

end Segmentation

def memcpy (dest src : u32) : ℕ → Ram → Ram
  | 0, ram => ram
  | count + 1, ram => memcpy (dest + 1) (src + 1) count (Function.update ram dest (ram src))

/-- `gdt` is the address of the array. -/
def gdt_init (gdt : u32) (s : Segmentation) : Segmentation :=
  let s := s.sgdt
  let s := { s with ram := memcpy gdt s.gdt_ptr.base s.gdt_ptr.limit.toNat s.ram }
  let s := { s with gdt_ptr := { s.gdt_ptr with base := gdt } }
  let s := { s with gdt_ptr := { s.gdt_ptr with limit := UInt16.ofNat (8 * GDT_SIZE) - 1 } }
  s.lgdt

section Copy

theorem memcpy_eq_move (dest src : u32) (count : ℕ) (ram : Ram) :
    memcpy dest src count ram = move ram dest src count := by
  induction count generalizing dest src ram with
  | zero => rfl
  | succ count ih => exact ih (dest + 1) (src + 1) (Function.update ram dest (ram src))

/-- A descriptor is given by its eight bytes. -/
theorem descriptor_at_congr {ram ram' : Ram} {a a' : u32}
    (h : ∀ k : u32, k.toNat < 8 → ram' (a' + k) = ram (a + k)) : descriptor_at ram' a' = descriptor_at ram a := by
  have h0 := h 0 (by decide)
  rw [UInt32.add_zero, UInt32.add_zero] at h0
  unfold descriptor_at
  rw [h0, h 1 (by decide), h 2 (by decide), h 3 (by decide), h 4 (by decide), h 5 (by decide), h 6 (by decide),
    h 7 (by decide)]

/-- The last byte is the highest byte of the base, and no part of another field. -/
theorem descriptor_at_last {ram ram' : Ram} {a a' : u32}
    (h : ∀ k : u32, k.toNat < 7 → ram' (a' + k) = ram (a + k)) (hlast : ram' (a' + 7) = 0) :
    descriptor_at ram' a' = { descriptor_at ram a with base_high := 0 } := by
  have h0 := h 0 (by decide)
  rw [UInt32.add_zero, UInt32.add_zero] at h0
  unfold descriptor_at
  rw [h0, h 1 (by decide), h 2 (by decide), h 3 (by decide), h 4 (by decide), h 5 (by decide), h 6 (by decide), hlast]
  rfl

end Copy

section Table

/-- A boot-time table of `n` descriptors, as the processor knows it, and the kernel's own array: static, so it is
zero and apart from the table. -/
structure Booted (gdt : u32) (n : ℕ) (s : Segmentation) : Prop where
  limit : s.gdtr.limit.toNat = 8 * n - 1
  apart : ∀ i < 8 * n, ∀ j < 8 * GDT_SIZE, s.gdtr.base + UInt32.ofNat i ≠ gdt + UInt32.ofNat j
  zero : ∀ j < 8 * GDT_SIZE, s.ram (gdt + UInt32.ofNat j) = 0

/-- The table has been moved without a change: its bytes, what its selectors denote, and nothing behind it. -/
structure Moved (gdt : u32) (n : ℕ) (s s' : Segmentation) : Prop where
  bytes : ∀ i < 8 * n, s'.ram (gdt + UInt32.ofNat i) = s.ram (s.gdtr.base + UInt32.ofNat i)
  denotes : ∀ selector : selector_t, selector.index.toNat < n → s'.denotes selector = s.denotes selector
  rest : ∀ i, 8 * n ≤ i → i < 8 * GDT_SIZE → s'.ram (gdt + UInt32.ofNat i) = 0

variable {gdt : u32} {n : ℕ} {s : Segmentation}

theorem gdt_init_gdtr (gdt : u32) (s : Segmentation) : (gdt_init gdt s).gdtr = ⟨1023, gdt⟩ := rfl

/-- Every byte of the array but the last one of the table is right. -/
theorem Booted.byte (h : Booted gdt n s) (hn : 1 ≤ n) (hsize : n ≤ GDT_SIZE) {i : ℕ} (hi : i < 8 * GDT_SIZE) :
    (gdt_init gdt s).ram (gdt + UInt32.ofNat i) =
      if i < 8 * n - 1 then s.ram (s.gdtr.base + UInt32.ofNat i) else 0 := by
  have hGDT : 8 * GDT_SIZE = 1024 := rfl
  have hram : (gdt_init gdt s).ram = move s.ram gdt s.gdtr.base (8 * n - 1) := by
    rw [← h.limit, ← memcpy_eq_move]
    rfl
  have hdistance : gdt + UInt32.ofNat i - gdt = UInt32.ofNat i := by
    rw [UInt32.add_comm, UInt32.add_sub_cancel]
  rw [hram, move_apply (by omega) _ _ _ _ fun j hj k hk => h.apart j (by omega) k (by omega), hdistance,
    toNat_ofNat (by omega)]
  by_cases hin : i < 8 * n - 1
  · rw [if_pos hin, if_pos hin]
  · rw [if_neg hin, if_neg hin]
    exact h.zero i hi

theorem Booted.rest (h : Booted gdt n s) (hn : 1 ≤ n) (hsize : n ≤ GDT_SIZE) {i : ℕ} (hi : 8 * n ≤ i)
    (hi' : i < 8 * GDT_SIZE) : (gdt_init gdt s).ram (gdt + UInt32.ofNat i) = 0 := by
  rw [h.byte hn hsize hi', if_neg (by omega)]

theorem offset_add (a : u32) (m : ℕ) (k : u32) : a + UInt32.ofNat m + k = a + UInt32.ofNat (k.toNat + m) := by
  rw [← add_add_ofNat, UInt32.ofNat_toNat]

/-- The bytes of descriptor `i`, up to the byte where the copy ends -/
theorem Booted.descriptor_byte (h : Booted gdt n s) (hsize : n ≤ GDT_SIZE) {i : ℕ} (hi : i < n) {k : u32}
    (hk : k.toNat + 8 * i < 8 * n - 1) :
    (gdt_init gdt s).ram (gdt + UInt32.ofNat (8 * i) + k) = s.ram (s.gdtr.base + UInt32.ofNat (8 * i) + k) := by
  rw [offset_add, offset_add, h.byte (by omega) hsize (by omega), if_pos hk]

/-- The descriptors in front of the last one are moved as they are. -/
theorem Booted.descriptor (h : Booted gdt n s) (hsize : n ≤ GDT_SIZE) {i : ℕ} (hi : i + 1 < n) :
    descriptor_at (gdt_init gdt s).ram (gdt + UInt32.ofNat (8 * i)) =
      descriptor_at s.ram (s.gdtr.base + UInt32.ofNat (8 * i)) :=
  descriptor_at_congr fun _ hk => h.descriptor_byte hsize (by omega) (by omega)

/-- The last descriptor loses the highest byte of its base, whatever the byte was. -/
theorem Booted.last_descriptor (h : Booted gdt n s) (hn : 1 ≤ n) (hsize : n ≤ GDT_SIZE) :
    descriptor_at (gdt_init gdt s).ram (gdt + UInt32.ofNat (8 * (n - 1))) =
      { descriptor_at s.ram (s.gdtr.base + UInt32.ofNat (8 * (n - 1))) with base_high := 0 } := by
  have hlast : gdt + UInt32.ofNat (8 * (n - 1)) + 7 = gdt + UInt32.ofNat (8 * n - 1) := by
    have hsplit : 7 + 8 * (n - 1) = 8 * n - 1 := by omega
    rw [offset_add, ← hsplit]
    rfl
  refine descriptor_at_last (fun k hk => h.descriptor_byte hsize (by omega) (by omega)) ?_
  rw [hlast, h.byte hn hsize (by omega), if_neg (Nat.lt_irrefl _)]

/-- A selector of the table denotes what it did where its descriptor is the same: it lies in front of both limits. -/
theorem Booted.denotes (h : Booted gdt n s) (hsize : n ≤ GDT_SIZE) {selector : selector_t}
    (hindex : selector.index.toNat < n)
    (hsame : descriptor_at (gdt_init gdt s).ram (gdt + UInt32.ofNat (8 * selector.index.toNat)) =
      descriptor_at s.ram (s.gdtr.base + UInt32.ofNat (8 * selector.index.toNat))) :
    (gdt_init gdt s).denotes selector = s.denotes selector := by
  have hGDT : GDT_SIZE = 128 := rfl
  have hlimit : (gdt_init gdt s).gdtr.limit.toNat = 1023 := rfl
  have hold := h.limit
  unfold Segmentation.denotes
  rw [hlimit, hold, gdt_init_gdtr, hsame]
  by_cases hTI : selector.TI = 0
  · rw [if_pos ⟨hTI, by omega⟩, if_pos ⟨hTI, by omega⟩]
  · rw [if_neg (fun hcond => hTI hcond.1), if_neg (fun hcond => hTI hcond.1)]

/-- For every table, the selectors of all descriptors but the last denote what they did. -/
theorem gdt_init_denotes (h : Booted gdt n s) (hsize : n ≤ GDT_SIZE) {selector : selector_t}
    (hindex : selector.index.toNat + 1 < n) : (gdt_init gdt s).denotes selector = s.denotes selector :=
  h.denotes hsize (by omega) (h.descriptor hsize hindex)

/-- The table is moved without a change if and only if its last byte is zero. -/
theorem gdt_init_moves_iff (h : Booted gdt n s) (hn : 1 ≤ n) (hsize : n ≤ GDT_SIZE) :
    Moved gdt n s (gdt_init gdt s) ↔ s.ram (s.gdtr.base + UInt32.ofNat (8 * n - 1)) = 0 := by
  have hlast := h.byte hn hsize (show 8 * n - 1 < 8 * GDT_SIZE by omega)
  rw [if_neg (Nat.lt_irrefl _)] at hlast
  constructor
  · intro hmoved
    rw [← hmoved.bytes (8 * n - 1) (by omega), hlast]
  · intro hzero
    have hbytes : ∀ i < 8 * n,
        (gdt_init gdt s).ram (gdt + UInt32.ofNat i) = s.ram (s.gdtr.base + UInt32.ofNat i) := by
      intro i hi
      rw [h.byte hn hsize (by omega)]
      by_cases hin : i < 8 * n - 1
      · rw [if_pos hin]
      · obtain rfl : i = 8 * n - 1 := by omega
        rw [if_neg hin, hzero]
    refine ⟨hbytes, fun selector hindex => ?_, fun i hi hi' => h.rest hn hsize hi hi'⟩
    refine h.denotes hsize hindex (descriptor_at_congr fun k hk => ?_)
    rw [offset_add, offset_add, hbytes _ (by omega)]

end Table

section Shipped

/-- A memory with a table, and zeros everywhere else. -/
def table_at (base : u32) (table : List u8) : Segmentation where
  ram := fun a => table.getD (a - base).toNat 0
  gdtr := ⟨UInt16.ofNat (table.length - 1), base⟩
  gdt_ptr := ⟨0, 0⟩

/-- A table in front of the array is one that `gdt_init` can find. -/
theorem table_at_booted {base gdt : u32} {table : List u8} {n : ℕ} (hlength : table.length = 8 * n)
    (hn : 8 * n ≤ 8 * GDT_SIZE) (hbase : base.toNat + 8 * n ≤ gdt.toNat) (hgdt : gdt.toNat + 8 * GDT_SIZE ≤ 2 ^ 32) :
    Booted gdt n (table_at base table) := by
  have hGDT : 8 * GDT_SIZE = 1024 := rfl
  constructor
  · change (UInt16.ofNat (table.length - 1)).toNat = 8 * n - 1
    rw [hlength, UInt16.toNat_ofNat_of_lt' (show 8 * n - 1 < 2 ^ 16 by omega)]
  · intro i hi j hj heq
    change base + UInt32.ofNat i = gdt + UInt32.ofNat j at heq
    have hnat := congrArg UInt32.toNat heq
    rw [add_ofNat_toNat (by omega), add_ofNat_toNat (by omega)] at hnat
    omega
  · intro j hj
    have haddr : (gdt + UInt32.ofNat j).toNat = gdt.toNat + j := add_ofNat_toNat (by omega)
    have hdistance : table.length ≤ (gdt + UInt32.ofNat j - base).toNat := by
      rw [UInt32.toNat_sub_of_le _ _ (UInt32.le_iff_toNat_le.mpr (by omega)), haddr]
      omega
    exact List.getD_eq_default _ _ hdistance

/-- The table of loader.asm: no descriptor, code and data. -/
def loader_table : List u8 :=
  [0, 0, 0, 0, 0, 0, 0, 0,
    0xff, 0xff, 0, 0, 0, 0x9a, 0xcf, 0,
    0xff, 0xff, 0, 0, 0, 0x92, 0xcf, 0]

theorem gdt_init_moves_loader_table :
    Moved 0x14000 3 (table_at 0x1200 loader_table) (gdt_init 0x14000 (table_at 0x1200 loader_table)) :=
  (gdt_init_moves_iff (table_at_booted rfl (by decide) (by decide) (by decide)) (by decide) (by decide)).mpr rfl

/-- A table whose last descriptor is a data segment at 0xfd000000. -/
def framebuffer_table : List u8 :=
  [0, 0, 0, 0, 0, 0, 0, 0,
    0xff, 0xff, 0, 0, 0, 0x92, 0x4f, 0xfd]

theorem gdt_init_loses_base : Booted 0x14000 2 (table_at 0x1200 framebuffer_table) ∧
    ¬Moved 0x14000 2 (table_at 0x1200 framebuffer_table) (gdt_init 0x14000 (table_at 0x1200 framebuffer_table)) ∧
    ((table_at 0x1200 framebuffer_table).denotes ⟨0, 0, 1⟩).map (·.base) = some 0xfd000000 ∧
    ((gdt_init 0x14000 (table_at 0x1200 framebuffer_table)).denotes ⟨0, 0, 1⟩).map (·.base) = some 0 := by
  have hbooted : Booted 0x14000 2 (table_at 0x1200 framebuffer_table) :=
    table_at_booted rfl (by decide) (by decide) (by decide)
  have hbefore : ((table_at 0x1200 framebuffer_table).denotes ⟨0, 0, 1⟩).map (·.base) = some 0xfd000000 := by decide
  have hafter : ((gdt_init 0x14000 (table_at 0x1200 framebuffer_table)).denotes ⟨0, 0, 1⟩).map (·.base) = some 0 := by
    decide
  refine ⟨hbooted, fun hmoved => ?_, hbefore, hafter⟩
  have hsame := hmoved.denotes ⟨0, 0, 1⟩ (by decide)
  rw [hsame, hbefore] at hafter
  exact absurd hafter (by decide)

end Shipped

end onix
