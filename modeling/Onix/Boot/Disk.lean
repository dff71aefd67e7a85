import Onix.Boot.Code
import Onix.Library.Ata

namespace onix.Boot

open Words Ata

/-- The drive and the memory, as the code of boot.asm and loader.asm finds them. -/
structure Machine where
  drive : Drive
  ram : Ram

/-- `out dx, al`, for the registers of the drive -/
def out (dx : u16) (al : u8) (d : Drive) : Drive :=
  if dx = 0x1f2 then { d with count := al }
  else if dx = 0x1f3 then { d with low := al }
  else if dx = 0x1f4 then { d with mid := al }
  else if dx = 0x1f5 then { d with high := al }
  else if dx = 0x1f6 then { d with device := al }
  else if dx = 0x1f7 then d.command al
  else d

/-- The subroutine of `read_disk` that waits for a sector; `none` where the polls have not been enough. -/
def waits : ℕ → Drive → Option Drive
  | 0, _ => none
  | polls + 1, d =>
    let (al, d) := d.status
    if al &&& 0b10001000 = 0b00001000 then some d else waits polls d

section Code

variable (c : Code)

/-- The loop of the subroutine of `read_disk` that reads a sector, for the turns that its count gives. -/
def readw : ℕ → u32 → Machine → Option (u32 × Machine)
  | 0, edi, m => some (edi, m)
  | turns + 1, edi, m => do
    let (ax, drive) := m.drive.data
    let ram ← c.store_ax m.ram edi ax
    readw turns (edi + 2) { drive, ram }

/-- That subroutine: what it counts down is not zero, but with 32 bits not only what it has set. -/
def reads (edi ecx : u32) (m : Machine) : Option (u32 × u32 × Machine) := do
  let ecx := set_cx ecx 256
  let (edi, m) ← readw c (c.bits.count ecx) edi m
  some (edi, c.bits.ended ecx, m)

/-- A turn of the loop of `read_disk`, up to the `loop` -/
def turn (polls : ℕ) (edi ecx : u32) (m : Machine) : Option (u32 × u32 × Machine) := do
  let ram := c.call c.waited (c.push_cx m.ram ecx)
  let drive ← waits polls m.drive
  let (edi, ecx, m) ← reads c edi ecx { drive, ram := c.call c.taken ram }
  some (edi, c.pop_cx m.ram ecx, m)

/-- The loop of `read_disk`, for at most so many turns -/
def read (polls : ℕ) : ℕ → u32 → u32 → Machine → Option (u32 × Machine)
  | 0, _, _, _ => none
  | turns + 1, edi, ecx, m => do
    let (edi, ecx, m) ← turn c polls edi ecx m
    let ecx := c.bits.loop ecx
    if c.bits.count ecx ≠ 0 then read polls turns edi ecx m else some (edi, m)

/-- `read_disk`, which boot.asm has with 16 bits and loader.asm with 32; `none` where so many sectors, and so many polls
at each, have not been enough, or where it comes to a store beyond its segment or over what it goes on by. -/
def read_disk (polls : ℕ) (edi ecx : u32) (bl : u8) (m : Machine) : Option (u32 × Machine) :=
  let d := out 0x1f2 bl m.drive
  let d := out 0x1f3 ecx.toUInt8 d
  let ecx := ecx >>> 8
  let d := out 0x1f4 ecx.toUInt8 d
  let ecx := ecx >>> 8
  let d := out 0x1f5 ecx.toUInt8 d
  let ecx := ecx >>> 8
  let cl := ecx.toUInt8 &&& 0b1111
  let d := out 0x1f6 (0b11100000 ||| cl) d
  let d := out 0x1f7 0x20 d
  let ecx := bl.toUInt32
  read c polls polls edi ecx { m with drive := d }

end Code

/-- A byte of the drive, counted from a sector on -/
def byte_of (sectors : ℕ → ℕ → u16) (sector k : ℕ) : u8 :=
  let word := sectors (sector + k / 512) (k % 512 / 2)
  if k % 2 = 0 then word.toUInt8 else (word >>> 8).toUInt8

/-- Some bytes have been stored from an address on, and no others but spare ones. -/
def Loaded (spare : u32 → Prop) (ram ram' : Ram) (edi : u32) (n : ℕ) (byte : ℕ → u8) : Prop :=
  ∀ a, ¬ spare a → ram' a = if (a - edi).toNat < n then byte (a - edi).toNat else ram a

section Loaded

variable {spare : u32 → Prop} {ram ram₁ ram₂ : Ram} {edi : u32} {n n' : ℕ} {byte : ℕ → u8}

/-- What is stored from further on, after what is stored before it. -/
theorem Loaded.append (h : Loaded spare ram ram₁ edi n byte)
    (h' : Loaded spare ram₁ ram₂ (edi + UInt32.ofNat n) n' fun k => byte (n + k)) (hsize : n + n' < 2 ^ 32) :
    Loaded spare ram ram₂ edi (n + n') byte := fun a ha => by
  have hlt := (a - edi).toNat_lt
  rw [h' a ha, h a ha, distance_from (by omega)]
  dsimp only
  by_cases hn : n ≤ (a - edi).toNat
  · rw [if_pos hn, Nat.add_sub_cancel' hn]
    split_ifs <;> first | rfl | omega
  · rw [if_neg hn]
    split_ifs <;> first | rfl | omega

/-- What has been stored to spare bytes before makes no difference. -/
theorem Loaded.behind (h : Loaded spare ram₁ ram₂ edi n byte) (hspare : ∀ a, ¬ spare a → ram₁ a = ram a) :
    Loaded spare ram ram₂ edi n byte := fun a ha => by
  rw [h a ha, hspare a ha]

end Loaded

section Sectors

variable {c : Code} {spare : u32 → Prop} {m : Machine} {sectors : ℕ → ℕ → u16} {sector left taken : ℕ}

end Sectors

section Turns

variable {c : Code} {polls turns : ℕ} {edi edi' ecx ecx' : u32} {m m' : Machine}

end Turns

section Disk

variable {m : Machine}

end Disk

end onix.Boot
