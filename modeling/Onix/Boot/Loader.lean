import Onix.Boot.Disk
import Onix.Memory.Regions

namespace onix.Boot

open Words Ata

/-- The service of the firmware that tells of the memory. -/
structure Firmware where
  /-- from a number that stands for a place in its list, the entry there and the number of the next place, zero behind
  the last one; `none` where it sets the carry flag -/
  entry : u32 → Option (ards_t × u32)
  /-- how far down a call uses the stack, which boot.asm begins at 0x7c00, and what it leaves there -/
  bottom : ℕ
  stack : u32 → Ram → Ram
  room : bottom ≤ 0x7bf8
  apart : ∀ ebx ram (a : u32), a.toNat < bottom ∨ 0x7c00 ≤ a.toNat → stack ebx ram a = ram a

/-- The entry as the firmware stores it, in twenty bytes -/
def store_ards (ram : Ram) (ptr : u32) (ards : ards_t) : Ram :=
  let ram := put ram ptr ards.base.toUInt32
  let ram := put ram (ptr + 4) (ards.base >>> 32).toUInt32
  let ram := put ram (ptr + 8) ards.size.toUInt32
  let ram := put ram (ptr + 12) (ards.size >>> 32).toUInt32
  put ram (ptr + 16) ards.type

/-- Where the code of the loader ends with a message, or with a jump into the kernel. -/
inductive Handover where
  | error
  | kernel (eax ebx : u32) (m : Machine)

section Code

variable (int_15 : Firmware) (ards_count : u32) (mbr loader : Labels)

/-- The loop of `detect_memory`, for at most so many calls; the firmware stores its entry at `di`, which counts
in 16 bits. Behind an entry over the stack that it returns by, it is `none`. -/
def detect_memory_loop : ℕ → u32 → u32 → Ram → Option (Option Ram)
  | 0, _, _, _ => none
  | calls + 1, ebx, edi, ram =>
    match int_15.entry ebx with
    | none => some none
    | some (ards, ebx') =>
      let di := edi &&& 0xffff
      if di.toNat + 20 ≤ int_15.bottom ∨ 0x7c00 ≤ di.toNat then
        let ram := store_ards (int_15.stack ebx ram) di ards
        let edi := (edi &&& 0xffff0000) ||| ((edi + 20) &&& 0xffff)
        let ram := put ram ards_count (word ram ards_count + 1)
        if ebx' ≠ 0 then detect_memory_loop calls ebx' edi ram else some (some ram)
      else none

/-- `ards_buffer` is behind `ards_count`. -/
def detect_memory (calls : ℕ) (ram : Ram) : Option (Option Ram) :=
  detect_memory_loop int_15 ards_count calls 0 (ards_count + 4) ram

/-- boot.asm, up to the jump to the loader; `none` for its error. -/
def boot (polls : ℕ) (m : Machine) : Option (Option Machine) := do
  let (_, m) ← read_disk (boot_code mbr) polls 0x1000 2 4 m
  if m.ram 0x1000 = 0xaa ∧ m.ram 0x1001 = 0x55 then some (some m) else some none

/-- The part of loader.asm in protected mode -/
def protected_mode (polls : ℕ) (m : Machine) : Option Handover := do
  let (_, m) ← read_disk (loader_code loader) polls 0x10000 10 200 m
  some (.kernel 0x20231209 ards_count m)

/-- boot.asm and loader.asm, with enough polls of the drive and calls of the firmware. -/
def start (polls calls : ℕ) (m : Machine) : Option Handover := do
  match ← boot mbr polls m with
  | none => some .error
  | some m =>
    match ← detect_memory int_15 ards_count calls m.ram with
    | none => some .error
    | some ram => protected_mode ards_count loader polls { m with ram }

end Code

/-- The list of the firmware, from a place on -/
inductive Lists (int_15 : Firmware) : u32 → List ards_t → Prop where
  | last {ebx : u32} {ards : ards_t} (h : int_15.entry ebx = some (ards, 0)) : Lists int_15 ebx [ards]
  | next {ebx ebx' : u32} {ards : ards_t} {l : List ards_t} (h : int_15.entry ebx = some (ards, ebx')) (hne : ebx' ≠ 0)
      (hrest : Lists int_15 ebx' l) : Lists int_15 ebx (ards :: l)

section Entries

variable {ram : Ram} {ptr b : u32} {ards : ards_t}

end Entries

section Detect

variable {int_15 : Firmware} {ards_count : u32}

variable {edi : u32} (hlow : ards_count.toNat + 4 ≤ edi.toNat)
include hlow

end Detect

section Start

variable {int_15 : Firmware} {ards_count : u32} {mbr loader : Labels}

/-- The image of the loader in the sectors behind the first one: the number it begins with, and a count of zero at the
place of `ards_count`. -/
structure Image (sectors : ℕ → ℕ → u16) (ards_count : u32) : Prop where
  number : sectors 2 0 = 0x55aa
  inside : 0x1000 ≤ ards_count.toNat ∧ ards_count.toNat + 4 ≤ 0x1800
  zero : ∀ k < 4, byte_of sectors 2 (ards_count.toNat - 0x1000 + k) = 0

end Start

end onix.Boot
