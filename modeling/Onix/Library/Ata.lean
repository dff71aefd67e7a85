import Mathlib.Data.BitVec
import Mathlib.Tactic

/-! A drive that is read through ports, a word of a sector at a time.

Before each sector the drive is found busy some times, with statuses that it chooses; what a program reads does not
depend on them. -/

namespace Ata

/-- A status of a drive that has no word to give. -/
abbrev Unready := { status : UInt8 // status &&& 0x88 ≠ 0x08 }

structure Drive where
  /-- the words of the sectors -/
  sectors : Nat → Nat → UInt16
  /-- the statuses ahead of each sector of a command -/
  unready : Nat → List Unready
  count : UInt8
  low : UInt8
  mid : UInt8
  high : UInt8
  device : UInt8
  /-- the sectors of a command that are still to be given, and those that have been -/
  left : Nat
  given : Nat
  /-- the sector that is given next, and its words that have been taken -/
  sector : Nat
  taken : Nat
  /-- the statuses up to it -/
  waits : List Unready

namespace Drive

variable (d : Drive)

/-- The number of a sector, of 28 bits -/
def lba : Nat :=
  d.low.toNat + 2 ^ 8 * d.mid.toNat + 2 ^ 16 * d.high.toNat + 2 ^ 24 * (d.device &&& 0x0f).toNat

/-- A count of zero stands for all that the register can count. -/
def total : Nat := if d.count = 0 then 256 else d.count.toNat

/-- The command to read, with the sector named by its number; no other is modelled. -/
def command (v : UInt8) : Drive :=
  if v = 0x20 ∧ d.device &&& 0x40 ≠ 0 then
    { d with left := d.total, given := 0, sector := d.lba, taken := 0, waits := d.unready 0 }
  else d

/-- The status, which is what the drive is waiting for next. -/
def status : UInt8 × Drive :=
  match d.waits with
  | v :: waits => (v.val, { d with waits })
  | [] => (if d.left = 0 then 0x50 else 0x58, d)

/-- A word, of a sector that is ready -/
def data : UInt16 × Drive :=
  if d.left = 0 ∨ d.waits ≠ [] then (0xffff, d)
  else
    (d.sectors d.sector d.taken,
      if d.taken + 1 < 256 then { d with taken := d.taken + 1 }
      else
        { d with
          left := d.left - 1
          given := d.given + 1
          sector := d.sector + 1
          taken := 0
          waits := if d.left - 1 = 0 then [] else d.unready (d.given + 1) })

end Drive

/-- Drives with the same contents and the same statuses -/
structure Same (d d' : Drive) : Prop where
  sectors : d'.sectors = d.sectors
  unready : d'.unready = d.unready

variable {d d' d'' : Drive}

theorem Same.refl (d : Drive) : Same d d := ⟨rfl, rfl⟩

theorem Same.trans (h : Same d d') (h' : Same d' d'') : Same d d'' :=
  ⟨h'.sectors.trans h.sectors, h'.unready.trans h.unready⟩

/-- What the drive waits for, up to a sector that it gives; or it has nothing to give. -/
structure Before (d : Drive) (sector left : Nat) : Prop where
  idle : left = 0 → d.waits = []
  left : d.left = left
  sector : d.sector = sector
  taken : d.taken = 0

end Ata
