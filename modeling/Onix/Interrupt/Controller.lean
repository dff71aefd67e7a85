import Onix.Library.Pic
import Onix.Boot.Gdt

namespace onix.Interrupt

open Pic

def PIC_M_CTRL : u16 := 0x20
def PIC_M_DATA : u16 := 0x21
def PIC_S_CTRL : u16 := 0xa0
def PIC_S_DATA : u16 := 0xa1
def PIC_EOI : u8 := 0x20

def IRQ_CLOCK : u32 := 0
def IRQ_RTC : u32 := 8

def IRQ_MASTER_NR : ℕ := 0x20

def ENTRY_SIZE : ℕ := 0x30
def IDT_SIZE : ℕ := 256

namespace Pics

/-- A write to a port of the controllers; the other ports belong to other devices. -/
def outb (port : u16) (value : u8) (pics : Pair) : Pair :=
  if port = PIC_M_CTRL then { pics with master := pics.master.control value.toBitVec }
  else if port = PIC_M_DATA then { pics with master := pics.master.data value.toBitVec }
  else if port = PIC_S_CTRL then { pics with slave := pics.slave.control value.toBitVec }
  else if port = PIC_S_DATA then { pics with slave := pics.slave.data value.toBitVec }
  else pics

/-- A read of the second port of a controller gives the lines that are masked. -/
def inb (port : u16) (pics : Pair) : u8 :=
  if port = PIC_M_DATA then ⟨pics.master.masked⟩ else if port = PIC_S_DATA then ⟨pics.slave.masked⟩ else 0

end Pics

/-- Some writes to ports, in their order. -/
def Pics.outs (writes : List (u16 × u8)) (pics : Pair) : Pair :=
  writes.foldl (fun pics write => Pics.outb write.1 write.2 pics) pics

def pic_init (pics : Pair) : Pair :=
  Pics.outs
    [(PIC_M_CTRL, 0b00010001), (PIC_M_DATA, 0x20), (PIC_M_DATA, 0b00000100), (PIC_M_DATA, 0b00000001),
      (PIC_S_CTRL, 0b00010001), (PIC_S_DATA, 0x28), (PIC_S_DATA, 2), (PIC_S_DATA, 0b00000001),
      (PIC_M_DATA, 0b11111111), (PIC_S_DATA, 0b11111111)] pics

/-- The writes that `send_eoi` makes; a device can ask for an interrupt between them. -/
def send_eoi (vector : ℤ) : List (u16 × u8) :=
  (if 0x20 ≤ vector ∧ vector < 0x28 then [(PIC_M_CTRL, PIC_EOI)] else []) ++
    if 0x28 ≤ vector ∧ vector < 0x30 then [(PIC_M_CTRL, PIC_EOI), (PIC_S_CTRL, PIC_EOI)] else []

/-- `none` where the assertion fails -/
def set_interrupt_mask (irq : u32) (enable : Bool) (pics : Pair) : Option Pair :=
  if irq < 16 then
    let port := if irq < 8 then PIC_M_DATA else PIC_S_DATA
    let irq := if irq < 8 then irq else irq - 8
    if enable then some (Pics.outb port ((Pics.inb port pics).toUInt32 &&& ~~~(1 <<< irq)).toUInt8 pics)
    else some (Pics.outb port ((Pics.inb port pics).toUInt32 ||| 1 <<< irq).toUInt8 pics)
  else none

section Setup

variable {pics : Pair}

/-- Both controllers are set up whatever was written to them before; nothing is served or asked for, and
every line is masked. -/
theorem pic_init_eq (pics : Pair) : pic_init pics =
    { master := ⟨.ready, 0x11, 0x20, 4, 1, 0xff, 0, 0⟩, slave := ⟨.ready, 0x11, 0x28, 2, 1, 0xff, 0, 0⟩ } := by
  have hwrites : pic_init pics =
      { master := ((((pics.master.control 0x11).data 0x20).data 4).data 1).data 0xff
        slave := ((((pics.slave.control 0x11).data 0x28).data 2).data 1).data 0xff } := rfl
  rw [hwrites, Chip.initialised, Chip.initialised]
  rfl

theorem pic_init_configured (pics : Pair) : (pic_init pics).Configured 0x20 0x28 := by
  rw [pic_init_eq]
  exact ⟨⟨rfl, rfl⟩, ⟨rfl, rfl⟩, ⟨rfl, rfl⟩, ⟨rfl, rfl⟩⟩

/-- What a change of the mask of one line leaves. -/
structure Masks (pics pics' : Pair) (n : Fin 16) (enable : Bool) : Prop where
  configured : pics'.Configured 0x20 0x28
  masked : ∀ k, pics'.masked k = if k = n then !enable else pics.masked k
  requested : pics'.requested = pics.requested
  served : pics'.master.served = pics.master.served ∧ pics'.slave.served = pics.slave.served

/-- The byte that `set_interrupt_mask` writes for a line of a controller. -/
def mask_byte (i : Fin 8) (enable : Bool) (m : BitVec 8) : BitVec 8 :=
  if enable then m &&& ~~~line i else m ||| line i

theorem mask_byte_enable (m : BitVec 8) (i : Fin 8) :
    ((⟨m⟩ : u8).toUInt32 &&& ~~~(1 <<< UInt32.ofNat i)).toUInt8 = ⟨mask_byte i true m⟩ := by
  have hline : ((~~~(1 <<< UInt32.ofNat i) : u32).toUInt8).toBitVec = ~~~line i := by
    fin_cases i <;> rfl
  rw [← UInt8.toBitVec_inj, UInt32.toUInt8_and, UInt8.toBitVec_and, hline, UInt8.toUInt8_toUInt32]
  rfl

theorem mask_byte_disable (m : BitVec 8) (i : Fin 8) :
    ((⟨m⟩ : u8).toUInt32 ||| 1 <<< UInt32.ofNat i).toUInt8 = ⟨mask_byte i false m⟩ := by
  have hline : ((1 <<< UInt32.ofNat i : u32).toUInt8).toBitVec = line i := by
    fin_cases i <;> rfl
  rw [← UInt8.toBitVec_inj, UInt32.toUInt8_or, UInt8.toBitVec_or, hline, UInt8.toUInt8_toUInt32]
  rfl

theorem mask_byte_getLsbD (i j : Fin 8) (enable : Bool) (m : BitVec 8) :
    (mask_byte i enable m).getLsbD j.val = if j = i then !enable else m.getLsbD j.val := by
  have hline : (line i).getLsbD j.val = decide (j = i) := by
    rw [line_getLsbD]
    exact decide_eq_decide.mpr Fin.ext_iff.symm
  cases enable
  · rw [mask_byte, if_neg Bool.false_ne_true, BitVec.getLsbD_or, hline]
    split_ifs with h <;> simp [h]
  · rw [mask_byte, if_pos rfl, BitVec.getLsbD_and, BitVec.getLsbD_not, hline]
    split_ifs with h <;> simp [h]

theorem Pics.outb_master (hconf : pics.Configured 0x20 0x28) (value : u8) :
    outb PIC_M_DATA value pics = { pics with master := { pics.master with masked := value.toBitVec } } := by
  have hdata : outb PIC_M_DATA value pics = { pics with master := pics.master.data value.toBitVec } := rfl
  rw [hdata, Chip.data_ready hconf.ready.1]

theorem Pics.outb_slave (hconf : pics.Configured 0x20 0x28) (value : u8) :
    outb PIC_S_DATA value pics = { pics with slave := { pics.slave with masked := value.toBitVec } } := by
  have hdata : outb PIC_S_DATA value pics = { pics with slave := pics.slave.data value.toBitVec } := rfl
  rw [hdata, Chip.data_ready hconf.ready.2]

/-- A line of the master: the byte that is read has all its masks, and the one that is written one mask changed. -/
theorem set_interrupt_mask_low (hconf : pics.Configured 0x20 0x28) (i : Fin 8) (enable : Bool) :
    set_interrupt_mask (UInt32.ofNat (low i).val) enable pics =
      some { pics with master := { pics.master with masked := mask_byte i enable pics.master.masked } } := by
  have hirq : (UInt32.ofNat (low i).val < 16) ∧ (UInt32.ofNat (low i).val < 8) := by
    fin_cases i <;> decide
  have hin : Pics.inb PIC_M_DATA pics = ⟨pics.master.masked⟩ := rfl
  cases enable
  · simp only [set_interrupt_mask, hirq, if_true, hin, Bool.false_eq_true, if_false]
    exact congrArg some ((congrArg (Pics.outb PIC_M_DATA · pics) (mask_byte_disable _ i)).trans (Pics.outb_master hconf _))
  · simp only [set_interrupt_mask, hirq, if_true, hin]
    exact congrArg some ((congrArg (Pics.outb PIC_M_DATA · pics) (mask_byte_enable _ i)).trans (Pics.outb_master hconf _))

theorem set_interrupt_mask_high (hconf : pics.Configured 0x20 0x28) (j : Fin 8) (enable : Bool) :
    set_interrupt_mask (UInt32.ofNat (high j).val) enable pics =
      some { pics with slave := { pics.slave with masked := mask_byte j enable pics.slave.masked } } := by
  have hirq : (UInt32.ofNat (high j).val < 16) ∧ ¬ (UInt32.ofNat (high j).val < 8) ∧
      UInt32.ofNat (high j).val - 8 = UInt32.ofNat j.val := by
    fin_cases j <;> decide
  have hin : Pics.inb PIC_S_DATA pics = ⟨pics.slave.masked⟩ := rfl
  cases enable
  · simp only [set_interrupt_mask, hirq, if_true, if_false, hin, Bool.false_eq_true]
    exact congrArg some ((congrArg (Pics.outb PIC_S_DATA · pics) (mask_byte_disable _ j)).trans (Pics.outb_slave hconf _))
  · simp only [set_interrupt_mask, hirq, if_true, if_false, hin]
    exact congrArg some ((congrArg (Pics.outb PIC_S_DATA · pics) (mask_byte_enable _ j)).trans (Pics.outb_slave hconf _))

/-- The mask of one line is changed, and nothing else. -/
theorem set_interrupt_mask_masks (hconf : pics.Configured 0x20 0x28) (n : Fin 16) (enable : Bool) :
    ∃ pics', set_interrupt_mask (UInt32.ofNat n.val) enable pics = some pics' ∧ Masks pics pics' n enable := by
  obtain ⟨i, rfl⟩ | ⟨j, rfl⟩ := low_or_high n
  · refine ⟨_, set_interrupt_mask_low hconf i enable, ⟨⟨hconf.ready, hconf.base, hconf.wiring, hconf.mode⟩, fun k => ?_,
      rfl, ⟨rfl, rfl⟩⟩⟩
    obtain ⟨i', rfl⟩ | ⟨j, rfl⟩ := low_or_high k
    · rw [Pair.masked_low, Pair.masked_low, mask_byte_getLsbD]
      simp [low, Fin.ext_iff]
    · have hne : high j ≠ low i := (low_ne_high i j).symm
      rw [Pair.masked_high, Pair.masked_high, if_neg hne]
  · refine ⟨_, set_interrupt_mask_high hconf j enable, ⟨⟨hconf.ready, hconf.base, hconf.wiring, hconf.mode⟩, fun k => ?_,
      rfl, ⟨rfl, rfl⟩⟩⟩
    obtain ⟨i, rfl⟩ | ⟨j', rfl⟩ := low_or_high k
    · have hne : low i ≠ high j := low_ne_high i j
      rw [Pair.masked_low, Pair.masked_low, if_neg hne]
    · rw [Pair.masked_high, Pair.masked_high, mask_byte_getLsbD]
      simp [high, Fin.ext_iff]

end Setup

end onix.Interrupt
