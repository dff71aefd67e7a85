import Onix.Memory.State
import Mathlib.Logic.Function.Basic
import Mathlib.Tactic.Common

namespace onix.Beep

/-- The variables of clock.c that the beep depends on, and what was written to the port of the speaker last. -/
structure Beeper where
  jiffies : u32
  beeping : u32
  port : u8

namespace Beeper

/-- `inb(SPEAKER_REG)`; the upper bits are the chipset's own. -/
def inb (status : u8) (b : Beeper) : u8 := status &&& 0xf0 ||| b.port &&& 0x0f

/-- `outb(SPEAKER_REG, value)` -/
def outb (value : u8) (b : Beeper) : Beeper := { b with port := value }

def start_beep (status : u8) (b : Beeper) : Beeper :=
  let b := if b.beeping = 0 then b.outb (b.inb status ||| 0b11) else b
  { b with beeping := b.jiffies + 5 }

def stop_beep (status : u8) (b : Beeper) : Beeper :=
  if b.beeping ≠ 0 ∧ b.jiffies > b.beeping then { b.outb (b.inb status &&& 0xfc) with beeping := 0 } else b

/-- What `clock_handler` does to the variables -/
def tick (status : u8) (b : Beeper) : Beeper :=
  let b := b.stop_beep status
  { b with jiffies := b.jiffies + 1 }

/-- The gate of the counter and the speaker are on. -/
def Sounds (b : Beeper) : Prop := b.port &&& 0b11 = 0b11

instance (b : Beeper) : Decidable b.Sounds := inferInstanceAs (Decidable (_ = _))

/-- The bits of the port that are neither the speaker's nor the chipset's -/
def rest (b : Beeper) : u8 := b.port &&& 0b1100

section Bits

theorem byte_ext {a b : u8} (h : ∀ i < 8, a.toBitVec.getLsbD i = b.toBitVec.getLsbD i) : a = b := by
  apply UInt8.toBitVec_inj.mp
  exact BitVec.eq_of_getLsbD_eq h

theorem masks : ∀ i < 8, (UInt8.toBitVec 0b11).getLsbD i = decide (i < 2) ∧
    (UInt8.toBitVec 0b1100).getLsbD i = decide (i = 2 ∨ i = 3) ∧ (UInt8.toBitVec 0x0f).getLsbD i = decide (i < 4) ∧
    (UInt8.toBitVec 0xf0).getLsbD i = decide (4 ≤ i) ∧ (UInt8.toBitVec 0xfc).getLsbD i = decide (2 ≤ i) := by decide

theorem off_bits (status : u8) (b : Beeper) :
    (b.inb status &&& 0xfc) &&& 0b11 ≠ 0b11 ∧ (b.inb status &&& 0xfc) &&& 0b1100 = b.rest := by
  have hzero : (b.inb status &&& 0xfc) &&& 0b11 = 0 := by
    rw [UInt8.and_assoc]
    exact UInt8.and_zero
  unfold inb rest at *
  refine ⟨?_, byte_ext fun i hi => ?_⟩
  · rw [hzero]
    decide
  · simp only [UInt8.toBitVec_and, UInt8.toBitVec_or, BitVec.getLsbD_and, BitVec.getLsbD_or, masks i hi]
    grind

end Bits

section Steps

variable {b : Beeper} (status : u8)

/-- While a beep is timed, the speaker is on. -/
def Timed (b : Beeper) : Prop := b.beeping ≠ 0 → b.Sounds

@[simp] theorem tick_jiffies : (b.tick status).jiffies = b.jiffies + 1 := by
  unfold tick stop_beep outb
  split_ifs <;> rfl

/-- A tick ends the beep, or leaves it. -/
theorem tick_stops (h : b.beeping ≠ 0 ∧ b.jiffies > b.beeping) :
    (b.tick status).beeping = 0 ∧ ¬ (b.tick status).Sounds := by
  have hstop : b.stop_beep status = { b.outb (b.inb status &&& 0xfc) with beeping := 0 } := if_pos h
  unfold tick
  rw [hstop]
  exact ⟨rfl, (off_bits status b).1⟩

theorem tick_keeps (h : ¬ (b.beeping ≠ 0 ∧ b.jiffies > b.beeping)) :
    (b.tick status).beeping = b.beeping ∧ ((b.tick status).Sounds ↔ b.Sounds) := by
  have hkeep : b.stop_beep status = b := if_neg h
  unfold tick
  rw [hkeep]
  exact ⟨rfl, Iff.rfl⟩

end Steps

end Beeper

/-- A call of `start_beep`, or a clock interrupt -/
inductive Event where
  | bell (status : u8)
  | clock (status : u8)

def Beeper.event (b : Beeper) : Event → Beeper
  | .bell status => b.start_beep status
  | .clock status => b.tick status

def run (events : List Event) (b : Beeper) : Beeper := events.foldl Beeper.event b

/-- The ticks through which the beep goes on that begins at a value of `jiffies`: up to the one that finds
`jiffies` more than five ahead, or to the first one where the sum of `start_beep` is around the end; before
a sum that is the greatest value or zero there is no end. -/
def InWindow (jiffies : u32) (ticks : ℕ) : Prop :=
  if jiffies.toNat + 6 < 2 ^ 32 then ticks ≤ 6 else jiffies.toNat + 5 ≤ 2 ^ 32 ∨ ticks = 0

instance (jiffies : u32) (ticks : ℕ) : Decidable (InWindow jiffies ticks) := inferInstanceAs
  (Decidable (if jiffies.toNat + 6 < 2 ^ 32 then ticks ≤ 6 else jiffies.toNat + 5 ≤ 2 ^ 32 ∨ ticks = 0))

section Runs

open Beeper

variable {b : Beeper} {jiffies : u32} {ticks : ℕ}

/-- Where the ticks since a bell have got to -/
structure Since (jiffies : u32) (ticks : ℕ) (b : Beeper) : Prop where
  jiffies_eq : b.jiffies = jiffies + UInt32.ofNat ticks
  on : InWindow jiffies ticks → b.Sounds ∧ b.beeping = jiffies + 5
  off : ¬ InWindow jiffies ticks → ¬ b.Sounds ∧ b.beeping = 0

theorem Since.sounds_iff (h : Since jiffies ticks b) : b.Sounds ↔ InWindow jiffies ticks := by
  constructor
  · intro hsounds
    by_contra hout
    exact (h.off hout).1 hsounds
  · exact fun hin => (h.on hin).1

theorem Since.timed (h : Since jiffies ticks b) : b.Timed := by
  intro hbeeping
  by_contra hoff
  have hout := mt h.sounds_iff.mpr hoff
  exact hbeeping (h.off hout).2

/-- When the tick comes that ends the beep -/
theorem ends_iff (h : InWindow jiffies ticks) :
    (jiffies + 5 ≠ 0 ∧ jiffies + UInt32.ofNat ticks > jiffies + 5) ↔ ¬ InWindow jiffies (ticks + 1) := by
  have hlt := jiffies.toNat_lt
  have hfive : UInt32.toNat 5 = 5 := rfl
  have hzero : UInt32.toNat 0 = 0 := rfl
  rw [gt_iff_lt, UInt32.lt_iff_toNat_lt, Ne, ← UInt32.toNat_inj, UInt32.toNat_add, UInt32.toNat_add,
    UInt32.toNat_ofNat', hfive, hzero]
  unfold InWindow at h ⊢
  by_cases hearly : jiffies.toNat + 6 < 2 ^ 32
  · rw [if_pos hearly] at h ⊢
    omega
  · rw [if_neg hearly] at h ⊢
    omega

theorem InWindow.pred (h : InWindow jiffies (ticks + 1)) : InWindow jiffies ticks := by
  unfold InWindow at h ⊢
  by_cases hearly : jiffies.toNat + 6 < 2 ^ 32
  · rw [if_pos hearly] at h ⊢
    omega
  · rw [if_neg hearly] at h ⊢
    omega

theorem Since.tick (h : Since jiffies ticks b) (status : u8) : Since jiffies (ticks + 1) (b.tick status) := by
  have hjiffies : (b.tick status).jiffies = jiffies + UInt32.ofNat (ticks + 1) := by
    rw [tick_jiffies, h.jiffies_eq, UInt32.ofNat_add, UInt32.add_assoc]
    rfl
  by_cases hin : InWindow jiffies ticks
  · obtain ⟨hsounds, hbeeping⟩ := h.on hin
    have hends := ends_iff hin
    rw [← hbeeping, ← h.jiffies_eq] at hends
    refine ⟨hjiffies, ?_, ?_⟩
    · intro hnext
      obtain ⟨hsame, hsounds'⟩ := tick_keeps status (mt hends.mp (not_not.mpr hnext))
      exact ⟨hsounds'.mpr hsounds, hsame.trans hbeeping⟩
    · intro hout
      exact (tick_stops status (hends.mpr hout)).symm
  · obtain ⟨hsilent, hbeeping⟩ := h.off hin
    obtain ⟨hsame, hsounds'⟩ := tick_keeps (b := b) status fun hstop => hstop.1 hbeeping
    refine ⟨hjiffies, fun hnext => absurd hnext.pred hin, fun _ => ⟨?_, hsame.trans hbeeping⟩⟩
    exact mt hsounds'.mp hsilent

end Runs

end onix.Beep
