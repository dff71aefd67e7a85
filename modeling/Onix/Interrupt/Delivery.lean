import Onix.Interrupt.Controller
import Onix.Library.Runs

namespace onix.Interrupt

open Pic

/-- `gate_t`, with the bit fields in their order -/
structure gate_t where
  offset0 : BitVec 16
  selector : BitVec 16
  reserved : BitVec 8
  type : BitVec 4
  segment : BitVec 1
  DBL : BitVec 2
  present : BitVec 1
  offset1 : BitVec 16
  deriving DecidableEq, Repr

/-- What an element of `handler_table` points to. -/
inductive handler_t where
  | NULL
  | exception_handler
  | default_handler
  | clock_handler
  | rtc_handler
  deriving DecidableEq, Repr

/-- The writes to the controllers that a handler makes, before all else but its assertions: `none` where one fails,
or the handler never returns. -/
def handler_t.writes (vector : ℤ) : handler_t → Option (List (u16 × u8))
  | .NULL | .exception_handler => none
  | .default_handler => some (send_eoi vector)
  | .clock_handler => if vector = 0x20 then some (send_eoi vector) else none
  | .rtc_handler => if vector = 0x28 then some (send_eoi vector) else none

/-- The addresses that the linker has given to `idt`, to the stubs of handler.asm and to `syscall_handler`. -/
structure Image where
  idt : u32
  handler_entry_table : ℕ → u32
  syscall_handler : u32
  distinct : ∀ i < ENTRY_SIZE, ∀ j < ENTRY_SIZE, handler_entry_table i = handler_entry_table j → i = j

/-- The number that the stub at an address pushes, for `interrupt_entry` to call its handler. -/
def Image.pushed (image : Image) (address : u32) : Option ℕ :=
  (List.range ENTRY_SIZE).find? fun i => image.handler_entry_table i = address

/-- The controllers, the tables and the flag of the processor; what the handler that runs has still to write; and
which lines have asked for an interrupt anew and which handlers have been called with which number, the last ones
first. -/
structure Interrupts where
  pics : Pair
  idt : BitVec 8 → gate_t
  idtr : pointer_t
  handler_table : BitVec 8 → handler_t
  IF : Bool
  outs : List (u16 × u8)
  asked : List (Fin 16)
  called : List (handler_t × BitVec 8)

/-- `for (size_t i = start; i < start + count; i++) table[i] = value` -/
def fill {α : Type} (value : ℕ → α) (start : ℕ) : ℕ → (BitVec 8 → α) → BitVec 8 → α
  | 0, table => table
  | count + 1, table => fill value (start + 1) count (Function.update table (BitVec.ofNat 8 start) (value start))

/-- The gate that both parts of `idt_init` write. -/
def gate_to (handler : u32) (DBL : BitVec 2) : gate_t where
  offset0 := (handler &&& 0xffff).toUInt16.toBitVec
  offset1 := ((handler >>> 16) &&& 0xffff).toUInt16.toBitVec
  selector := 1 <<< 3
  reserved := 0
  type := 0b1110
  segment := 0
  DBL
  present := 1

def idt_init (image : Image) (s : Interrupts) : Interrupts :=
  let s := { s with idt := fill (fun i => gate_to (image.handler_entry_table i) 0) 0 ENTRY_SIZE s.idt }
  let s := { s with handler_table := fill (fun _ => .exception_handler) 0 0x20 s.handler_table }
  let s := { s with handler_table := fill (fun _ => .default_handler) 0x20 (ENTRY_SIZE - 0x20) s.handler_table }
  let s := { s with idt := Function.update s.idt 0x80 (gate_to image.syscall_handler 3) }
  { s with idtr := ⟨UInt16.ofNat (8 * IDT_SIZE) - 1, image.idt⟩ }

def interrupt_init (image : Image) (s : Interrupts) : Interrupts :=
  idt_init image { s with pics := pic_init s.pics }

/-- `none` where the assertion fails -/
def set_interrupt_handler (irq : u32) (handler : handler_t) (s : Interrupts) : Option Interrupts :=
  if irq < 16 then
    some { s with
      handler_table := Function.update s.handler_table (BitVec.ofNat 8 (IRQ_MASTER_NR + irq.toNat)) handler }
  else none

namespace Interrupts

variable (image : Image) (s : Interrupts)

/-- The gate that the processor goes through on an interrupt: it lies in front of the limit of the table, and is
present. -/
def gate (v : BitVec 8) : Option gate_t :=
  if s.idtr.base = image.idt ∧ 8 * v.toNat + 7 ≤ s.idtr.limit.toNat ∧ (s.idt v).present = 1 ∧ (s.idt v).segment = 0 ∧
    (s.idt v).type = 0b1110 then some (s.idt v) else none

/-- The number that the processor is given, the gate, the stub behind it and the handler that it calls. The gate is
one that turns interrupts off. -/
def interrupt (glitch : Bool) : Option Interrupts := do
  let v ← (s.pics.acknowledge glitch).1
  let gate ← s.gate image v
  let vector ← image.pushed (UInt32.ofBitVec (gate.offset1 ++ gate.offset0))
  let handler := s.handler_table (BitVec.ofNat 8 vector)
  let outs ← handler.writes vector
  some { s with
    pics := (s.pics.acknowledge glitch).2
    IF := false
    outs
    called := (handler, BitVec.ofNat 8 vector) :: s.called }

/-- The next write of the handler that runs -/
def write : Option Interrupts :=
  match s.outs with
  | [] => none
  | (port, value) :: outs => some { s with pics := Pics.outb port value s.pics, outs }

end Interrupts

/-- The two functions that set a handler of their own -/
inductive Driver where
  | clock
  | rtc
  deriving DecidableEq, Repr

def Driver.irq : Driver → u32
  | .clock => IRQ_CLOCK
  | .rtc => IRQ_RTC

def Driver.handler : Driver → handler_t
  | .clock => .clock_handler
  | .rtc => .rtc_handler

inductive Happens where
  /-- A device asks for an interrupt. -/
  | asks (n : Fin 16)
  | interrupt (glitch : Bool)
  | write
  /-- `sti`, `cli`, or an `iret` to a thread whose flag is the state -/
  | set_interrupt_state (state : Bool)
  /-- of `clock_init` or of `rtc_init` -/
  | set_interrupt_handler (driver : Driver)
  | set_interrupt_mask (irq : Fin 16) (enable : Bool)
  deriving DecidableEq, Repr

/-- No device is at the line of the slave. The processor takes no interrupt while its flag is off, and the threads
run when the handler has told the controllers. -/
def Happens.Possible (s : Interrupts) : Happens → Prop
  | asks n => n ≠ low cascade
  | interrupt _ => s.IF = true
  | write => s.outs ≠ []
  | set_interrupt_state _ | set_interrupt_handler _ | set_interrupt_mask _ _ => s.outs = []

instance (s : Interrupts) : (e : Happens) → Decidable (e.Possible s)
  | .asks n => inferInstanceAs (Decidable (n ≠ low cascade))
  | .interrupt _ => inferInstanceAs (Decidable (s.IF = true))
  | .write => inferInstanceAs (Decidable (s.outs ≠ []))
  | .set_interrupt_state _ | .set_interrupt_handler _ | .set_interrupt_mask _ _ =>
    inferInstanceAs (Decidable (s.outs = []))

/-- `none` where an assertion of the kernel fails, or the processor finds no gate. -/
def Interrupts.step (image : Image) (s : Interrupts) : Happens → Option Interrupts
  | .asks n => some { s with pics := s.pics.raise n, asked := if s.pics.requested n then s.asked else n :: s.asked }
  | .interrupt glitch => s.interrupt image glitch
  | .write => s.write
  | .set_interrupt_state state => some { s with IF := state }
  | .set_interrupt_handler driver => Interrupt.set_interrupt_handler driver.irq driver.handler s
  | .set_interrupt_mask irq enable => do
    let pics ← Interrupt.set_interrupt_mask (UInt32.ofNat irq.val) enable s.pics
    some { s with pics }

end onix.Interrupt
