import Onix.Entry.Syscall

namespace onix.Entry

open I386

/-- The vectors whose exceptions leave an error code on the stack, behind what an interrupt leaves there. -/
def PushesCode (vector : ℕ) : Prop := vector = 8 ∨ 10 ≤ vector ∧ vector ≤ 14 ∨ vector = 17 ∨ vector = 21

instance (vector : ℕ) : Decidable (PushesCode vector) :=
  inferInstanceAs (Decidable (vector = 8 ∨ 10 ≤ vector ∧ vector ≤ 14 ∨ vector = 17 ∨ vector = 21))

/-- An exception of the instruction before `eip` -/
def fault (c : Cpu) (vector : ℕ) (error entry : u32) : Cpu :=
  let d := c.interrupt CODE_SELECTOR entry
  if PushesCode vector then d.push error else d

/-- The second arguments of `INTERRUPT_HANDLER` in handler.asm -/
def with_code : List ℕ :=
  [0, 0, 0, 0, 0, 0, 0, 0, 1, 0, 1, 1, 1, 1, 1, 0, 0, 1, 0, 0, 0, 1, 0, 0, 0, 0, 0, 0, 0, 0, 0, 0,
    0, 0, 0, 0, 0, 0, 0, 0, 0, 0, 0, 0, 0, 0, 0, 0]

/-- The stub of a vector, up to the jump -/
def interrupt_handler (vector : ℕ) : List Instr :=
  (if with_code.getD vector 0 = 0 then [.push_imm 0x20222202] else []) ++ [.push_imm (UInt32.ofNat vector)]

/-- From the exception to the first instruction of its handler. -/
def Image.raise (k : Image) (vector : ℕ) (error : u32) (c : Cpu) : Cpu :=
  let d := exec k.flags (interrupt_handler vector ++ interrupt_entry)
    (fault c vector error (k.handler_entry_table (UInt32.ofNat vector)))
  (d.jump k.addr_interrupt_exit).call (k.handler_table d.eax)

def messages : List String :=
  ["#DE Divide Error", "#DB RESERVED", "--  NMI Interrupt", "#BP Breakpoint", "#OF Overflow",
    "#BR BOUND Range Exceeded", "#UD Invalid Opcode (Undefined Opcode)",
    "#NM Device Not Available (No Math Coprocessor)", "#DF Double Fault",
    "    Coprocessor Segment Overrun (reserved)", "#TS Invalid TSS", "#NP Segment Not Present",
    "#SS Stack-Segment Fault", "#GP General Protection", "#PF Page Fault", "--  (Intel reserved. Do not use.)",
    "#MF x87 FPU Floating-Point Error (Math Fault)", "#AC Alignment Check", "#MC Machine Check",
    "#XF SIMD Floating-Point Exception", "#VE Virtualization Exception", "#CP Control Protection Exception"]

/-- What `exception_handler` prints before it hangs. -/
structure Report where
  message : Option String
  vector : u32
  error : u32
  eflags : u32
  cs : u32
  eip : u32
  esp : u32
  deriving DecidableEq, Repr

/-- A parameter of a function that has been called -/
def parameter (c : Cpu) (i : ℕ) : u32 := Words.word c.ram (c.esp + 4 + 4 * UInt32.ofNat i)

/-- The parameters are `vector`, the words of `pusha` from `edi` on, `gs`, `fs`, `es`, `ds`, `vector0`, `error`, `eip`,
`cs` and `eflags`. -/
def exception_handler (c : Cpu) : Report where
  message := if (parameter c 0).toInt32 < 22 then messages[(parameter c 0).toNat]? else messages[15]?
  vector := parameter c 0
  error := parameter c 14
  eflags := parameter c 17
  cs := parameter c 16
  eip := parameter c 15
  esp := parameter c 4

section Stub

variable {vector : ℕ}

end Stub

section Raise

variable (k : Image) {c : Cpu} {vector : ℕ} (hvector : vector < 48) (error : u32)

include hvector

end Raise

end onix.Entry
