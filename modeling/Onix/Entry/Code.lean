import Onix.Library.I386
import Onix.Kernel.State

namespace onix.Entry

open I386

def SYSCALL_SIZE : u32 := 64

/-- The selector that `idt_init` puts into the gates. -/
def CODE_SELECTOR : UInt16 := (1 : UInt16) <<< 3

/-- The linked kernel as its assembly code sees it. -/
structure Image where
  /-- what arithmetic leaves in eflags -/
  flags : Instr → Cpu → u32
  handler_entry_table : u32 → u32
  handler_table : u32 → u32
  /-- the label, which is also where the handlers return to -/
  addr_interrupt_exit : u32
  addr_task_switch : u32
  addr_syscall_handler : u32
  addr_syscall_check : u32
  syscall_table : u32 → u32
  /-- behind the call of `syscall_check` -/
  checked : u32
  /-- behind the call through `syscall_table` -/
  called : u32
  /-- what the C function at an address does until it returns -/
  code : u32 → Cpu → Cpu

/-- `INTERRUPT_HANDLER vector, 0`, up to the jump -/
def INTERRUPT_HANDLER (vector : u32) : List Instr :=
  [.push_imm 0x20222202, .push_imm vector]

/-- up to the call of the handler -/
def interrupt_entry : List Instr :=
  [.nop, -- xchg bx, bx
    .push_seg .ds, .push_seg .es, .push_seg .fs, .push_seg .gs, .pusha,
    .load .eax .esp (12 * 4), .push .eax]

/-- up to the `iret` -/
def interrupt_exit : List Instr :=
  [.add_imm .esp 4, .popa, .pop_seg .gs, .pop_seg .fs, .pop_seg .es, .pop_seg .ds, .add_imm .esp 8]

/-- `task_switch` up to the store of the stack pointer -/
def task_switch_save : List Instr :=
  [.push .ebp, .mov .ebp .esp, .push .ebx, .push .esi, .push .edi,
    .mov .eax .esp, .and_imm .eax 0xfffff000, .store .eax 0 .esp]

/-- `task_switch` from the load of `next` up to the `ret` -/
def task_switch_load : List Instr :=
  [.load .eax .ebp 8, .load .esp .eax 0, .pop .edi, .pop .esi, .pop .ebx, .pop .ebp]

/-- `syscall_handler` from the argument of `syscall_check` on up to the `pusha` -/
def syscall_save : List Instr :=
  [.push_imm 0x20231223, .push_imm 0x80, .push_seg .ds, .push_seg .es, .push_seg .fs, .push_seg .gs]

/-- `syscall_handler` from the `pusha` on up to the call through the table -/
def syscall_pass : List Instr := [.pusha, .push_imm 0x80, .push .eax, .push .ecx, .push .ebx]

/-- `syscall_handler` from behind the call through the table up to the jump to `interrupt_exit` -/
def syscall_result : List Instr := [.add_imm .esp 12, .store .esp (8 * 4) .eax]

namespace Image

variable (k : Image)

/-- From the interrupt to the first instruction of its handler. -/
def enter (vector : u32) (c : Cpu) : Cpu :=
  let d := exec k.flags (INTERRUPT_HANDLER vector ++ interrupt_entry)
    (c.interrupt CODE_SELECTOR (k.handler_entry_table vector))
  (d.jump k.addr_interrupt_exit).call (k.handler_table d.eax)

/-- From the return of the handler to the code that was interrupted. -/
def exit (c : Cpu) : Cpu := (exec k.flags Entry.interrupt_exit c).iret

/-- `call task_switch` with the argument on the stack, until it returns, to whom it may be -/
def switch (c : Cpu) : Cpu := (exec k.flags (task_switch_save ++ task_switch_load) (c.call k.addr_task_switch)).ret

/-- `syscall_check(u32 nr)` does not return from its panic. -/
def check (c : Cpu) : Option Cpu :=
  if SYSCALL_SIZE ≤ Words.word c.ram (c.esp + 4) then none else some (k.code k.addr_syscall_check c)

/-- From `int 0x80`, before `eip`, to the first instruction of `syscall_check`. -/
def syscall_enter (c : Cpu) : Cpu :=
  let d := exec k.flags [.push .eax] (c.interrupt CODE_SELECTOR k.addr_syscall_handler)
  (d.jump k.checked).call k.addr_syscall_check

/-- From `int 0x80` to the first instruction of the function of the table. -/
def syscall_call (c : Cpu) : Option Cpu := do
  let d ← k.check (k.syscall_enter c)
  let e := exec k.flags ([.add_imm .esp 4] ++ syscall_save ++ syscall_pass) d
  return (e.jump k.called).call (k.syscall_table e.eax)

/-- From `int 0x80` to behind it; the function that is called returns. -/
def syscall_handler (c : Cpu) : Option Cpu := do
  let d ← k.syscall_call c
  return k.exit (exec k.flags syscall_result (k.code d.eip d))

end Image

end onix.Entry
