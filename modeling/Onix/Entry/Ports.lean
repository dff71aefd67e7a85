import Onix.Library.Ports
import Onix.Console.Write

namespace onix.Ports

open I386

variable {δ α : Type}

/-- `jmp $+2` goes on with the next instruction. -/
def inb : List PortInstr :=
  function_code
    [.clear .eax, .instr (.load .edx .ebp 8), .in_al, .instr .nop, .instr .nop, .instr .nop]

def outb : List PortInstr :=
  function_code
    [.instr (.load .edx .ebp 8), .instr (.load .eax .ebp 12), .out_al, .instr .nop, .instr .nop, .instr .nop]

/-- The upper half of eax stays. -/
def inw : List PortInstr :=
  function_code [.instr (.load .edx .ebp 8), .in_ax, .instr .nop, .instr .nop, .instr .nop]

def outw : List PortInstr :=
  function_code [.instr (.load .edx .ebp 8), .instr (.load .eax .ebp 12), .out_ax]

/-- Where the functions are, what arithmetic leaves in eflags, and the words that a caller pushes for
arguments, of which it matters what is in the low bits. -/
structure Image where
  addr_inb : u32
  addr_inw : u32
  addr_outb : u32
  addr_outw : u32
  flags : PortInstr → Cpu → u32
  byte : u8 → u32
  half : u16 → u32
  byte_low : ∀ value, (byte value).toUInt8 = value
  half_low : ∀ value, (half value).toUInt16 = value

/-- The code of a driver, with a call for every port that it reaches. -/
def carry_out (k : Image) (bus : Bus δ) : Driver α → Cpu × δ → α × Cpu × δ
  | .answer a, s => (a, s)
  | .inb port go, s =>
    let t := call_ports k.flags bus k.addr_inb [k.half port] inb s
    carry_out k bus (go t.1.eax.toUInt8) t
  | .inw port go, s =>
    let t := call_ports k.flags bus k.addr_inw [k.half port] inw s
    carry_out k bus (go t.1.eax.toUInt16) t
  | .outb port value go, s =>
    carry_out k bus go (call_ports k.flags bus k.addr_outb [k.half port, k.byte value] outb s)
  | .outw port value go, s =>
    carry_out k bus go (call_ports k.flags bus k.addr_outw [k.half port, k.half value] outw s)

section Calls

variable (k : Image) (bus : Bus δ) (c : Cpu) (devices : δ)

theorem low_byte (a : u32) (value : u8) : (a &&& 0xffffff00 ||| value.toUInt32).toUInt8 = value := by
  have hmask : UInt32.toUInt8 0xffffff00 = 0 := rfl
  rw [UInt32.toUInt8_or, UInt32.toUInt8_and, hmask, UInt8.and_zero, UInt8.zero_or, UInt8.toUInt8_toUInt32]

theorem low_half (a : u32) (value : u16) : (a &&& 0xffff0000 ||| value.toUInt32).toUInt16 = value := by
  have hmask : UInt32.toUInt16 0xffff0000 = 0 := rfl
  rw [UInt32.toUInt16_or, UInt32.toUInt16_and, hmask, UInt16.and_zero, UInt16.zero_or, UInt16.toUInt16_toUInt32]

theorem second_place (a : u32) : a + 8 + 4 = a + 12 := UInt32.add_assoc a 8 4

/-- Where a function finds its arguments -/
theorem framed_args (target : u32) (args : List u32) (hargs : args.length ≤ 2) :
    Words.Holds (c.framed target args).ram ((c.framed target args).ebp + 8) args := by
  obtain ⟨-, -, hframe⟩ := framed_holds c target hargs
  have hplace : (c.framed target args).esp + 4 + 4 = (c.framed target args).ebp + 8 := UInt32.add_assoc _ 4 4
  rwa [hplace] at hframe

theorem inb_call (port : u16) : ∃ e, call_ports k.flags bus k.addr_inb [k.half port] inb (c, devices) =
    (e, (bus.inb port devices).2) ∧ Cpu.Kept 16 c e ∧ e.eax.toUInt8 = (bus.inb port devices).1 := by
  have hone : [k.half port].length ≤ 2 := Nat.le_succ 1
  obtain ⟨hport, -⟩ := framed_args c k.addr_inb [k.half port] hone
  have hbody : run_ports k.flags bus
      [.clear .eax, .instr (.load .edx .ebp 8), .in_al, .instr .nop, .instr .nop, .instr .nop]
      (c.framed k.addr_inb [k.half port], devices) =
      ({ c.framed k.addr_inb [k.half port] with
        eax := 0 &&& 0xffffff00 ||| (bus.inb port devices).1.toUInt32
        edx := k.half port
        eflags := k.flags (.clear .eax) (c.framed k.addr_inb [k.half port]) }, (bus.inb port devices).2) := by
    simp only [run_ports, List.foldl_cons, List.foldl_nil, PortInstr.exec, Instr.exec, Cpu.get, Cpu.set, hport,
      k.half_low]
  obtain ⟨e, hcall, hkept, heax⟩ := call_ports_kept hone hbody
  refine ⟨e, hcall, hkept, ?_⟩
  rw [heax]
  exact low_byte _ _

theorem inw_call (port : u16) : ∃ e, call_ports k.flags bus k.addr_inw [k.half port] inw (c, devices) =
    (e, (bus.inw port devices).2) ∧ Cpu.Kept 16 c e ∧ e.eax.toUInt16 = (bus.inw port devices).1 := by
  have hone : [k.half port].length ≤ 2 := Nat.le_succ 1
  obtain ⟨hport, -⟩ := framed_args c k.addr_inw [k.half port] hone
  have hbody : run_ports k.flags bus [.instr (.load .edx .ebp 8), .in_ax, .instr .nop, .instr .nop, .instr .nop]
      (c.framed k.addr_inw [k.half port], devices) =
      ({ c.framed k.addr_inw [k.half port] with
        eax := (c.framed k.addr_inw [k.half port]).eax &&& 0xffff0000 ||| (bus.inw port devices).1.toUInt32
        edx := k.half port
        eflags := (c.framed k.addr_inw [k.half port]).eflags }, (bus.inw port devices).2) := by
    simp only [run_ports, List.foldl_cons, List.foldl_nil, PortInstr.exec, Instr.exec, Cpu.get, Cpu.set, hport,
      k.half_low]
  obtain ⟨e, hcall, hkept, heax⟩ := call_ports_kept hone hbody
  refine ⟨e, hcall, hkept, ?_⟩
  rw [heax]
  exact low_half _ _

theorem outb_call (port : u16) (value : u8) :
    ∃ e, call_ports k.flags bus k.addr_outb [k.half port, k.byte value] outb (c, devices) =
      (e, bus.outb port value devices) ∧ Cpu.Kept 16 c e := by
  obtain ⟨hport, hvalue, -⟩ := framed_args c k.addr_outb [k.half port, k.byte value] le_rfl
  rw [second_place] at hvalue
  have hbody : run_ports k.flags bus
      [.instr (.load .edx .ebp 8), .instr (.load .eax .ebp 12), .out_al, .instr .nop, .instr .nop, .instr .nop]
      (c.framed k.addr_outb [k.half port, k.byte value], devices) =
      ({ c.framed k.addr_outb [k.half port, k.byte value] with
        eax := k.byte value
        edx := k.half port
        eflags := (c.framed k.addr_outb [k.half port, k.byte value]).eflags }, bus.outb port value devices) := by
    simp only [run_ports, List.foldl_cons, List.foldl_nil, PortInstr.exec, Instr.exec, Cpu.get, Cpu.set, hport, hvalue,
      k.half_low, k.byte_low]
  obtain ⟨e, hcall, hkept, -⟩ := call_ports_kept le_rfl hbody
  exact ⟨e, hcall, hkept⟩

theorem outw_call (port value : u16) :
    ∃ e, call_ports k.flags bus k.addr_outw [k.half port, k.half value] outw (c, devices) =
      (e, bus.outw port value devices) ∧ Cpu.Kept 16 c e := by
  obtain ⟨hport, hvalue, -⟩ := framed_args c k.addr_outw [k.half port, k.half value] le_rfl
  rw [second_place] at hvalue
  have hbody : run_ports k.flags bus [.instr (.load .edx .ebp 8), .instr (.load .eax .ebp 12), .out_ax]
      (c.framed k.addr_outw [k.half port, k.half value], devices) =
      ({ c.framed k.addr_outw [k.half port, k.half value] with
        eax := k.half value
        edx := k.half port
        eflags := (c.framed k.addr_outw [k.half port, k.half value]).eflags }, bus.outw port value devices) := by
    simp only [run_ports, List.foldl_cons, List.foldl_nil, PortInstr.exec, Instr.exec, Cpu.get, Cpu.set, hport, hvalue,
      k.half_low]
  obtain ⟨e, hcall, hkept, -⟩ := call_ports_kept le_rfl hbody
  exact ⟨e, hcall, hkept⟩

end Calls

/-- Whatever a driver makes of what it reads, the calls give it what the ports give and reach the devices as it
says, and leave the registers of the caller and its stack. -/
theorem ports_exact (k : Image) (bus : Bus δ) (p : Driver α) (c : Cpu) (devices : δ) :
    ∃ d, carry_out k bus p (c, devices) = ((p.access bus devices).1, d, (p.access bus devices).2) ∧ Cpu.Kept 16 c d := by
  induction p generalizing c devices with
  | answer a => exact ⟨c, rfl, .refl 16 c⟩
  | inb port go ih =>
    obtain ⟨e, hcall, hkept, hvalue⟩ := inb_call k bus c devices port
    obtain ⟨d, hgo, hkept'⟩ := ih (bus.inb port devices).1 e (bus.inb port devices).2
    refine ⟨d, ?_, hkept.trans hkept'⟩
    rw [carry_out, hcall, hvalue]
    exact hgo
  | inw port go ih =>
    obtain ⟨e, hcall, hkept, hvalue⟩ := inw_call k bus c devices port
    obtain ⟨d, hgo, hkept'⟩ := ih (bus.inw port devices).1 e (bus.inw port devices).2
    refine ⟨d, ?_, hkept.trans hkept'⟩
    rw [carry_out, hcall, hvalue]
    exact hgo
  | outb port value go ih =>
    obtain ⟨e, hcall, hkept⟩ := outb_call k bus c devices port value
    obtain ⟨d, hgo, hkept'⟩ := ih e (bus.outb port value devices)
    refine ⟨d, ?_, hkept.trans hkept'⟩
    rw [carry_out, hcall]
    exact hgo
  | outw port value go ih =>
    obtain ⟨e, hcall, hkept⟩ := outw_call k bus c devices port value
    obtain ⟨d, hgo, hkept'⟩ := ih e (bus.outw port value devices)
    refine ⟨d, ?_, hkept.trans hkept'⟩
    rw [carry_out, hcall]
    exact hgo

/-- The functions of io.asm with arguments whose high bits are zero. -/
def Image.zero_extended : Image where
  addr_inb := 0x11000
  addr_inw := 0x11020
  addr_outb := 0x11040
  addr_outw := 0x11060
  flags _ c := c.eflags
  byte := UInt8.toUInt32
  half := UInt16.toUInt32
  byte_low value := UInt8.toUInt8_toUInt32 value
  half_low value := UInt16.toUInt16_toUInt32 value

/-- A clock chip that remembers the number of the register it was given, and shows three times that number. -/
def clock_chip : Bus u8 where
  inb port index := (if port = 0x71 then 3 * (index &&& 0x7f) else 0xff, index)
  inw _ index := (0xffff, index)
  outb port value index := if port = 0x70 then value else index
  outw _ _ index := index

/-- `cmos_read` of rtc.c -/
def cmos_read (addr : u8) : Driver u8 := .outb 0x70 (0x80 ||| addr) (.inb 0x71 .answer)

/-- The processor in C code -/
def in_code : Cpu where
  eax := 0
  ecx := 0
  edx := 0
  ebx := 0
  esp := 0x9000
  ebp := 0x9100
  esi := 0
  edi := 0
  cs := 8
  ds := 0x10
  es := 0x10
  fs := 0x10
  gs := 0x10
  eip := 0x17000
  eflags := 0x202
  ram _ := 0

theorem ports_exact_cmos : ∃ d, carry_out .zero_extended clock_chip (cmos_read 5) (in_code, 0) = (15, d, 0x85) ∧
    Cpu.Kept 16 in_code d :=
  ports_exact .zero_extended clock_chip (cmos_read 5) in_code 0

end onix.Ports
