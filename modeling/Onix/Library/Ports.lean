import Onix.Library.I386

/-! Code of the i386 that reaches devices through ports. -/

namespace I386

/-- What the reads of a port give and leave of the devices, and what the writes leave. -/
structure Bus (δ : Type) where
  inb : UInt16 → δ → UInt8 × δ
  inw : UInt16 → δ → UInt16 × δ
  outb : UInt16 → UInt8 → δ → δ
  outw : UInt16 → UInt16 → δ → δ

/-- The port is the one in dx. -/
inductive PortInstr
  | instr (i : Instr)
  /-- `xor r, r` -/
  | clear (r : Reg)
  | in_al
  | in_ax
  | out_al
  | out_ax

variable {δ α : Type}

def PortInstr.exec (flags : PortInstr → Cpu → UInt32) (bus : Bus δ) (s : Cpu × δ) : PortInstr → Cpu × δ
  | .instr i => (i.exec (fun i => flags (.instr i)) s.1, s.2)
  | .clear r => ({ s.1.set 0 r with eflags := flags (.clear r) s.1 }, s.2)
  | .in_al =>
    let (value, devices) := bus.inb s.1.edx.toUInt16 s.2
    ({ s.1 with eax := s.1.eax &&& 0xffffff00 ||| value.toUInt32 }, devices)
  | .in_ax =>
    let (value, devices) := bus.inw s.1.edx.toUInt16 s.2
    ({ s.1 with eax := s.1.eax &&& 0xffff0000 ||| value.toUInt32 }, devices)
  | .out_al => (s.1, bus.outb s.1.edx.toUInt16 s.1.eax.toUInt8 s.2)
  | .out_ax => (s.1, bus.outw s.1.edx.toUInt16 s.1.eax.toUInt16 s.2)

def run_ports (flags : PortInstr → Cpu → UInt32) (bus : Bus δ) (is : List PortInstr) (s : Cpu × δ) : Cpu × δ :=
  is.foldl (PortInstr.exec flags bus) s

theorem run_ports_append (flags : PortInstr → Cpu → UInt32) (bus : Bus δ) (is js : List PortInstr) (s : Cpu × δ) :
    run_ports flags bus (is ++ js) s = run_ports flags bus js (run_ports flags bus is s) :=
  List.foldl_append

/-- Code that reaches ports one after the other, with what it reads, and gives an answer. -/
inductive Driver (α : Type)
  | answer (a : α)
  | inb (port : UInt16) (go : UInt8 → Driver α)
  | inw (port : UInt16) (go : UInt16 → Driver α)
  | outb (port : UInt16) (value : UInt8) (go : Driver α)
  | outw (port value : UInt16) (go : Driver α)

/-- The accesses, and nothing of the processor. -/
def Driver.access (bus : Bus δ) : Driver α → δ → α × δ
  | .answer a, devices => (a, devices)
  | .inb port go, devices =>
    let (value, devices) := bus.inb port devices
    (go value).access bus devices
  | .inw port go, devices =>
    let (value, devices) := bus.inw port devices
    (go value).access bus devices
  | .outb port value go, devices => go.access bus (bus.outb port value devices)
  | .outw port value go, devices => go.access bus (bus.outw port value devices)

/-- A call of a function by its caller, who takes its arguments off the stack. -/
def call_ports (flags : PortInstr → Cpu → UInt32) (bus : Bus δ) (target : UInt32) (args : List UInt32)
    (code : List PortInstr) (s : Cpu × δ) : Cpu × δ :=
  let t := run_ports flags bus code ((s.1.push_all args).call target, s.2)
  run_ports flags bus [.instr (.add_imm .esp (4 * UInt32.ofNat args.length))] (t.1.ret, t.2)

/-- The code of a function with `body` between `push ebp` and `mov ebp, esp` and `leave`. -/
def function_code (body : List PortInstr) : List PortInstr :=
  [.instr (.push .ebp), .instr (.mov .ebp .esp)] ++ body ++ [.instr (.mov .esp .ebp), .instr (.pop .ebp)]

section Frame

/-- The processor in a function that has pushed ebp and taken it for its frame. -/
def Cpu.framed (target : UInt32) (args : List UInt32) (c : Cpu) : Cpu :=
  let d := ((c.push_all args).call target).push c.ebp
  { d with ebp := d.esp }

/-- What a call keeps: all but eax, ecx, edx, the flags and `room` bytes below the stack pointer. -/
structure Cpu.Kept (room : UInt32) (c d : Cpu) : Prop where
  eip : d.eip = c.eip
  esp : d.esp = c.esp
  ebx : d.ebx = c.ebx
  ebp : d.ebp = c.ebp
  esi : d.esi = c.esi
  edi : d.edi = c.edi
  segments : d.cs = c.cs ∧ d.ds = c.ds ∧ d.es = c.es ∧ d.fs = c.fs ∧ d.gs = c.gs
  ram : ∀ b, room.toNat ≤ (b - (c.esp - room)).toNat → d.ram b = c.ram b

theorem Cpu.Kept.refl (room : UInt32) (c : Cpu) : Cpu.Kept room c c :=
  ⟨rfl, rfl, rfl, rfl, rfl, rfl, ⟨rfl, rfl, rfl, rfl, rfl⟩, fun _ _ => rfl⟩

theorem Cpu.Kept.trans {room : UInt32} {c d e : Cpu} (h : Cpu.Kept room c d) (h' : Cpu.Kept room d e) :
    Cpu.Kept room c e := by
  obtain ⟨hcs, hds, hes, hfs, hgs⟩ := h.segments
  obtain ⟨hcs', hds', hes', hfs', hgs'⟩ := h'.segments
  refine ⟨h'.eip.trans h.eip, h'.esp.trans h.esp, h'.ebx.trans h.ebx, h'.ebp.trans h.ebp, h'.esi.trans h.esi,
    h'.edi.trans h.edi, ⟨hcs'.trans hcs, hds'.trans hds, hes'.trans hes, hfs'.trans hfs, hgs'.trans hgs⟩,
    fun b hb => ?_⟩
  have hb' := hb
  rw [← h.esp] at hb'
  exact (h'.ram b hb').trans (h.ram b hb)

variable {target : UInt32} {args : List UInt32} {c : Cpu}

theorem framed_holds (c : Cpu) (target : UInt32) (hargs : args.length ≤ 2) :
    (c.framed target args).Holds (c.ebp :: c.eip :: args) := by
  have hnil : c.Holds [] := trivial
  have hpushed := Cpu.push_all_holds c args (by rw [List.length_nil]; omega) hnil
  rw [List.append_nil] at hpushed
  have hcalled : ((c.push_all args).push c.eip).Holds (c.eip :: args) := hpushed.push (by omega) c.eip
  rw [← Cpu.push_all_eip c args] at hcalled ⊢
  exact Cpu.Holds.push (c := (c.push_all args).call target) (by rw [List.length_cons]; omega) hcalled c.ebp

theorem framed_esp : (c.framed target args).esp = c.esp - 4 * UInt32.ofNat args.length - 4 - 4 := by
  change (c.push_all args).esp - 4 - 4 = _
  rw [Cpu.push_all_esp]

/-- Only the bytes below the stack pointer change. -/
theorem framed_apart (hargs : args.length ≤ 2) {b : UInt32} (hb : 16 ≤ (b - (c.esp - 16)).toNat) :
    (c.framed target args).ram b = c.ram b := by
  have hall : (c.framed target args).ram = (c.push_all (c.ebp :: c.eip :: args)).ram := by
    change ((((c.push_all args).push (c.push_all args).eip).jump target).push c.ebp).ram = _
    rw [Cpu.push_all_eip]
    rfl
  have hlen : (c.ebp :: c.eip :: args).length = args.length + 2 := rfl
  have hfour : (4 * UInt32.ofNat (args.length + 2)).toNat = 4 * (args.length + 2) := by
    rw [UInt32.toNat_mul, UInt32.toNat_ofNat_of_lt' (show args.length + 2 < 2 ^ 32 by omega)]
    change 4 * (args.length + 2) % 2 ^ 32 = _
    omega
  have hroom : b - (c.esp - 16) = b - c.esp + 16 := by grind
  have hbelow : b - (c.esp - 4 * UInt32.ofNat (args.length + 2)) = b - c.esp + 4 * UInt32.ofNat (args.length + 2) := by
    grind
  have hlt := (b - c.esp).toNat_lt
  have hsixteen : UInt32.toNat 16 = 16 := rfl
  rw [hroom, UInt32.toNat_add] at hb
  rw [hall]
  apply Cpu.push_all_apart (by omega)
  rw [Cpu.push_all_esp, hlen, hbelow, UInt32.toNat_add]
  omega

variable {flags : PortInstr → Cpu → UInt32} {bus : Bus δ} {body : List PortInstr} {devices devices' : δ}
  {a x f : UInt32}

/-- A function whose body changes eax, edx and the flags keeps to the calling convention, and eax is what it
gives back. -/
theorem call_ports_kept (hargs : args.length ≤ 2)
    (hbody : run_ports flags bus body (c.framed target args, devices) =
      ({ c.framed target args with eax := a, edx := x, eflags := f }, devices')) :
    ∃ e, call_ports flags bus target args (function_code body) (c, devices) = (e, devices') ∧ Cpu.Kept 16 c e ∧
      e.eax = a := by
  have hebp : ((c.push_all args).call target).ebp = c.ebp := Cpu.push_all_ebp c args
  have hfirst : run_ports flags bus [.instr (.push .ebp), .instr (.mov .ebp .esp)]
      ((c.push_all args).call target, devices) = (c.framed target args, devices) := by
    unfold Cpu.framed
    rw [← hebp]
    rfl
  obtain ⟨hback, heip, -⟩ := framed_holds c target hargs
  have hsame : (c.framed target args).ebp = (c.framed target args).esp := rfl
  have hesp : (c.framed target args).esp + 4 + 4 + 4 * UInt32.ofNat args.length = c.esp := by
    rw [framed_esp]
    grind
  have hlast : ∃ g, call_ports flags bus target args (function_code body) (c, devices) =
      ({ c.framed target args with
        eax := a, edx := x, ebp := c.ebp, eip := c.eip, esp := c.esp, eflags := g }, devices') := by
    unfold call_ports function_code
    rw [run_ports_append, run_ports_append, hfirst, hbody]
    simp only [run_ports, List.foldl_cons, List.foldl_nil, PortInstr.exec, Instr.exec, Cpu.get, Cpu.set, Cpu.ret,
      Cpu.jump, Cpu.pop, Cpu.drop, Cpu.top, hsame, hback, heip, hesp]
    exact ⟨_, rfl⟩
  obtain ⟨g, hcall⟩ := hlast
  refine ⟨_, hcall, ⟨rfl, rfl, Cpu.push_all_ebx c args, rfl, Cpu.push_all_esi c args, Cpu.push_all_edi c args,
    ⟨Cpu.push_all_cs c args, Cpu.push_all_ds c args, Cpu.push_all_es c args, Cpu.push_all_fs c args,
      Cpu.push_all_gs c args⟩, fun b hb => framed_apart hargs hb⟩, rfl⟩

end Frame

end I386
