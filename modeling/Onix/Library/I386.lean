import Onix.Library.Words

/-! Straight-line code of the i386 in a flat address space, and the stack it works on. -/

namespace I386

open Words

structure Cpu where
  eax : UInt32
  ecx : UInt32
  edx : UInt32
  ebx : UInt32
  esp : UInt32
  ebp : UInt32
  esi : UInt32
  edi : UInt32
  cs : UInt16
  ds : UInt16
  es : UInt16
  fs : UInt16
  gs : UInt16
  eip : UInt32
  eflags : UInt32
  ram : Ram

inductive Reg
  | eax | ecx | edx | ebx | esp | ebp | esi | edi

inductive Seg
  | ds | es | fs | gs

namespace Cpu

def get (c : Cpu) : Reg → UInt32
  | .eax => c.eax
  | .ecx => c.ecx
  | .edx => c.edx
  | .ebx => c.ebx
  | .esp => c.esp
  | .ebp => c.ebp
  | .esi => c.esi
  | .edi => c.edi

def set (c : Cpu) (value : UInt32) : Reg → Cpu
  | .eax => { c with eax := value }
  | .ecx => { c with ecx := value }
  | .edx => { c with edx := value }
  | .ebx => { c with ebx := value }
  | .esp => { c with esp := value }
  | .ebp => { c with ebp := value }
  | .esi => { c with esi := value }
  | .edi => { c with edi := value }

def get_seg (c : Cpu) : Seg → UInt16
  | .ds => c.ds
  | .es => c.es
  | .fs => c.fs
  | .gs => c.gs

def set_seg (c : Cpu) (value : UInt16) : Seg → Cpu
  | .ds => { c with ds := value }
  | .es => { c with es := value }
  | .fs => { c with fs := value }
  | .gs => { c with gs := value }

/-- The word on top of the stack. -/
def top (c : Cpu) : UInt32 := word c.ram c.esp

def push (c : Cpu) (value : UInt32) : Cpu :=
  { c with esp := c.esp - 4, ram := put c.ram (c.esp - 4) value }

def drop (c : Cpu) : Cpu := { c with esp := c.esp + 4 }

def pop (c : Cpu) (r : Reg) : Cpu := c.drop.set c.top r

def jump (c : Cpu) (target : UInt32) : Cpu := { c with eip := target }

/-- The last of the words is pushed first. -/
def push_all (c : Cpu) : List UInt32 → Cpu
  | [] => c
  | w :: ws => (c.push_all ws).push w

end Cpu

/-- `add_imm` and `and_imm` are the arithmetic on a register. -/
inductive Instr
  | nop
  | push (r : Reg)
  | push_imm (value : UInt32)
  | push_seg (s : Seg)
  | pusha
  | pop (r : Reg)
  | pop_seg (s : Seg)
  | popa
  | mov (dest src : Reg)
  | load (dest base : Reg) (disp : UInt32)
  | store (base : Reg) (disp : UInt32) (src : Reg)
  | add_imm (r : Reg) (value : UInt32)
  | and_imm (r : Reg) (value : UInt32)

/-- `flags` is what arithmetic leaves in eflags. -/
def Instr.exec (flags : Instr → Cpu → UInt32) (c : Cpu) : Instr → Cpu
  | .nop => c
  | .push r => c.push (c.get r)
  | .push_imm value => c.push value
  | .push_seg s => c.push (c.get_seg s).toUInt32
  | .pusha => c.push_all [c.edi, c.esi, c.ebp, c.esp, c.ebx, c.edx, c.ecx, c.eax]
  | .pop r => c.pop r
  | .pop_seg s => c.drop.set_seg c.top.toUInt16 s
  | .popa => (((((((c.pop .edi).pop .esi).pop .ebp).drop.pop .ebx).pop .edx).pop .ecx).pop .eax)
  | .mov dest src => c.set (c.get src) dest
  | .load dest base disp => c.set (word c.ram (c.get base + disp)) dest
  | .store base disp src => { c with ram := put c.ram (c.get base + disp) (c.get src) }
  | .add_imm r value =>
    { c.set (c.get r + value) r with eflags := flags (.add_imm r value) c }
  | .and_imm r value =>
    { c.set (c.get r &&& value) r with eflags := flags (.and_imm r value) c }

def exec (flags : Instr → Cpu → UInt32) (is : List Instr) (c : Cpu) : Cpu :=
  is.foldl (Instr.exec flags) c

theorem exec_append (flags : Instr → Cpu → UInt32) (is js : List Instr) (c : Cpu) :
    exec flags (is ++ js) c = exec flags js (exec flags is c) :=
  List.foldl_append

namespace Cpu

/-- A near call, from the instruction before `eip`. -/
def call (c : Cpu) (target : UInt32) : Cpu := (c.push c.eip).jump target

def ret (c : Cpu) : Cpu := c.drop.jump c.top

/-- The flags that an interrupt gate clears: TF, IF, NT, RF and VM. -/
def gate_mask : UInt32 := 0xfffcbcff

/-- Through an interrupt gate, at the privilege of the kernel, from the instruction before `eip`. -/
def interrupt (c : Cpu) (code : UInt16) (entry : UInt32) : Cpu :=
  { c.push_all [c.eip, c.cs.toUInt32, c.eflags] with
    cs := code, eip := entry, eflags := c.eflags &&& gate_mask }

def iret (c : Cpu) : Cpu :=
  { c.drop.drop.drop with
    eip := c.top, cs := c.drop.top.toUInt16, eflags := c.drop.drop.top }

/-- The words on the stack, the top first. -/
def Holds (c : Cpu) (ws : List UInt32) : Prop := Words.Holds c.ram c.esp ws

section Fields

variable (c : Cpu) (value : UInt32)

@[simp] theorem push_eax : (c.push value).eax = c.eax := rfl
@[simp] theorem push_ecx : (c.push value).ecx = c.ecx := rfl
@[simp] theorem push_edx : (c.push value).edx = c.edx := rfl
@[simp] theorem push_ebx : (c.push value).ebx = c.ebx := rfl
@[simp] theorem push_ebp : (c.push value).ebp = c.ebp := rfl
@[simp] theorem push_esi : (c.push value).esi = c.esi := rfl
@[simp] theorem push_edi : (c.push value).edi = c.edi := rfl
@[simp] theorem push_cs : (c.push value).cs = c.cs := rfl
@[simp] theorem push_ds : (c.push value).ds = c.ds := rfl
@[simp] theorem push_es : (c.push value).es = c.es := rfl
@[simp] theorem push_fs : (c.push value).fs = c.fs := rfl
@[simp] theorem push_gs : (c.push value).gs = c.gs := rfl
@[simp] theorem push_eip : (c.push value).eip = c.eip := rfl
@[simp] theorem push_eflags : (c.push value).eflags = c.eflags := rfl
@[simp] theorem push_esp : (c.push value).esp = c.esp - 4 := rfl

@[simp] theorem jump_eip : (c.jump value).eip = value := rfl

@[simp] theorem jump_holds (ws : List UInt32) : (c.jump value).Holds ws ↔ c.Holds ws := Iff.rfl

end Fields

section Push

variable (c : Cpu) (ws : List UInt32)

theorem push_all_esp : (c.push_all ws).esp = c.esp - 4 * UInt32.ofNat ws.length := by
  induction ws with
  | nil => simp [push_all]
  | cons w ws ih =>
    have hlen : UInt32.ofNat (w :: ws).length = UInt32.ofNat ws.length + 1 := by
      rw [List.length_cons, UInt32.ofNat_add]
      rfl
    change (c.push_all ws).esp - 4 = _
    rw [ih, hlen]
    grind

/-- Pushing changes the stack pointer and the memory and nothing else. -/
theorem push_all_regs :
    c.push_all ws = { c with esp := (c.push_all ws).esp, ram := (c.push_all ws).ram } := by
  induction ws with
  | nil => rfl
  | cons w ws ih =>
    change (c.push_all ws).push w = _
    unfold push
    rw [ih]
    rfl

@[simp] theorem push_all_eax : (c.push_all ws).eax = c.eax := by rw [push_all_regs]
@[simp] theorem push_all_ecx : (c.push_all ws).ecx = c.ecx := by rw [push_all_regs]
@[simp] theorem push_all_edx : (c.push_all ws).edx = c.edx := by rw [push_all_regs]
@[simp] theorem push_all_ebx : (c.push_all ws).ebx = c.ebx := by rw [push_all_regs]
@[simp] theorem push_all_ebp : (c.push_all ws).ebp = c.ebp := by rw [push_all_regs]
@[simp] theorem push_all_esi : (c.push_all ws).esi = c.esi := by rw [push_all_regs]
@[simp] theorem push_all_edi : (c.push_all ws).edi = c.edi := by rw [push_all_regs]
@[simp] theorem push_all_cs : (c.push_all ws).cs = c.cs := by rw [push_all_regs]
@[simp] theorem push_all_ds : (c.push_all ws).ds = c.ds := by rw [push_all_regs]
@[simp] theorem push_all_es : (c.push_all ws).es = c.es := by rw [push_all_regs]
@[simp] theorem push_all_fs : (c.push_all ws).fs = c.fs := by rw [push_all_regs]
@[simp] theorem push_all_gs : (c.push_all ws).gs = c.gs := by rw [push_all_regs]
@[simp] theorem push_all_eip : (c.push_all ws).eip = c.eip := by rw [push_all_regs]
@[simp] theorem push_all_eflags : (c.push_all ws).eflags = c.eflags := by rw [push_all_regs]

theorem push_all_append (vs : List UInt32) : c.push_all (ws ++ vs) = (c.push_all vs).push_all ws := by
  induction ws with
  | nil => rfl
  | cons w ws ih => exact congrArg (Cpu.push · w) ih

variable {c ws}

/-- What is pushed goes by the stack alone. -/
theorem push_all_congr (c d : Cpu) (ws : List UInt32) (hesp : d.esp = c.esp) (hram : d.ram = c.ram) :
    (d.push_all ws).esp = (c.push_all ws).esp ∧ (d.push_all ws).ram = (c.push_all ws).ram := by
  induction ws with
  | nil => exact ⟨hesp, hram⟩
  | cons w ws ih =>
    obtain ⟨hesp', hram'⟩ := ih
    simp only [push_all, push, hesp', hram', and_self]

theorem Holds.push (hlen : 4 * (ws.length + 1) ≤ 2 ^ 32) (h : c.Holds ws) (value : UInt32) :
    (c.push value).Holds (value :: ws) := by
  apply Words.Holds.put hlen
  rwa [UInt32.sub_add_cancel]

theorem Holds.call (hlen : 4 * (ws.length + 1) ≤ 2 ^ 32) (h : c.Holds ws) (here target : UInt32) :
    ((c.jump here).call target).Holds (here :: ws) :=
  h.push hlen here

theorem push_all_holds (c : Cpu) (ws : List UInt32) {vs : List UInt32} (hlen : 4 * (ws.length + vs.length) ≤ 2 ^ 32)
    (h : c.Holds vs) : (c.push_all ws).Holds (ws ++ vs) := by
  induction ws with
  | nil => exact h
  | cons w ws ih =>
    rw [List.length_cons] at hlen
    have hroom : 4 * ((ws ++ vs).length + 1) ≤ 2 ^ 32 := by
      rw [List.length_append]
      omega
    exact (ih (by omega)).push hroom w

/-- Only the bytes that the stack grows over change. -/
theorem push_all_apart (hlen : 4 * ws.length ≤ 2 ^ 32) {b : UInt32}
    (h : 4 * ws.length ≤ (b - (c.push_all ws).esp).toNat) : (c.push_all ws).ram b = c.ram b := by
  induction ws with
  | nil => rfl
  | cons w ws ih =>
    rw [List.length_cons] at hlen h
    have hesp : (c.push_all (w :: ws)).esp = (c.push_all ws).esp - 4 := rfl
    rw [hesp] at h
    have hput : (c.push_all (w :: ws)).ram b = (c.push_all ws).ram b := put_apart (by omega)
    rw [hput]
    apply ih (by omega)
    have hsplit : b - (c.push_all ws).esp = b - ((c.push_all ws).esp - 4) - 4 := by grind
    have hfour : UInt32.toNat 4 = 4 := rfl
    have hle : (4 : UInt32) ≤ b - ((c.push_all ws).esp - 4) := by
      rw [UInt32.le_iff_toNat_le, hfour]
      omega
    rw [hsplit, UInt32.toNat_sub_of_le _ _ hle, hfour]
    omega

end Push

end Cpu

/-- What the calling convention promises of a function: eax, ecx, edx and its arguments are its own,
and the `keep` bytes that lie `behind` the return address and the arguments are not. -/
structure Cdecl (behind : UInt32) (keep : Nat) (f : Cpu → Cpu) : Prop where
  eip : ∀ c, (f c).eip = c.top
  esp : ∀ c, (f c).esp = c.esp + 4
  ebx : ∀ c, (f c).ebx = c.ebx
  ebp : ∀ c, (f c).ebp = c.ebp
  esi : ∀ c, (f c).esi = c.esi
  edi : ∀ c, (f c).edi = c.edi
  cs : ∀ c, (f c).cs = c.cs
  ds : ∀ c, (f c).ds = c.ds
  es : ∀ c, (f c).es = c.es
  fs : ∀ c, (f c).fs = c.fs
  gs : ∀ c, (f c).gs = c.gs
  ram : ∀ c b, (b - (c.esp + behind)).toNat < keep → (f c).ram b = c.ram b

/-- The words behind the arguments are still there after the call. -/
theorem Cdecl.holds {behind : UInt32} {keep : Nat} {f : Cpu → Cpu} (hf : Cdecl behind keep f) {c : Cpu}
    {ws : List UInt32} (hkeep : 4 * ws.length ≤ keep) (hlen : 4 * ws.length ≤ 2 ^ 32)
    (h : Words.Holds c.ram (c.esp + behind) ws) : Words.Holds (f c).ram (c.esp + behind) ws := by
  apply h.congr hlen
  intro b hb
  apply hf.ram
  omega

/-- To return at once is all that the convention asks for. -/
theorem cdecl_ret (behind : UInt32) (keep : Nat) : Cdecl behind keep Cpu.ret where
  eip _ := rfl
  esp _ := rfl
  ebx _ := rfl
  ebp _ := rfl
  esi _ := rfl
  edi _ := rfl
  cs _ := rfl
  ds _ := rfl
  es _ := rfl
  fs _ := rfl
  gs _ := rfl
  ram _ _ _ := rfl

end I386
