import Onix.Entry.Frame

namespace onix.Entry

open I386

/-- `syscall_handler` calls the function of `c.eax` on the arguments in ebx, ecx and edx, and goes
back to `c` with its result. -/
structure Faithful (k : Image) (c called back : Cpu) : Prop where
  function : called.eip = k.syscall_table c.eax
  first : Words.word called.ram (called.esp + 4) = c.ebx
  second : Words.word called.ram (called.esp + 8) = c.ecx
  third : Words.word called.ram (called.esp + 12) = c.edx
  eax : back.eax = (k.code called.eip called).eax
  ecx : back.ecx = c.ecx
  edx : back.edx = c.edx
  ebx : back.ebx = c.ebx
  esp : back.esp = c.esp
  ebp : back.ebp = c.ebp
  esi : back.esi = c.esi
  edi : back.edi = c.edi
  cs : back.cs = c.cs
  ds : back.ds = c.ds
  es : back.es = c.es
  fs : back.fs = c.fs
  gs : back.gs = c.gs
  eip : back.eip = c.eip
  eflags : back.eflags = c.eflags

/-- The entry of a system call is faithful, or calls nothing. -/
def SyscallFaithful (k : Image) (c : Cpu) : Prop :=
  if c.eax < SYSCALL_SIZE then
    ∃ called back, k.syscall_call c = some called ∧ k.syscall_handler c = some back ∧
      Faithful k c called back
  else k.syscall_call c = none

namespace Image

variable {k : Image} {c : Cpu}

/-- The registers when `syscall_check` has returned. -/
def checked_regs (k : Image) (c : Cpu) : Cpu := k.code k.addr_syscall_check (k.syscall_enter c)

/-- Without the argument of the check. -/
def dropped_regs (k : Image) (c : Cpu) : Cpu := exec k.flags [.add_imm .esp 4] (k.checked_regs c)

/-- The registers that `pusha` stores. -/
def saved_regs (k : Image) (c : Cpu) : Cpu := exec k.flags syscall_save (k.dropped_regs c)

/-- The registers when the function of the table is called. -/
def called_regs (k : Image) (c : Cpu) : Cpu :=
  let e := exec k.flags syscall_pass (k.saved_regs c)
  (e.jump k.called).call (k.syscall_table e.eax)

theorem syscall_enter_holds :
    (k.syscall_enter c).Holds [k.checked, c.eax, c.eip, c.cs.toUInt32, c.eflags] :=
  Cpu.push_all_holds c [k.checked, c.eax, c.eip, c.cs.toUInt32, c.eflags] (by simp) trivial

theorem check_enter : k.check (k.syscall_enter c) =
    if SYSCALL_SIZE ≤ c.eax then none else some (k.checked_regs c) := by
  obtain ⟨-, hnr, -⟩ := k.syscall_enter_holds (c := c)
  unfold check
  rw [hnr]
  rfl

theorem syscall_call_eq : k.syscall_call c =
    if SYSCALL_SIZE ≤ c.eax then none else some (k.called_regs c) := by
  unfold syscall_call called_regs saved_regs dropped_regs
  rw [check_enter]
  simp only [exec_append]
  split
  · rfl
  · rfl

theorem dropped_holds (hcheck : Cdecl 8 12 (k.code k.addr_syscall_check)) :
    (k.dropped_regs c).Holds [c.eip, c.cs.toUInt32, c.eflags] := by
  have height : (4 : u32) + 4 = 8 := rfl
  obtain ⟨-, -, hback⟩ := k.syscall_enter_holds (c := c)
  rw [UInt32.add_assoc, height] at hback
  have hkept := hcheck.holds (by simp) (by simp) hback
  rw [← height, ← UInt32.add_assoc, ← hcheck.esp] at hkept
  exact hkept

end Image

section Save

variable (flags : Instr → Cpu → u32) (d : Cpu)

theorem syscall_save_eq : exec flags syscall_save d =
    d.push_all [d.gs.toUInt32, d.fs.toUInt32, d.es.toUInt32, d.ds.toUInt32, 0x80, 0x20231223] := by
  simp only [exec, syscall_save, List.foldl_cons, List.foldl_nil, Instr.exec, Cpu.get_seg, Cpu.push_all,
    Cpu.push_ds, Cpu.push_es, Cpu.push_fs, Cpu.push_gs]

theorem syscall_pass_eq : exec flags syscall_pass d =
    d.push_all [d.ebx, d.ecx, d.eax, 0x80, d.edi, d.esi, d.ebp, d.esp, d.ebx, d.edx, d.ecx, d.eax] := by
  simp only [exec, syscall_pass, List.foldl_cons, List.foldl_nil, Instr.exec, Cpu.get, Cpu.push_all,
    Cpu.push_eax, Cpu.push_ecx, Cpu.push_ebx]

theorem syscall_result_holds {e : Cpu} {ws : List u32} (hlen : 4 * ws.length ≤ 2 ^ 32) (height : 8 < ws.length)
    (h : Words.Holds e.ram (e.esp + 12) ws) : (exec flags syscall_result e).Holds (ws.set 8 e.eax) := by
  have hplace : 4 * UInt32.ofNat 8 = 8 * 4 := rfl
  have hset := h.set e.eax height hlen
  rw [hplace] at hset
  exact hset

end Save

namespace Image

variable {k : Image} {c : Cpu}

theorem saved_holds (hcheck : Cdecl 8 12 (k.code k.addr_syscall_check)) :
    (k.saved_regs c).Holds ((interrupt_frame (k.saved_regs c) c 0x80 0x20231223).drop 8) := by
  have hpushed := Cpu.push_all_holds _ [(k.dropped_regs c).gs.toUInt32, (k.dropped_regs c).fs.toUInt32,
    (k.dropped_regs c).es.toUInt32, (k.dropped_regs c).ds.toUInt32, 0x80, 0x20231223] (by simp)
    (dropped_holds (c := c) hcheck)
  unfold saved_regs
  rw [syscall_save_eq]
  simp only [interrupt_frame, List.drop_succ_cons, List.drop_zero, Cpu.push_all_gs, Cpu.push_all_fs, Cpu.push_all_es,
    Cpu.push_all_ds]
  exact hpushed

/-- The arguments on the stack, and what `interrupt_exit` is to find behind them. -/
theorem called_holds (hcheck : Cdecl 8 12 (k.code k.addr_syscall_check)) :
    (k.called_regs c).Holds ([k.called, (k.saved_regs c).ebx, (k.saved_regs c).ecx,
      (k.saved_regs c).eax, 0x80] ++ interrupt_frame (k.saved_regs c) c 0x80 0x20231223) := by
  have hpushed := Cpu.push_all_holds _ ([(k.saved_regs c).ebx, (k.saved_regs c).ecx,
    (k.saved_regs c).eax, 0x80] ++ (interrupt_frame (k.saved_regs c) c 0x80 0x20231223).take 8) (by simp [interrupt_frame])
    (saved_holds (c := c) hcheck)
  rw [List.append_assoc, List.take_append_drop] at hpushed
  unfold called_regs
  rw [syscall_pass_eq]
  exact hpushed.call (by simp [interrupt_frame]) k.called _

/-- What the called function returns with, in the place of the eax that was stored. -/
def result_regs (k : Image) (c : Cpu) : Cpu :=
  { k.saved_regs c with eax := (k.code (k.called_regs c).eip (k.called_regs c)).eax }

/-- The function has returned, and `interrupt_exit` finds its result. -/
theorem result_holds (hcheck : Cdecl 8 12 (k.code k.addr_syscall_check))
    (hcode : ∀ a, Cdecl 16 72 (k.code a)) :
    (exec k.flags syscall_result (k.code (k.called_regs c).eip (k.called_regs c))).Holds
      (0x80 :: interrupt_frame (k.result_regs c) c 0x80 0x20231223) := by
  have hsixteen : ∀ a : u32, a + 4 + 4 + 4 + 4 = a + 16 := by grind
  have htwelve : ∀ a : u32, a + 4 + 12 = a + 16 := by grind
  obtain ⟨-, -, -, -, hbehind⟩ := called_holds (c := c) hcheck
  rw [hsixteen] at hbehind
  have hkept := (hcode (k.called_regs c).eip).holds (by simp [interrupt_frame]) (by simp [interrupt_frame]) hbehind
  rw [← htwelve, ← (hcode (k.called_regs c).eip).esp] at hkept
  have hresult := syscall_result_holds k.flags (by simp [interrupt_frame]) (by simp [interrupt_frame]) hkept
  simp only [interrupt_frame, List.append_eq, List.cons_append, List.nil_append, List.set_cons_succ,
    List.set_cons_zero] at hresult
  unfold result_regs
  simp only [interrupt_frame]
  exact hresult

theorem syscall_handler_eq : k.syscall_handler c = if SYSCALL_SIZE ≤ c.eax then none else
    some (k.exit (exec k.flags syscall_result (k.code (k.called_regs c).eip (k.called_regs c)))) := by
  unfold syscall_handler
  rw [syscall_call_eq]
  split
  · rfl
  · rfl

theorem result_esp (hcheck : Cdecl 8 12 (k.code k.addr_syscall_check)) (hcode : ∀ a, Cdecl 16 72 (k.code a)) :
    (exec k.flags syscall_result (k.code (k.called_regs c).eip (k.called_regs c))).esp + 72 = c.esp := by
  have hresult : (exec k.flags syscall_result (k.code (k.called_regs c).eip (k.called_regs c))).esp =
      (k.code (k.called_regs c).eip (k.called_regs c)).esp + 12 := rfl
  have hcalled : (k.called_regs c).esp = (exec k.flags syscall_pass (k.saved_regs c)).esp - 4 := rfl
  have hdropped : (k.dropped_regs c).esp = (k.checked_regs c).esp + 4 := rfl
  have henter : (k.syscall_enter c).esp = c.esp - 4 - 4 - 4 - 4 - 4 := rfl
  rw [hresult, (hcode _).esp, hcalled, syscall_pass_eq, Cpu.push_all_esp]
  unfold saved_regs
  rw [syscall_save_eq, Cpu.push_all_esp, hdropped]
  unfold checked_regs
  rw [hcheck.esp, henter]
  simp only [List.length_cons, List.length_nil]
  have hsix : UInt32.ofNat (0 + 1 + 1 + 1 + 1 + 1 + 1) = 6 := rfl
  have htwelve : UInt32.ofNat (0 + 1 + 1 + 1 + 1 + 1 + 1 + 1 + 1 + 1 + 1 + 1 + 1) = 12 := rfl
  rw [hsix, htwelve]
  grind

/-- All registers are what the check has left of them, but for what `interrupt_exit` restores. -/
theorem exit_result (hcheck : Cdecl 8 12 (k.code k.addr_syscall_check)) (hcode : ∀ a, Cdecl 16 72 (k.code a)) :
    ∃ ram, k.exit (exec k.flags syscall_result (k.code (k.called_regs c).eip (k.called_regs c))) =
      { k.checked_regs c with
        eax := (k.code (k.called_regs c).eip (k.called_regs c)).eax
        esp := c.esp, cs := c.cs, eip := c.eip, eflags := c.eflags, ram := ram } := by
  rw [exit_eq k (result_holds hcheck hcode), result_esp hcheck hcode]
  refine ⟨(exec k.flags syscall_result (k.code (k.called_regs c).eip (k.called_regs c))).ram, ?_⟩
  simp only [result_regs, saved_regs, syscall_save_eq, Cpu.push_all_ecx, Cpu.push_all_edx, Cpu.push_all_ebx,
    Cpu.push_all_ebp, Cpu.push_all_esi, Cpu.push_all_edi, Cpu.push_all_ds, Cpu.push_all_es, Cpu.push_all_fs,
    Cpu.push_all_gs]
  simp only [dropped_regs, exec, List.foldl_cons, List.foldl_nil, Instr.exec, Cpu.set]

theorem called_eip : (k.called_regs c).eip = k.syscall_table (k.checked_regs c).eax := by
  change k.syscall_table (exec k.flags syscall_pass (k.saved_regs c)).eax = _
  rw [syscall_pass_eq, Cpu.push_all_eax]
  unfold saved_regs
  rw [syscall_save_eq, Cpu.push_all_eax]
  rfl

/-- The second and the third argument are what the check has left of ecx and of eax. -/
theorem called_arguments (hcheck : Cdecl 8 12 (k.code k.addr_syscall_check)) :
    Words.word (k.called_regs c).ram ((k.called_regs c).esp + 4) = (k.checked_regs c).ebx ∧
      Words.word (k.called_regs c).ram ((k.called_regs c).esp + 8) = (k.checked_regs c).ecx ∧
      Words.word (k.called_regs c).ram ((k.called_regs c).esp + 12) = (k.checked_regs c).eax := by
  have height : ∀ a : u32, a + 4 + 4 = a + 8 := by grind
  have htwelve : ∀ a : u32, a + 4 + 8 = a + 12 := by grind
  have hsaved : ∀ {α : Type} (f : Cpu → α), (∀ d ws, f (d.push_all ws) = f d) →
      f (k.saved_regs c) = f (k.dropped_regs c) := by
    intro α f hf
    unfold saved_regs
    rw [syscall_save_eq, hf]
  obtain ⟨-, hebx, hecx, heax, -⟩ := called_holds (c := c) hcheck
  rw [height] at hecx
  rw [height, htwelve] at heax
  refine ⟨hebx.trans ?_, hecx.trans ?_, heax.trans ?_⟩
  · exact hsaved Cpu.ebx fun d ws => d.push_all_ebx ws
  · exact hsaved Cpu.ecx fun d ws => d.push_all_ecx ws
  · exact hsaved Cpu.eax fun d ws => d.push_all_eax ws

/-- What the check has to leave alone, and so does the code around it. -/
theorem checked_keeps (hcheck : Cdecl 8 12 (k.code k.addr_syscall_check)) :
    ((k.checked_regs c).ebx = c.ebx ∧ (k.checked_regs c).ebp = c.ebp ∧ (k.checked_regs c).esi = c.esi ∧
      (k.checked_regs c).edi = c.edi) ∧ (k.checked_regs c).ds = c.ds ∧ (k.checked_regs c).es = c.es ∧
      (k.checked_regs c).fs = c.fs ∧ (k.checked_regs c).gs = c.gs := by
  unfold checked_regs
  rw [hcheck.ebx, hcheck.ebp, hcheck.esi, hcheck.edi, hcheck.ds, hcheck.es, hcheck.fs, hcheck.gs]
  simp only [syscall_enter, exec, List.foldl_cons, List.foldl_nil, Instr.exec, Cpu.call, Cpu.jump, Cpu.interrupt,
    Cpu.push_ebx, Cpu.push_ebp, Cpu.push_esi, Cpu.push_edi, Cpu.push_ds, Cpu.push_es, Cpu.push_fs, Cpu.push_gs,
    Cpu.push_all_ebx, Cpu.push_all_ebp, Cpu.push_all_esi, Cpu.push_all_edi, Cpu.push_all_ds, Cpu.push_all_es,
    Cpu.push_all_fs, Cpu.push_all_gs, and_self]

/-- The check leaves the registers as `syscall_handler` goes on to use them: ecx and edx are the
caller's, and eax is the caller's edx and selects the same function as the number of the call. -/
structure CheckPasses (k : Image) (c : Cpu) : Prop where
  eax : (k.checked_regs c).eax = c.edx
  function : k.syscall_table (k.checked_regs c).eax = k.syscall_table c.eax
  ecx : (k.checked_regs c).ecx = c.ecx
  edx : (k.checked_regs c).edx = c.edx

theorem faithful_iff_passes (hcheck : Cdecl 8 12 (k.code k.addr_syscall_check))
    (hcode : ∀ a, Cdecl 16 72 (k.code a)) {back : Cpu}
    (hback : k.exit (exec k.flags syscall_result (k.code (k.called_regs c).eip (k.called_regs c))) = back) :
    Faithful k c (k.called_regs c) back ↔ k.CheckPasses c := by
  obtain ⟨ram, hexit⟩ := exit_result (c := c) hcheck hcode
  obtain ⟨hfirst, hsecond, hthird⟩ := called_arguments (c := c) hcheck
  obtain ⟨⟨hebx, hebp, hesi, hedi⟩, hds, hes, hfs, hgs⟩ := checked_keeps (c := c) hcheck
  rw [hback] at hexit
  subst hexit
  constructor
  · intro h
    refine ⟨?_, ?_, h.ecx, h.edx⟩
    · rw [← h.third, hthird]
    · rw [← h.function, called_eip]
  · intro h
    constructor
    case function => rw [called_eip, h.function]
    case first => exact hfirst.trans hebx
    case second => exact hsecond.trans h.ecx
    case third => exact hthird.trans h.eax
    case eax => rfl
    case ecx => exact h.ecx
    case edx => exact h.edx
    case ebx => exact hebx
    case esp => rfl
    case ebp => exact hebp
    case esi => exact hesi
    case edi => exact hedi
    case cs => rfl
    case ds => exact hds
    case es => exact hes
    case fs => exact hfs
    case gs => exact hgs
    case eip => rfl
    case eflags => rfl

end Image

/-- System calls are faithful exactly when the check leaves in eax, ecx and edx what is needed of them. -/
theorem syscall_faithful_iff (k : Image) (c : Cpu) (hcheck : Cdecl 8 12 (k.code k.addr_syscall_check))
    (hcode : ∀ a, Cdecl 16 72 (k.code a)) :
    SyscallFaithful k c ↔ (c.eax < SYSCALL_SIZE → k.CheckPasses c) := by
  unfold SyscallFaithful
  by_cases hnr : c.eax < SYSCALL_SIZE
  · have hle : ¬ SYSCALL_SIZE ≤ c.eax := UInt32.not_le.mpr hnr
    rw [if_pos hnr, Image.syscall_call_eq, Image.syscall_handler_eq, if_neg hle, if_neg hle]
    have hiff := Image.faithful_iff_passes (c := c) hcheck hcode rfl
    constructor
    · rintro ⟨called, back, hcalled, hback, h⟩ -
      cases hcalled
      cases hback
      exact hiff.mp h
    · intro h
      exact ⟨_, _, rfl, rfl, hiff.mpr (h hnr)⟩
  · have hle : SYSCALL_SIZE ≤ c.eax := UInt32.not_lt.mp hnr
    rw [if_neg hnr, Image.syscall_call_eq, if_pos hle]
    exact ⟨fun _ h => absurd h hnr, fun _ => rfl⟩

/-- Functions that return at once. -/
def Image.idle : Image where
  flags _ c := c.eflags
  handler_entry_table n := 0x10000 + n
  handler_table n := 0x11000 + n
  addr_interrupt_exit := 0x12000
  addr_task_switch := 0x13000
  addr_syscall_handler := 0x14000
  addr_syscall_check := 0x15000
  syscall_table n := 0x16000 + n
  checked := 0x14006
  called := 0x14020
  code _ := Cpu.ret

/-- A caller with its number in eax and a third argument in edx. -/
def caller (nr third : u32) : Cpu where
  eax := nr
  ecx := 0
  edx := third
  ebx := 0
  esp := 0x9000
  ebp := 0x9100
  esi := 0
  edi := 0
  cs := CODE_SELECTOR
  ds := 0x10
  es := 0x10
  fs := 0x10
  gs := 0x10
  eip := 0x17000
  eflags := 0x202
  ram _ := 0

theorem syscall_faithful_iff_idle :
    SyscallFaithful Image.idle (caller 2 2) ↔ (2 < SYSCALL_SIZE → Image.idle.CheckPasses (caller 2 2)) :=
  syscall_faithful_iff Image.idle (caller 2 2) (cdecl_ret 8 12) fun _ => cdecl_ret 16 72

/-- The third argument of the called function is the number of the call. -/
theorem third_argument_lost : ¬ ∀ (k : Image) (c : Cpu), Cdecl 8 12 (k.code k.addr_syscall_check) →
    (∀ a, Cdecl 16 72 (k.code a)) → SyscallFaithful k c := by
  intro h
  have hcalls := h Image.idle (caller 1 5) (cdecl_ret 8 12) fun _ => cdecl_ret 16 72
  unfold SyscallFaithful at hcalls
  rw [if_pos (by decide), Image.syscall_call_eq, if_neg (by decide)] at hcalls
  obtain ⟨called, back, hcalled, -, hfaithful⟩ := hcalls
  cases hcalled
  obtain ⟨-, -, hthird⟩ := Image.called_arguments (c := caller 1 5) (k := Image.idle) (cdecl_ret 8 12)
  have heq : (1 : u32) = 5 := hthird.symm.trans hfaithful.third
  exact absurd heq (by decide)

end onix.Entry
