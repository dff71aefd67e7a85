import Onix.Entry.Code

namespace onix.Entry

open I386

/-- What `interrupt_exit` takes from the stack: the registers of `regs`, and where to go `back` to. -/
def interrupt_frame (regs back : Cpu) (vector code : u32) : List u32 :=
  [regs.edi, regs.esi, regs.ebp, regs.esp, regs.ebx, regs.edx, regs.ecx, regs.eax,
    regs.gs.toUInt32, regs.fs.toUInt32, regs.es.toUInt32, regs.ds.toUInt32,
    vector, code, back.eip, back.cs.toUInt32, back.eflags]

variable (k : Image) {c regs back : Cpu} {argument vector code : u32}

/-- The stack pointer that `pusha` stored is not taken, all else is. -/
theorem exit_eq (h : c.Holds (argument :: interrupt_frame regs back vector code)) :
    k.exit c = { regs with
      esp := c.esp + 72, cs := back.cs, eip := back.eip, eflags := back.eflags, ram := c.ram } := by
  obtain ⟨-, hedi, hesi, hebp, -, hebx, hedx, hecx, heax, hgs, hfs, hes, hds, -, -, heip, hcs, heflags, -⟩ := h
  have hskip : ∀ a : u32, a + 8 = a + 4 + 4 := fun a => (UInt32.add_assoc a 4 4).symm
  have hesp : c.esp + 4 + 4 + 4 + 4 + 4 + 4 + 4 + 4 + 4 + 4 + 4 + 4 + 4 + 4 + 4 + 4 + 4 + 4 = c.esp + 72 := by
    grind
  unfold Image.exit
  simp only [exec, interrupt_exit, List.foldl_cons, List.foldl_nil, Instr.exec, Cpu.iret, Cpu.pop, Cpu.drop,
    Cpu.top, Cpu.get, Cpu.set, Cpu.set_seg, hskip, hesp, hedi, hesi, hebp, hebx, hedx, hecx, heax, hgs, hfs, hes,
    hds, heip, hcs, heflags, UInt16.toUInt16_toUInt32]

/-- What an interrupt leaves on the stack of the code it interrupts, under the handler. -/
def handler_frame (c : Cpu) (vector : u32) : List u32 :=
  interrupt_frame { c with esp := c.esp - 36 } c vector 0x20222202

section Entry

variable (flags : Instr → Cpu → u32) (d : Cpu) (vector : u32)

theorem interrupt_entry_save_eq : exec flags (INTERRUPT_HANDLER vector ++ interrupt_entry.take 6) d =
    d.push_all [d.edi, d.esi, d.ebp, d.esp - 24, d.ebx, d.edx, d.ecx, d.eax,
      d.gs.toUInt32, d.fs.toUInt32, d.es.toUInt32, d.ds.toUInt32, vector, 0x20222202] := by
  have hsix : d.esp - 4 - 4 - 4 - 4 - 4 - 4 = d.esp - 24 := by grind
  simp only [exec, INTERRUPT_HANDLER, interrupt_entry, List.take_succ_cons, List.take_zero, List.cons_append,
    List.nil_append, List.foldl_cons, List.foldl_nil, Instr.exec, Cpu.get_seg, Cpu.push_all, Cpu.push_eax,
    Cpu.push_ecx, Cpu.push_edx, Cpu.push_ebx, Cpu.push_esp, Cpu.push_ebp, Cpu.push_esi, Cpu.push_edi, Cpu.push_ds,
    Cpu.push_es, Cpu.push_fs, Cpu.push_gs, hsix]

theorem interrupt_entry_pass_eq : exec flags (interrupt_entry.drop 6) d =
    ({ d with eax := Words.word d.ram (d.esp + 12 * 4) } : Cpu).push (Words.word d.ram (d.esp + 12 * 4)) := rfl

end Entry

/-- The vector, twelve words above the stack pointer. -/
theorem handler_frame_vector (c : Cpu) (vector : u32) :
    Words.word (c.push_all (handler_frame c vector)).ram
      ((c.push_all (handler_frame c vector)).esp + 12 * 4) = vector := by
  have hplace : ∀ a : u32, a + 4 + 4 + 4 + 4 + 4 + 4 + 4 + 4 + 4 + 4 + 4 + 4 = a + 12 * 4 := by grind
  have hholds : (c.push_all (handler_frame c vector)).Holds (handler_frame c vector ++ []) :=
    Cpu.push_all_holds _ _ (by simp [handler_frame, interrupt_frame]) trivial
  obtain ⟨-, -, -, -, -, -, -, -, -, -, -, -, hvector, -⟩ := hholds
  rwa [hplace] at hvector

/-- The stubs and `interrupt_entry` push what `interrupt_exit` pops, the argument of the handler and
where it returns to, and store nothing else. -/
theorem enter_stack (c : Cpu) (vector : u32) :
    (k.enter vector c).esp =
        (c.push_all (k.addr_interrupt_exit :: vector :: handler_frame c vector)).esp ∧
      (k.enter vector c).ram =
        (c.push_all (k.addr_interrupt_exit :: vector :: handler_frame c vector)).ram := by
  obtain ⟨d, hd⟩ : ∃ d, d = c.interrupt CODE_SELECTOR (k.handler_entry_table vector) := ⟨_, rfl⟩
  have hsplit : INTERRUPT_HANDLER vector ++ interrupt_entry =
      INTERRUPT_HANDLER vector ++ interrupt_entry.take 6 ++ interrupt_entry.drop 6 := rfl
  have hesp : d.esp - 24 = c.esp - 36 := by
    have hthree : d.esp = c.esp - 4 - 4 - 4 := by rw [hd]; rfl
    rw [hthree]
    grind
  have hframe : [d.edi, d.esi, d.ebp, d.esp - 24, d.ebx, d.edx, d.ecx, d.eax, d.gs.toUInt32, d.fs.toUInt32,
      d.es.toUInt32, d.ds.toUInt32, vector, 0x20222202] ++ [c.eip, c.cs.toUInt32, c.eflags] =
      handler_frame c vector := by
    rw [hesp, hd]
    simp only [Cpu.interrupt, Cpu.push_all_eax, Cpu.push_all_ecx, Cpu.push_all_edx, Cpu.push_all_ebx,
      Cpu.push_all_ebp, Cpu.push_all_esi, Cpu.push_all_edi, Cpu.push_all_ds, Cpu.push_all_es, Cpu.push_all_fs,
      Cpu.push_all_gs, List.cons_append, List.nil_append, handler_frame, interrupt_frame]
  -- the words that the stub and the entry push, on those of the gate
  obtain ⟨hsaved, hsavedram⟩ := Cpu.push_all_congr (c.push_all [c.eip, c.cs.toUInt32, c.eflags]) d
    [d.edi, d.esi, d.ebp, d.esp - 24, d.ebx, d.edx, d.ecx, d.eax, d.gs.toUInt32, d.fs.toUInt32,
      d.es.toUInt32, d.ds.toUInt32, vector, 0x20222202] (by rw [hd]; rfl) (by rw [hd]; rfl)
  rw [← Cpu.push_all_append, hframe, ← interrupt_entry_save_eq k.flags] at hsaved hsavedram
  have hvector := handler_frame_vector c vector
  rw [← hsaved, ← hsavedram] at hvector
  unfold Image.enter
  rw [hsplit, exec_append, interrupt_entry_pass_eq, ← hd, hvector]
  simp only [Cpu.call, Cpu.jump, Cpu.push, Cpu.push_all, hsaved, hsavedram, and_self]

theorem enter_esp (c : Cpu) (vector : u32) : (k.enter vector c).esp = c.esp - 76 := by
  have hlen : (k.addr_interrupt_exit :: vector :: handler_frame c vector).length = 19 := rfl
  have hsize : 4 * UInt32.ofNat 19 = 76 := rfl
  rw [(enter_stack k c vector).1, Cpu.push_all_esp, hlen, hsize]

/-- What `interrupt_exit` is to find, under the return address and the argument of the handler. -/
theorem enter_holds (c : Cpu) (vector : u32) :
    Words.Holds (k.enter vector c).ram (c.esp - 68) (handler_frame c vector) := by
  have hplace : c.esp - 76 + 4 + 4 = c.esp - 68 := by grind
  have hpushed : (c.push_all (k.addr_interrupt_exit :: vector :: handler_frame c vector)).Holds
      (k.addr_interrupt_exit :: vector :: handler_frame c vector ++ []) :=
    Cpu.push_all_holds _ _ (by simp [handler_frame, interrupt_frame]) trivial
  obtain ⟨-, -, hframe⟩ := hpushed
  rw [← (enter_stack k c vector).1, ← (enter_stack k c vector).2, enter_esp, hplace, List.append_eq,
    List.append_nil] at hframe
  exact hframe

end onix.Entry
