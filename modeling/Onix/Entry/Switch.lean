import Onix.Entry.Frame

namespace onix.Entry

open I386

/-- What `task_switch` leaves on the stack of its caller, the last pushed first. -/
def switch_frame (c : Cpu) : List u32 := [c.edi, c.esi, c.ebx, c.ebp, c.eip]

/-- The memory when `task_switch` has saved the registers and, at the start of the page, the stack pointer. -/
def saved_ram (c : Cpu) : Words.Ram :=
  Words.put (c.push_all (switch_frame c)).ram ((c.push_all (switch_frame c)).esp &&& 0xfffff000)
    (c.push_all (switch_frame c)).esp

section Halves

variable (flags : Instr → Cpu → u32)

theorem task_switch_save_regs (c : Cpu) (target : u32) :
    (exec flags task_switch_save (c.call target)).ram = saved_ram c ∧
      (exec flags task_switch_save (c.call target)).ebp = c.esp - 8 := by
  have height : c.esp - 4 - 4 = c.esp - 8 := by grind
  unfold saved_ram switch_frame
  simp only [exec, task_switch_save, List.foldl_cons, List.foldl_nil, Instr.exec, Cpu.get, Cpu.set, Cpu.call,
    Cpu.jump, Cpu.push, Cpu.push_all, UInt32.add_zero, height, and_self]

theorem task_switch_load_regs {d : Cpu} {next stack edi esi ebx ebp eip : u32}
    (hnext : Words.word d.ram (d.ebp + 8) = next) (hstack : Words.word d.ram next = stack)
    (h : Words.Holds d.ram stack [edi, esi, ebx, ebp, eip]) :
    (exec flags task_switch_load d).ret = { d with
      eax := next, esp := stack + 20, edi := edi, esi := esi, ebx := ebx, ebp := ebp, eip := eip } := by
  obtain ⟨hedi, hesi, hebx, hebp, heip, -⟩ := h
  have htwenty : stack + 4 + 4 + 4 + 4 + 4 = stack + 20 := by grind
  simp only [exec, task_switch_load, List.foldl_cons, List.foldl_nil, Instr.exec, Cpu.get, Cpu.set, Cpu.ret,
    Cpu.jump, Cpu.pop, Cpu.drop, Cpu.top, UInt32.add_zero, hnext, hstack, hedi, hesi, hebx, hebp, heip, htwenty]

end Halves

/-- The registers of the frame that the first word of the page of `next` points to. -/
theorem Image.switch_eq (k : Image) {c : Cpu} {next stack edi esi ebx ebp eip : u32}
    (hnext : Words.word (saved_ram c) c.esp = next) (hstack : Words.word (saved_ram c) next = stack)
    (h : Words.Holds (saved_ram c) stack [edi, esi, ebx, ebp, eip]) :
    (k.switch c).ram = saved_ram c ∧ (k.switch c).esp = stack + 20 ∧ (k.switch c).edi = edi ∧
      (k.switch c).esi = esi ∧ (k.switch c).ebx = ebx ∧ (k.switch c).ebp = ebp ∧ (k.switch c).eip = eip := by
  obtain ⟨hram, hebp⟩ := task_switch_save_regs k.flags c k.addr_task_switch
  have hargument : c.esp - 8 + 8 = c.esp := UInt32.sub_add_cancel c.esp 8
  rw [← hargument, ← hebp, ← hram] at hnext
  rw [← hram] at hstack h
  unfold switch
  rw [exec_append, task_switch_load_regs k.flags hnext hstack h]
  exact ⟨hram, rfl, rfl, rfl, rfl, rfl, rfl⟩

end onix.Entry
