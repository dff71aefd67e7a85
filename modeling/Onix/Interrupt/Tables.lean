import Onix.Interrupt.Delivery

namespace onix.Interrupt

open Pic

section Tables

theorem fill_apply {α : Type} (value : ℕ → α) {start count : ℕ} (hsize : start + count ≤ IDT_SIZE)
    (table : BitVec 8 → α) (v : BitVec 8) : fill value start count table v =
      if start ≤ v.toNat ∧ v.toNat < start + count then value v.toNat else table v := by
  have hIDT : IDT_SIZE = 256 := rfl
  induction count generalizing start table with
  | zero => rw [fill, if_neg (by omega)]
  | succ count ih =>
    rw [fill, ih (by omega)]
    by_cases hv : v = BitVec.ofNat 8 start
    · have hstart : v.toNat = start := by
        rw [hv, BitVec.toNat_ofNat, Nat.mod_eq_of_lt (by omega)]
      rw [if_neg (by omega), if_pos (by omega), hstart, hv, Function.update_self]
    · have hne : v.toNat ≠ start := fun heq => hv (by rw [← heq, BitVec.ofNat_toNat, BitVec.setWidth_eq])
      rw [Function.update_of_ne hv]
      split_ifs with h h' h' <;> first | rfl | omega

/-- The two halves of the address are the address. -/
theorem gate_to_offset (handler : u32) (DBL : BitVec 2) :
    UInt32.ofBitVec ((gate_to handler DBL).offset1 ++ (gate_to handler DBL).offset0) = handler := by
  have hbound : handler.toNat < 2 ^ 32 := handler.toNat_lt
  have hmask : (0xffff : u32).toNat = 2 ^ 16 - 1 := rfl
  have hlow : (gate_to handler DBL).offset0.toNat = handler.toNat % 2 ^ 16 := by
    simp only [gate_to, UInt16.toNat_toBitVec, UInt32.toNat_toUInt16, UInt32.toNat_and, hmask,
      Nat.and_two_pow_sub_one_eq_mod, Nat.mod_mod]
  have hhigh : (gate_to handler DBL).offset1.toNat = handler.toNat / 2 ^ 16 := by
    have hshift : (16 : u32).toNat % 32 = 16 := rfl
    simp only [gate_to, UInt16.toNat_toBitVec, UInt32.toNat_toUInt16, UInt32.toNat_and, UInt32.toNat_shiftRight, hmask,
      hshift, Nat.and_two_pow_sub_one_eq_mod, Nat.mod_mod, Nat.shiftRight_eq_div_pow]
    omega
  rw [← UInt32.toNat_inj, UInt32.toNat_ofBitVec, BitVec.toNat_append, hlow, hhigh,
    ← Nat.shiftLeft_add_eq_or_of_lt (Nat.mod_lt _ (by norm_num)), Nat.shiftLeft_eq]
  omega

theorem Image.pushed_entry (image : Image) {i : ℕ} (hi : i < ENTRY_SIZE) :
    image.pushed (image.handler_entry_table i) = some i := by
  rw [Image.pushed, List.find?_range_eq_some]
  refine ⟨decide_eq_true rfl, List.mem_range.mpr hi, fun j hj => ?_⟩
  have hne : image.handler_entry_table j ≠ image.handler_entry_table i := fun heq =>
    absurd (image.distinct j (by omega) i hi heq) hj.ne
  rw [decide_eq_false hne]
  rfl

/-- The number of the interrupt of a line -/
def vector (n : Fin 16) : BitVec 8 := BitVec.ofNat 8 (IRQ_MASTER_NR + n.val)

theorem vector_toNat (n : Fin 16) : (vector n).toNat = 0x20 + n.val := by
  have hn := n.isLt
  rw [vector, BitVec.toNat_ofNat, IRQ_MASTER_NR, Nat.mod_eq_of_lt (by omega)]

theorem vector_eq_number (n : Fin 16) : number 0x20 0x28 n = vector n := by
  fin_cases n <;> rfl

theorem vector_injective : Function.Injective vector := fun n k heq => by
  have h := congrArg BitVec.toNat heq
  rw [vector_toNat, vector_toNat] at h
  exact Fin.ext (by omega)

theorem Driver.irq_lt (driver : Driver) : driver.irq.toNat < 16 := by
  cases driver <;> decide

def Driver.line (driver : Driver) : Fin 16 := ⟨driver.irq.toNat, driver.irq_lt⟩

/-- Every gate of an interrupt leads to its stub, and the lines have the default handler or one of their own. -/
structure Tables (image : Image) (s : Interrupts) : Prop where
  idtr : s.idtr = ⟨2047, image.idt⟩
  entries : ∀ v : BitVec 8, v.toNat < ENTRY_SIZE → s.idt v = gate_to (image.handler_entry_table v.toNat) 0
  handlers : ∀ n : Fin 16, s.handler_table (vector n) = .default_handler ∨
    ∃ driver : Driver, driver.line = n ∧ s.handler_table (vector n) = driver.handler

variable {image : Image} {s : Interrupts}

theorem idt_init_idt (image : Image) (s : Interrupts) (v : BitVec 8) : (idt_init image s).idt v =
    if v = 0x80 then gate_to image.syscall_handler 3
    else if v.toNat < ENTRY_SIZE then gate_to (image.handler_entry_table v.toNat) 0 else s.idt v := by
  have hidt : (idt_init image s).idt = Function.update
      (fill (fun i => gate_to (image.handler_entry_table i) 0) 0 ENTRY_SIZE s.idt) 0x80 (gate_to image.syscall_handler 3) := rfl
  rw [hidt]
  by_cases hv : v = 0x80
  · rw [hv, Function.update_self, if_pos rfl]
  · rw [Function.update_of_ne hv, if_neg hv, fill_apply _ (by decide)]
    simp only [Nat.zero_le, true_and, Nat.zero_add]

theorem idt_init_handler (image : Image) (s : Interrupts) (v : BitVec 8) : (idt_init image s).handler_table v =
    if v.toNat < 0x20 then .exception_handler else if v.toNat < ENTRY_SIZE then .default_handler
    else s.handler_table v := by
  have htable : (idt_init image s).handler_table = fill (fun _ => .default_handler) 0x20 (ENTRY_SIZE - 0x20)
      (fill (fun _ => .exception_handler) 0 0x20 s.handler_table) := rfl
  have hsize : 0x20 + (ENTRY_SIZE - 0x20) = ENTRY_SIZE := rfl
  have hENTRY : ENTRY_SIZE = 0x30 := rfl
  rw [htable, fill_apply _ (by decide), fill_apply _ (by decide), hsize]
  split_ifs <;> first | rfl | omega

theorem idt_init_tables (image : Image) (s : Interrupts) : Tables image (idt_init image s) where
  idtr := rfl
  entries v hv := by
    have hne : v ≠ 0x80 := by
      rintro rfl
      exact absurd hv (by decide)
    rw [idt_init_idt, if_neg hne, if_pos hv]
  handlers n := by
    have hn := vector_toNat n
    have hENTRY : ENTRY_SIZE = 0x30 := rfl
    refine .inl ?_
    rw [idt_init_handler, if_neg (by omega), if_pos (by omega)]

/-- A handler of its own is set, and no other changes. -/
theorem Tables.set_interrupt_handler (h : Tables image s) (driver : Driver) :
    ∃ s', set_interrupt_handler driver.irq driver.handler s = some s' ∧ Tables image s' ∧
      s' = { s with handler_table := s'.handler_table } := by
  have htable : ∀ v, (Function.update s.handler_table (vector driver.line) driver.handler) v =
      if v = vector driver.line then driver.handler else s.handler_table v := fun v => Function.update_apply ..
  refine ⟨_, if_pos driver.irq_lt, ⟨h.idtr, h.entries, fun n => ?_⟩, rfl⟩
  by_cases hn : n = driver.line
  · exact .inr ⟨driver, hn.symm, (htable _).trans (if_pos (congrArg vector hn))⟩
  · obtain heq | ⟨driver', hline, heq⟩ := h.handlers n
    · exact .inl ((htable _).trans ((if_neg (vector_injective.ne hn)).trans heq))
    · exact .inr ⟨driver', hline, (htable _).trans ((if_neg (vector_injective.ne hn)).trans heq)⟩

/-- A handler of a line makes the writes of `send_eoi`: its assertion holds. -/
theorem Tables.writes (h : Tables image s) (n : Fin 16) :
    (s.handler_table (vector n)).writes (vector n).toNat = some (send_eoi (vector n).toNat) := by
  obtain heq | ⟨driver, rfl, heq⟩ := h.handlers n
  · rw [heq]
    rfl
  · rw [heq]
    cases driver <;> rfl

theorem Tables.gate (h : Tables image s) (n : Fin 16) :
    s.gate image (vector n) = some (gate_to (image.handler_entry_table (vector n).toNat) 0) := by
  have hn := vector_toNat n
  have hlimit : 8 * (vector n).toNat + 7 ≤ (2047 : u16).toNat := by
    have h2047 : (2047 : u16).toNat = 2047 := rfl
    omega
  have hentry := h.entries (vector n) (by rw [hn, ENTRY_SIZE]; omega)
  rw [Interrupts.gate, hentry, h.idtr, if_pos ⟨rfl, hlimit, rfl, rfl, rfl⟩]

/-- An interrupt leads to the handler of its number. -/
theorem Tables.interrupt (h : Tables image s) {glitch : Bool} {n : Fin 16}
    (hn : (s.pics.acknowledge glitch).1 = some (vector n)) : s.interrupt image glitch = some { s with
      pics := (s.pics.acknowledge glitch).2
      IF := false
      outs := send_eoi (vector n).toNat
      called := (s.handler_table (vector n), vector n) :: s.called } := by
  have hlt : (vector n).toNat < ENTRY_SIZE := by
    rw [vector_toNat, ENTRY_SIZE]
    omega
  have hvector : BitVec.ofNat 8 (vector n).toNat = vector n := by rw [BitVec.ofNat_toNat, BitVec.setWidth_eq]
  simp only [Interrupts.interrupt, hn, h.gate, gate_to_offset, image.pushed_entry hlt, hvector, h.writes,
    Option.bind_eq_bind, Option.bind_some]

end Tables

end onix.Interrupt
