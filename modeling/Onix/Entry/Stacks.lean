import Onix.Entry.Tasks

namespace onix.Entry

open I386

section Pages

variable {a page other : u32}

theorem page_mask_toNat (a : u32) : (a &&& (0xfffff000 : u32)).toNat = a.toNat / 4096 * 4096 := by
  have hmask : ∀ i < 32, (0xfffff000#32).getLsbD i = decide (12 ≤ i) := by decide
  have hand : a.toBitVec &&& 0xfffff000#32 = (a.toBitVec >>> 12) <<< 12 := by
    apply BitVec.eq_of_getLsbD_eq
    intro i hi
    rw [BitVec.getLsbD_and, hmask i hi, BitVec.getLsbD_shiftLeft, BitVec.getLsbD_ushiftRight]
    grind
  have hlt := a.toNat_lt
  change (a.toBitVec &&& 0xfffff000#32).toNat = _
  rw [hand, BitVec.toNat_shiftLeft, BitVec.toNat_ushiftRight, Nat.shiftLeft_eq, Nat.shiftRight_eq_div_pow]
  change a.toNat / 2 ^ 12 * 2 ^ 12 % 2 ^ 32 = _
  omega

/-- The page of a byte, as `task_switch` finds it. -/
theorem page_of_byte (haligned : page &&& 0xfff = 0) (h : (a - page).toNat < 4096) :
    a &&& 0xfffff000 = page := by
  have hmod := (Words.and_fff page).mp haligned
  have ha := a.toNat_lt
  have hpage := page.toNat_lt
  rw [UInt32.toNat_sub] at h
  apply UInt32.toNat_inj.mp
  rw [page_mask_toNat]
  omega

/-- No byte is in two pages. -/
theorem page_apart (haligned : page &&& 0xfff = 0) (haligned' : other &&& 0xfff = 0) (hne : page ≠ other)
    (h : (a - page).toNat < 4096) : 4096 ≤ (a - other).toNat := by
  by_contra hlt
  apply hne
  rw [← page_of_byte haligned h, page_of_byte haligned' (by omega)]

/-- What lies `n` bytes below, as a byte of the page. -/
theorem offset_sub {n : u32} (h : n.toNat ≤ (a - page).toNat) : (a - n - page).toNat = (a - page).toNat - n.toNat := by
  have hsplit : a - n - page = a - page - n := by grind
  have hle : n ≤ a - page := by
    rw [UInt32.le_iff_toNat_le]
    exact h
  rw [hsplit, UInt32.toNat_sub_of_le _ _ hle]

end Pages

section Pushed

variable {c : Cpu} {ws : List u32} {page b : u32}

/-- The stack pointer after pushing, as a byte of the page. -/
theorem pushed_esp (c : Cpu) (ws : List u32) (page : u32) (hroom : 4 * ws.length ≤ (c.esp - page).toNat) :
    ((c.push_all ws).esp - page).toNat = (c.esp - page).toNat - 4 * ws.length := by
  have hlt := (c.esp - page).toNat_lt
  have hfour : (4 * UInt32.ofNat ws.length).toNat = 4 * ws.length := by
    rw [UInt32.toNat_mul, UInt32.toNat_ofNat_of_lt' (show ws.length < 2 ^ 32 by omega)]
    change 4 * ws.length % 2 ^ 32 = _
    omega
  rw [Cpu.push_all_esp, offset_sub (by omega), hfour]

/-- Only the bytes between the two stack pointers change. -/
theorem pushed_apart (hroom : 4 * ws.length ≤ (c.esp - page).toNat)
    (h : (c.esp - page).toNat ≤ (b - page).toNat ∨ (b - page).toNat < (c.esp - page).toNat - 4 * ws.length) :
    (c.push_all ws).ram b = c.ram b := by
  have hesp := pushed_esp c ws page hroom
  have hlt := (c.esp - page).toNat_lt
  have hblt := (b - page).toNat_lt
  have hsplit : b - (c.push_all ws).esp = (b - page) - ((c.push_all ws).esp - page) := by grind
  apply Cpu.push_all_apart (by omega)
  rw [hsplit, UInt32.toNat_sub, hesp]
  omega

end Pushed

section Records

variable {page a : u32} {r : Record} {rs : List Record}

/-- The records lie one below the other in the stack area of the page. -/
def Stacked (page : u32) : List Record → Prop
  | [] => True
  | r :: rs => task_size ≤ (r.base - page).toNat ∧
      (r.base - page).toNat + 4 * r.words.length ≤ bottom page rs ∧ Stacked page rs

theorem Stacked.bottom (h : Stacked page rs) : task_size ≤ bottom page rs ∧ bottom page rs ≤ 4096 := by
  induction rs with
  | nil =>
    have hsize : task_size ≤ 4096 := by decide
    exact ⟨hsize, le_refl 4096⟩
  | cons r rs ih =>
    obtain ⟨hlow, hhigh, hrest⟩ := h
    have hrest' := ih hrest
    refine ⟨hlow, ?_⟩
    change (r.base - page).toNat ≤ 4096
    omega

/-- What is kept lies in the stack area, above the bottom. -/
theorem Stacked.kept (h : Stacked page rs) (ha : Kept rs a) :
    Entry.bottom page rs ≤ (a - page).toNat ∧ (a - page).toNat < 4096 := by
  induction rs with
  | nil =>
    obtain ⟨r, hr, -⟩ := ha
    exact absurd hr List.not_mem_nil
  | cons r rs ih =>
    obtain ⟨-, hhigh, hrest⟩ := h
    have hbottom := hrest.bottom
    obtain ⟨q, hq, hqa⟩ := ha
    change (r.base - page).toNat ≤ _ ∧ _
    cases hq with
    | head =>
      have hsplit : a - page = r.base + (a - r.base) - page := by grind
      rw [hsplit, Words.distance_add _ (by omega)]
      omega
    | tail _ hq =>
      obtain ⟨hlow, hlt⟩ := ih hrest ⟨q, hq, hqa⟩
      omega

/-- A record whose bytes stay the same is still held. -/
theorem holds_congr {ram ram' : Words.Ram} (hsame : ∀ a, (a - r.base).toNat < 4 * r.words.length → ram' a = ram a)
    (h : Words.Holds ram r.base r.words) : Words.Holds ram' r.base r.words := by
  apply h.congr _ hsame
  cases r <;> simp [Record.words, first_frame, switch_frame, handler_frame, interrupt_frame]

end Records

end onix.Entry
