import Onix.Console.Write

namespace onix

theorem sub_add_eq (a b c : u32) : a - (b + c) = a - b - c := by
  rw [UInt32.sub_eq_add_neg, UInt32.neg_add, UInt32.sub_eq_add_neg, ← UInt32.add_assoc,
    UInt32.add_neg_eq_sub, UInt32.add_neg_eq_sub]

namespace Console

/-- Byte `j` of the line that `scroll_up` fills with words of 32 bits. -/
def stripe (j : Nat) : u8 := if j % 4 = 0 then 0x20 else if j % 4 = 1 then 0x07 else 0

variable (c : Console)

theorem store8_ram (addr : u32) (value : u8) (a : u32) :
    (c.store8 addr value).ram a = if a = addr then value else c.ram a :=
  Function.update_apply _ _ _ _

theorem store16_ram (addr : u32) (value : u16) (a : u32) :
    (c.store16 addr value).ram a =
      if a = addr + 1 then (value >>> 8).toUInt8 else if a = addr then value.toUInt8 else c.ram a := by
  unfold store16
  rw [store8_ram, store8_ram]

/-- The distance to the next word is four less, around the end of the address space. -/
theorem sub_add_four_toNat (ptr a : u32) :
    (a - (ptr + 4)).toNat = if (a - ptr).toNat < 4 then (a - ptr).toNat + 2 ^ 32 - 4 else (a - ptr).toNat - 4 := by
  rw [sub_add_eq, UInt32.toNat_sub]
  change (2 ^ 32 - 4 + (a - ptr).toNat) % 2 ^ 32 = _
  have hlt := (a - ptr).toNat_lt
  split_ifs <;> omega

theorem store32_erase_ram (ptr a : u32) :
    (c.store32 ptr erase.toUInt32).ram a = if (a - ptr).toNat < 4 then stripe (a - ptr).toNat else c.ram a := by
  have hat : ∀ n < 2 ^ 32, a = ptr + UInt32.ofNat n ↔ (a - ptr).toNat = n := fun n hn => eq_base_add_iff hn
  have h0 : a = ptr ↔ (a - ptr).toNat = 0 := by rw [← hat 0 (by decide)]; simp
  have h1 : a = ptr + 1 ↔ (a - ptr).toNat = 1 := hat 1 (by decide)
  have h2 : a = ptr + 2 ↔ (a - ptr).toNat = 2 := hat 2 (by decide)
  have h3 : a = ptr + 2 + 1 ↔ (a - ptr).toNat = 3 := by
    rw [← hat 3 (by decide), UInt32.add_assoc]
    rfl
  unfold store32
  rw [store16_ram, store16_ram]
  simp only [h0, h1, h2, h3]
  generalize (a - ptr).toNat = d
  obtain rfl | rfl | rfl | rfl | hd : d = 0 ∨ d = 1 ∨ d = 2 ∨ d = 3 ∨ 4 ≤ d := by omega
  · rfl
  · rfl
  · rfl
  · rfl
  · rw [if_neg (by omega), if_neg (by omega), if_neg (by omega), if_neg (by omega), if_neg (by omega)]

theorem mem_store32_log (ptr value : u32) (e : Access) :
    e ∈ (c.store32 ptr value).log ↔ (∃ j < 4, e = .stored (ptr + UInt32.ofNat j)) ∨ e ∈ c.log := by
  have hlog : (c.store32 ptr value).log =
      .stored (ptr + 2 + 1) :: .stored (ptr + 2) :: .stored (ptr + 1) :: .stored ptr :: c.log := rfl
  have h3 : ptr + 2 + 1 = ptr + UInt32.ofNat 3 := by
    rw [UInt32.add_assoc]
    rfl
  rw [hlog, h3]
  simp only [List.mem_cons]
  constructor
  · rintro (h | h | h | h | h)
    · exact .inl ⟨3, by omega, h⟩
    · exact .inl ⟨2, by omega, h⟩
    · exact .inl ⟨1, by omega, h⟩
    · exact .inl ⟨0, by omega, by rw [h]; simp⟩
    · exact .inr h
  · rintro (⟨j, hj, h⟩ | h)
    · obtain rfl | rfl | rfl | rfl : j = 0 ∨ j = 1 ∨ j = 2 ∨ j = 3 := by omega
      · exact .inr (.inr (.inr (.inl (by rw [h]; simp))))
      · exact .inr (.inr (.inl h))
      · exact .inr (.inl h)
      · exact .inl h
    · exact .inr (.inr (.inr (.inr h)))

/-- What the loop of `scroll_up` stores and where. -/
theorem scroll_up_loop_ram {turns : Nat} (hturns : 4 * turns ≤ 2 ^ 32) (ptr a : u32) (c : Console) :
    (c.scroll_up_loop ptr turns).ram a =
      if (a - ptr).toNat < 4 * turns then stripe (a - ptr).toNat else c.ram a := by
  induction turns generalizing ptr c with
  | zero => simp [scroll_up_loop]
  | succ turns ih =>
    unfold scroll_up_loop
    rw [ih (by omega), sub_add_four_toNat, store32_erase_ram]
    have hlt := (a - ptr).toNat_lt
    generalize (a - ptr).toNat = d at hlt
    by_cases hfirst : d < 4
    · rw [if_pos hfirst, if_neg (by omega), if_pos hfirst, if_pos (by omega)]
    · have hstripe : stripe (d - 4) = stripe d := by
        unfold stripe
        rw [show (d - 4) % 4 = d % 4 by omega]
      rw [if_neg hfirst, if_neg hfirst, hstripe]
      simp only [show d - 4 < 4 * turns ↔ d < 4 * (turns + 1) by omega]

theorem mem_scroll_up_loop_log (turns : Nat) (ptr : u32) (c : Console) (e : Access) :
    e ∈ (c.scroll_up_loop ptr turns).log ↔
      (∃ j < 4 * turns, e = .stored (ptr + UInt32.ofNat j)) ∨ e ∈ c.log := by
  induction turns generalizing ptr c with
  | zero => simp [scroll_up_loop]
  | succ turns ih =>
    have hnext : ∀ j, ptr + 4 + UInt32.ofNat j = ptr + UInt32.ofNat (j + 4) := Words.add_add_ofNat ptr 4
    unfold scroll_up_loop
    rw [ih, mem_store32_log]
    simp only [hnext]
    constructor
    · rintro (⟨j, hj, h⟩ | ⟨j, hj, h⟩ | h)
      · exact .inl ⟨j + 4, by omega, h⟩
      · exact .inl ⟨j, by omega, h⟩
      · exact .inr h
    · rintro (⟨j, hj, h⟩ | h)
      · by_cases hfirst : j < 4
        · exact .inr (.inl ⟨j, hfirst, h⟩)
        · refine .inl ⟨j - 4, by omega, ?_⟩
          rw [h, show j - 4 + 4 = j by omega]
      · exact .inr (.inr h)

theorem scroll_up_loop_eq (turns : Nat) (ptr : u32) (c : Console) :
    c.scroll_up_loop ptr turns =
      { c with ram := (c.scroll_up_loop ptr turns).ram, log := (c.scroll_up_loop ptr turns).log } := by
  induction turns generalizing ptr c with
  | zero => rfl
  | succ turns ih =>
    unfold scroll_up_loop
    rw [ih]
    rfl

theorem memcpy_ram_eq_move (count : Nat) (dest src : u32) (c : Console) :
    (c.memcpy dest src count).ram = Words.move c.ram dest src count := by
  induction count generalizing dest src c with
  | zero => rfl
  | succ count ih => exact ih (dest + 1) (src + 1) (c.store8 dest (c.ram src))

/-- A copy between areas that have no byte in common. -/
theorem memcpy_ram {count : Nat} (hcount : count ≤ 2 ^ 32) (dest src : u32)
    (hapart : ∀ i < count, ∀ j < count, src + UInt32.ofNat i ≠ dest + UInt32.ofNat j) (a : u32) (c : Console) :
    (c.memcpy dest src count).ram a = if (a - dest).toNat < count then c.ram (src + (a - dest)) else c.ram a := by
  rw [memcpy_ram_eq_move]
  exact Words.move_apply hcount c.ram dest src a hapart

theorem mem_memcpy_log (count : Nat) (dest src : u32) (c : Console) (e : Access) :
    e ∈ (c.memcpy dest src count).log ↔ (∃ j < count, e = .stored (dest + UInt32.ofNat j)) ∨ e ∈ c.log := by
  induction count generalizing dest src c with
  | zero => simp [memcpy]
  | succ count ih =>
    have hnext : ∀ i, dest + 1 + UInt32.ofNat i = dest + UInt32.ofNat (i + 1) := Words.add_add_ofNat dest 1
    have hlog : ∀ v, (c.store8 dest v).log = .stored dest :: c.log := fun _ => rfl
    unfold memcpy
    rw [ih, hlog, List.mem_cons]
    simp only [hnext]
    constructor
    · rintro (⟨j, hj, h⟩ | h | h)
      · exact .inl ⟨j + 1, by omega, h⟩
      · exact .inl ⟨0, by omega, by rw [h]; simp⟩
      · exact .inr h
    · rintro (⟨j, hj, h⟩ | h)
      · cases j with
        | zero => exact .inr (.inl (by rw [h]; simp))
        | succ j => exact .inl ⟨j, by omega, h⟩
      · exact .inr (.inr h)

theorem memcpy_eq (count : Nat) (dest src : u32) (c : Console) :
    c.memcpy dest src count =
      { c with ram := (c.memcpy dest src count).ram, log := (c.memcpy dest src count).log } := by
  induction count generalizing dest src c with
  | zero => rfl
  | succ count ih =>
    unfold memcpy
    rw [ih]
    rfl

theorem set_screen_eq : c.set_screen =
    { c with
      crt_index := CRT_START_ADDR_L
      crt := Function.update
        (Function.update c.crt CRT_START_ADDR_H (((c.screen - MEM_BASE) >>> 9) &&& 0xff).toUInt8)
        CRT_START_ADDR_L (((c.screen - MEM_BASE) >>> 1) &&& 0xff).toUInt8
      log := .subtracted c.screen MEM_BASE :: .subtracted c.screen MEM_BASE :: c.log } := rfl

theorem set_cursor_eq : c.set_cursor =
    { c with
      crt_index := CRT_CURSOR_L
      crt := Function.update
        (Function.update c.crt CRT_CURSOR_H (((c.pos - MEM_BASE) >>> 9) &&& 0xff).toUInt8)
        CRT_CURSOR_L (((c.pos - MEM_BASE) >>> 1) &&& 0xff).toUInt8
      log := .subtracted c.pos MEM_BASE :: .subtracted c.pos MEM_BASE :: c.log } := rfl

end Console

end onix
