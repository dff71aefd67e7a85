import Onix.Memory.BitmapSpec

namespace onix

open Outcome FirstFit

section Test

variable {map : bitmap_t} {s : Memory}

/-- `bitmap_test` fails outside of the map. -/
theorem bitmap_test_cases (hsmall : map.Small) (index : u32) (s : Memory) :
    (∃ a, (bitmap_test map index).run s = .error (.assertion a) s) ∨
      ∃ k < map.size, index = map.offset + UInt32.ofNat k ∧ (bitmap_test map index).run s = .ok (s.bit map k) s := by
  have hdiv : ((index - map.offset) / 8).toNat = (index - map.offset).toNat / 8 := UInt32.toNat_div _ _
  by_cases hle : map.offset ≤ index
  · by_cases hlt : (index - map.offset) / 8 < map.length
    · have hk : (index - map.offset).toNat < map.size := by
        rw [UInt32.lt_iff_toNat_lt, hdiv] at hlt
        unfold bitmap_t.size
        omega
      have hindex := add_ofNat_sub_toNat map.offset index
      refine .inr ⟨_, hk, hindex.symm, ?_⟩
      have hrun := bitmap_test_run hsmall hk s
      rwa [hindex] at hrun
    · refine .inl ⟨.bitmap_test_bytes, ?_⟩
      unfold bitmap_test
      simp only [assert_bind_run, decide_eq_true_eq]
      rw [if_pos hle, if_neg hlt]
  · refine .inl ⟨.bitmap_test_index, ?_⟩
    unfold bitmap_test
    simp only [assert_bind_run, decide_eq_true_eq]
    rw [if_neg hle]

/-- A turn of the loop of `reset_page`. -/
def reset_turn (map : bitmap_t) (index : u32) : MemoryM Unit := do
  assert .reset_page_test (← bitmap_test map index)
  bitmap_set map index false

theorem reset_turn_run (hsmall : map.Small) {k : Nat} (hk : k < map.size) (s : Memory) :
    (reset_turn map (map.offset + UInt32.ofNat k)).run s =
      if s.bit map k then .ok () (s.set_bit map k false) else .error (.assertion .reset_page_test) s := by
  unfold reset_turn
  rw [bind_of_ok (bitmap_test_run hsmall hk s), assert_bind_run, bitmap_set_run hsmall hk]

/-- Only bits of the map change in a turn, whether it returns or fails. -/
theorem reset_turn_writes (hsmall : map.Small) (index : u32) (s : Memory) :
    s.Writes map.buffer (final (reset_turn map index) s) := by
  rcases bitmap_test_cases hsmall index s with ⟨a, hrun⟩ | ⟨k, hk, rfl, -⟩
  · have hfail : (reset_turn map index).run s = .error (.assertion a) s := bind_of_error hrun _
    rw [final_of_error hfail]
    exact .refl _ _
  · have hrun := reset_turn_run hsmall hk s
    cases hbit : s.bit map k with
    | true =>
      rw [hbit, if_pos rfl] at hrun
      rw [final_of_ok hrun]
      exact set_bit_writes hk false
    | false =>
      rw [hbit, if_neg Bool.false_ne_true] at hrun
      rw [final_of_error hrun]
      exact .refl _ _

theorem reset_page_writes (hsmall : map.Small) (addr count : u32) (s : Memory) :
    s.Writes map.buffer (final (reset_page map addr count) s) := by
  have htrans : ∀ s s₁ s₂ : Memory, s.Writes map.buffer s₁ → s₁.Writes map.buffer s₂ → s.Writes map.buffer s₂ :=
    fun _ _ _ => Memory.Writes.trans
  have hassert : ∀ (a : Assertion) (exp : Bool) (t : Memory), t.Writes map.buffer (final (assert a exp) t) := by
    intro a exp t
    cases exp <;> exact .refl _ t
  refine final_bind htrans (hassert _ _ s) fun _ s₁ _ => final_bind htrans (hassert _ _ s₁) fun _ s₂ _ => ?_
  exact Loop.upFrom_final (Memory.Writes.refl _) htrans (fun i t => reset_turn_writes hsmall (IDX addr + i) t)
    0 count.toNat s₂

/-- `reset_page` of bits that are all set clears them. -/
theorem reset_page_run (hsmall : map.Small) {addr count : u32} {start : Nat} (haddr : addr &&& 0xfff = 0)
    (hindex : IDX addr = map.offset + UInt32.ofNat start) (hcount : 0 < count.toNat)
    (hend : start + count.toNat ≤ map.size) (hset : ∀ k, start ≤ k → k < start + count.toNat → s.bit map k = true) :
    ∃ s', (reset_page map addr count).run s = .ok () s' ∧ s.Writes map.buffer s' ∧
      ∀ k < map.size, s'.bit map k = if start ≤ k ∧ k < start + count.toNat then false else s.bit map k := by
  have hturn : ∀ j < count.toNat, ∀ t : Memory, s.Writes map.buffer t →
      (∀ k < map.size, start + j ≤ k → t.bit map k = s.bit map k) →
      (reset_turn map (IDX addr + (0 + UInt32.ofNat j))).run t = .ok () (t.set_bit map (start + j) false) := by
    intro j hj t _ hbits
    rw [hindex, UInt32.zero_add, UInt32.add_assoc, ← UInt32.ofNat_add, reset_turn_run hsmall (by omega),
      hbits _ (by omega) le_rfl, hset _ (by omega) (by omega), if_pos rfl]
  obtain ⟨s', hrun, hwrites, hbits⟩ := set_bits_loop false (fun i => reset_turn map (IDX addr + i)) hend hturn
  refine ⟨s', ?_, hwrites, hbits⟩
  have hpos : count > 0 := UInt32.lt_iff_toNat_lt.mpr hcount
  unfold reset_page assert_page
  simp only [assert_bind_run, decide_eq_true_eq]
  rw [if_pos haddr, if_pos hpos]
  exact hrun

end Test

section Alloc

variable {s : Memory} {count : u32}

theorem offset_add_ne_EOF {map : bitmap_t} (hsmall : map.Small) {start : Nat} (hstart : start < map.size) :
    map.offset + UInt32.ofNat start ≠ EOF := by
  intro h
  have hnat := congrArg UInt32.toNat h
  unfold bitmap_t.Small at hsmall
  rw [add_ofNat_toNat (by omega)] at hnat
  change _ = 4294967295 at hnat
  omega

/-- `alloc_kpage` takes the first run of free pages, or panics where there is none. -/
theorem alloc_kpage_run (hsmall : s.kernel_map.Small) (hcount : 0 < count.toNat) :
    (∀ t, ¬ Fits (s.bit s.kernel_map) s.kernel_map.size count.toNat t) ∧
        (alloc_kpage count).run s = .error (.panic .scan_page_fail) s ∨
      ∃ start s', First (s.bit s.kernel_map) s.kernel_map.size count.toNat start ∧
        (alloc_kpage count).run s = .ok (PAGE (s.kernel_map.offset + UInt32.ofNat start)) s' ∧
        s.Writes s.kernel_map.buffer s' ∧
        ∀ k < s.kernel_map.size, s'.bit s.kernel_map k =
          if start ≤ k ∧ k < start + count.toNat then true else s.bit s.kernel_map k := by
  have hpos : count > 0 := UInt32.lt_iff_toNat_lt.mpr hcount
  unfold alloc_kpage scan_page
  simp only [get_bind_run, assert_bind_run, decide_eq_true_eq, if_pos hpos]
  rcases bitmap_scan_run hsmall hcount with ⟨hnone, hrun⟩ | ⟨start, s', hfirst, hrun, hwrites, hbits⟩
  · refine .inl ⟨hnone, ?_⟩
    rw [bind_of_ok hrun]
    rfl
  · refine .inr ⟨start, s', hfirst, ?_, hwrites, hbits⟩
    have hend := hfirst.fits.1
    rw [bind_of_ok hrun, if_neg (offset_add_ne_EOF hsmall (by omega))]
    rfl

theorem alloc_kpage_zero (h : ¬ 0 < count.toNat) (s : Memory) :
    (alloc_kpage count).run s = .error (.assertion .alloc_kpage_count) s := by
  have hzero : ¬ count > 0 := fun hpos => h (UInt32.lt_iff_toNat_lt.mp hpos)
  unfold alloc_kpage
  rw [assert_bind_run, decide_eq_false hzero]
  rfl

/-- The pages of an extent are bits of the map. -/
theorem alloc_kpage_ok (hsmall : s.kernel_map.Small) {vaddr : u32} {s' : Memory}
    (h : (alloc_kpage count).run s = .ok vaddr s') :
    0 < count.toNat ∧ ∃ start, First (s.bit s.kernel_map) s.kernel_map.size count.toNat start ∧
      vaddr = PAGE (s.kernel_map.offset + UInt32.ofNat start) ∧ s.Writes s.kernel_map.buffer s' ∧
        ∀ k < s.kernel_map.size, s'.bit s.kernel_map k =
          if start ≤ k ∧ k < start + count.toNat then true else s.bit s.kernel_map k := by
  by_cases hcount : 0 < count.toNat
  · rcases alloc_kpage_run hsmall hcount with ⟨-, hrun⟩ | ⟨start, t, hfirst, hrun, hwrites, hbits⟩
    · rw [hrun] at h
      cases h
    · rw [hrun] at h
      cases h
      exact ⟨hcount, start, hfirst, rfl, hwrites, hbits⟩
  · rw [alloc_kpage_zero hcount s] at h
    cases h

theorem alloc_kpage_writes (hsmall : s.kernel_map.Small) (count : u32) :
    s.Writes s.kernel_map.buffer (final (alloc_kpage count) s) := by
  by_cases hcount : 0 < count.toNat
  · rcases alloc_kpage_run hsmall hcount with ⟨-, hrun⟩ | ⟨start, s', -, hrun, hwrites, -⟩
    · rw [final_of_error hrun]
      exact .refl _ s
    · rw [final_of_ok hrun]
      exact hwrites
  · rw [final_of_error (alloc_kpage_zero hcount s)]
    exact .refl _ s

theorem free_kpage_eq (vaddr count : u32) (s : Memory) :
    (free_kpage vaddr count).run s =
      if vaddr &&& 0xfff = 0 then
        if count > 0 then (reset_page s.kernel_map vaddr count).run s
        else .error (.assertion .free_kpage_count) s
      else .error (.assertion .free_kpage_align) s := by
  unfold free_kpage assert_page
  rw [assert_bind_run, assert_bind_run]
  by_cases haddr : vaddr &&& 0xfff = 0
  · rw [if_pos (decide_eq_true haddr), if_pos haddr]
    by_cases hpos : count > 0
    · rw [if_pos (decide_eq_true hpos), if_pos hpos, get_bind_run]
    · rw [if_neg (by rw [decide_eq_false hpos]; exact Bool.false_ne_true), if_neg hpos]
  · rw [if_neg (by rw [decide_eq_false haddr]; exact Bool.false_ne_true), if_neg haddr]

theorem free_kpage_writes (hsmall : s.kernel_map.Small) (vaddr count : u32) :
    s.Writes s.kernel_map.buffer (final (free_kpage vaddr count) s) := by
  have hreset := reset_page_writes hsmall vaddr count s
  unfold final at hreset ⊢
  rw [free_kpage_eq]
  split_ifs
  · exact hreset
  · exact .refl _ s
  · exact .refl _ s

end Alloc

end onix
