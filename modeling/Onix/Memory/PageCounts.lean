import Onix.Memory.Boot

namespace onix

open Outcome

/-- The pages that no one uses, by index. -/
def Memory.unused (s : Memory) : Finset Nat := (Finset.range s.total_pages.toNat).filter fun i => s.count i = 0

namespace Memory

variable {s : Memory} {i : Nat}

/-- Page `i` gets another number of users. -/
def set_count (s : Memory) (i : Nat) (value : u8) : Memory := s.store (s.memory_map + UInt32.ofNat i) value

theorem count_set_count (hi : i < 2 ^ 32) {j : Nat} (hj : j < 2 ^ 32) (value : u8) :
    (s.set_count i value).count j = if j = i then value else s.count j := by
  unfold count set_count store
  by_cases h : j = i
  · rw [if_pos h, h]
    exact Function.update_self _ _ _
  · rw [if_neg h]
    refine Function.update_of_ne (fun heq => h ?_) _ _
    rwa [eq_base_add_iff hi, sub_ofNat_add_toNat _ hj] at heq

theorem mem_unused {j : Nat} : j ∈ s.unused ↔ j < s.total_pages.toNat ∧ s.count j = 0 := by
  rw [unused, Finset.mem_filter, Finset.mem_range]

/-- A page gets a user. -/
theorem unused_of_taken {s' : Memory} (htotal : s'.total_pages = s.total_pages)
    (hcount : ∀ j < s.total_pages.toNat, s'.count j = if j = i then 1 else s.count j) :
    s'.unused = s.unused.erase i := by
  ext j
  rw [Finset.mem_erase, mem_unused, mem_unused, htotal]
  by_cases hj : j < s.total_pages.toNat
  · rw [hcount j hj]
    by_cases h : j = i
    · simp [h]
    · simp [h]
  · simp [hj]

/-- A page loses its last user. -/
theorem unused_of_given {s' : Memory} (htotal : s'.total_pages = s.total_pages) (hi : i < s.total_pages.toNat)
    (hcount : ∀ j < s.total_pages.toNat, s'.count j = if j = i then 0 else s.count j) :
    s'.unused = insert i s.unused := by
  ext j
  rw [Finset.mem_insert, mem_unused, mem_unused, htotal]
  by_cases hj : j < s.total_pages.toNat
  · rw [hcount j hj]
    by_cases h : j = i
    · simp [h, hi]
    · simp [h]
  · have hne : j ≠ i := by omega
    simp [hj, hne]

end Memory

section GetPage

variable {s : Memory}

/-- Page `i` is the first unused page that `get_page` looks at. -/
structure Memory.FirstUnused (s : Memory) (i : Nat) : Prop where
  start_le : s.start_page.toNat ≤ i
  lt_total : i < s.total_pages.toNat
  unused : s.count i = 0
  first : ∀ j, s.start_page.toNat ≤ j → j < i → s.count j ≠ 0

/-- Memory behind `get_page`. -/
def Memory.take_page (s : Memory) (i : Nat) : Memory := { s.set_count i 1 with free_pages := s.free_pages - 1 }

theorem Memory.count_take_page {i j : Nat} (hi : i < 2 ^ 32) (hj : j < 2 ^ 32) :
    (s.take_page i).count j = if j = i then 1 else s.count j :=
  count_set_count (s := s) hi hj 1

theorem get_page_loop_run {n i : Nat} (hlt : i + n < 2 ^ 32) :
    (∀ j, i ≤ j → j < i + n → s.count j ≠ 0) ∧
        (get_page_loop (UInt32.ofNat i) n).run s = .error (.panic .out_of_memory) s ∨
      ∃ k, i ≤ k ∧ k < i + n ∧ s.count k = 0 ∧ (∀ j, i ≤ j → j < k → s.count j ≠ 0) ∧
        (get_page_loop (UInt32.ofNat i) n).run s =
          if s.free_pages > 0 then .ok (PAGE (UInt32.ofNat k)) (s.take_page k)
          else .error (.assertion .get_page_free) (s.set_count k 1) := by
  induction n generalizing i with
  | zero => exact .inl ⟨fun j hj hj' => by omega, rfl⟩
  | succ n ih =>
    have hload : (load8 (s.memory_map + UInt32.ofNat i)).run s = .ok (s.count i) s := rfl
    unfold get_page_loop
    simp only [get_bind_run]
    rw [bind_of_ok hload]
    by_cases hzero : s.count i = 0
    · right
      refine ⟨i, le_rfl, by omega, hzero, fun j hj hj' => by omega, ?_⟩
      rw [if_pos hzero, bind_of_ok (store8_run _ _ s)]
      simp only [get_bind_run, assert_bind_run, decide_eq_true_eq]
      rfl
    · rw [if_neg hzero, show UInt32.ofNat i + 1 = UInt32.ofNat (i + 1) from (UInt32.ofNat_add i 1).symm]
      rcases ih (show i + 1 + n < 2 ^ 32 by omega) with ⟨hnone, hrun⟩ | ⟨k, hk, hk', hunused, hfirst, hrun⟩
      · refine .inl ⟨fun j hj hj' => ?_, hrun⟩
        rcases Nat.lt_or_eq_of_le hj with hlt | rfl
        · exact hnone j hlt (by omega)
        · exact hzero
      · refine .inr ⟨k, by omega, by omega, hunused, fun j hj hj' => ?_, hrun⟩
        rcases Nat.lt_or_eq_of_le hj with hlt | rfl
        · exact hfirst j hlt hj'
        · exact hzero

/-- `get_page` takes the first unused page from `start_page` on, or panics where there is none. -/
theorem get_page_run (s : Memory) :
    (∀ j, s.start_page.toNat ≤ j → j < s.total_pages.toNat → s.count j ≠ 0) ∧
        get_page.run s = .error (.panic .out_of_memory) s ∨
      ∃ i, s.FirstUnused i ∧
        get_page.run s =
          if s.free_pages > 0 then .ok (PAGE (UInt32.ofNat i)) (s.take_page i)
          else .error (.assertion .get_page_free) (s.set_count i 1) := by
  have htotal := s.total_pages.toNat_lt
  have hstart := s.start_page.toNat_lt
  have hloop := get_page_loop_run (s := s) (i := s.start_page.toNat)
    (n := s.total_pages.toNat - s.start_page.toNat) (by omega)
  rw [UInt32.ofNat_toNat] at hloop
  rcases hloop with ⟨hnone, hrun⟩ | ⟨i, hi, hi', hunused, hfirst, hrun⟩
  · exact .inl ⟨fun j hj hj' => hnone j hj (by omega), hrun⟩
  · exact .inr ⟨i, ⟨hi, by omega, hunused, hfirst⟩, hrun⟩

theorem get_page_ok {s' : Memory} {page : u32} (h : get_page.run s = .ok page s') :
    ∃ i, s.FirstUnused i ∧ s.free_pages > 0 ∧ page = PAGE (UInt32.ofNat i) ∧ s' = s.take_page i := by
  rcases get_page_run s with ⟨-, hrun⟩ | ⟨i, hfirst, hrun⟩
  · rw [hrun] at h
    cases h
  · by_cases hfree : s.free_pages > 0
    · rw [hrun, if_pos hfree] at h
      cases h
      exact ⟨i, hfirst, hfree, rfl, rfl⟩
    · rw [hrun, if_neg hfree] at h
      cases h

end GetPage

section PutPage

variable {s : Memory} {addr : u32}

/-- Memory behind `put_page` of page `i`. -/
def Memory.give_page (s : Memory) (i : Nat) : Memory :=
  { s.set_count i (s.count i - 1) with
    free_pages := if s.count i - 1 = 0 then s.free_pages + 1 else s.free_pages }

theorem Memory.count_give_page {i j : Nat} (hi : i < 2 ^ 32) (hj : j < 2 ^ 32) :
    (s.give_page i).count j = if j = i then s.count i - 1 else s.count j :=
  count_set_count (s := s) hi hj (s.count i - 1)

/-- What `put_page` asserts of its argument. -/
structure Memory.Puttable (s : Memory) (addr : u32) (i : Nat) : Prop where
  aligned : addr.toNat % 4096 = 0
  index : IDX addr = UInt32.ofNat i
  lt : i < 2 ^ 20
  start_le : s.start_page.toNat ≤ i
  lt_total : i < s.total_pages.toNat
  used : s.count i ≠ 0

theorem put_page_run {i : Nat} (h : s.Puttable addr i) :
    (put_page addr).run s =
      if (s.give_page i).free_pages > 0 ∧ (s.give_page i).free_pages < s.total_pages then .ok () (s.give_page i)
      else .error (.assertion .put_page_free) (s.give_page i) := by
  have hi := h.lt
  have hnat : (UInt32.ofNat i).toNat = i := toNat_ofNat (by omega)
  have hload : ∀ t : Memory, (load8 (s.memory_map + UInt32.ofNat i)).run t = .ok (t.ram (s.memory_map + UInt32.ofNat i)) t :=
    fun _ => rfl
  have hused : s.ram (s.memory_map + UInt32.ofNat i) ≥ 1 := by
    have hne := mt UInt8.toNat_inj.mp h.used
    change (s.ram (s.memory_map + UInt32.ofNat i)).toNat ≠ 0 at hne
    change 1 ≤ (s.ram (s.memory_map + UInt32.ofNat i)).toNat
    omega
  have hstored : (s.set_count i (s.count i - 1)).ram (s.memory_map + UInt32.ofNat i) = s.count i - 1 :=
    Function.update_self _ _ _
  unfold put_page assert_page
  simp only [get_bind_run, assert_bind_run, decide_eq_true_eq, h.index]
  rw [if_pos ((Words.and_fff addr).mpr h.aligned), if_pos ⟨UInt32.le_iff_toNat_le.mpr (by rw [hnat]; exact h.start_le),
    UInt32.lt_iff_toNat_lt.mpr (by rw [hnat]; exact h.lt_total)⟩, bind_of_ok (hload s)]
  simp only [assert_bind_run, decide_eq_true_eq]
  rw [if_pos hused, bind_of_ok (hload s), bind_of_ok (store8_run _ _ s), bind_of_ok (hload _)]
  change (ite (((s.set_count i (s.count i - 1)).ram (s.memory_map + UInt32.ofNat i)) = 0) _ _ : MemoryM Unit).run _ = _
  unfold Memory.give_page
  rw [hstored]
  by_cases hlast : s.count i - 1 = 0
  · rw [if_pos hlast, if_pos hlast]
    simp only [get_bind_run, modify_bind_run, assert_run, decide_eq_true_eq]
    rfl
  · rw [if_neg hlast, if_neg hlast]
    simp only [get_bind_run, assert_run, decide_eq_true_eq]
    rfl

/-- An address that passes the assertions of `put_page` is that of a used page. -/
theorem put_page_ok {s' : Memory} (h : (put_page addr).run s = .ok () s') :
    s.Puttable addr (addr.toNat / 4096) ∧ s' = s.give_page (addr.toNat / 4096) := by
  have hnat : IDX addr = UInt32.ofNat (addr.toNat / 4096) := by
    rw [← IDX_toNat, UInt32.ofNat_toNat]
  have haddr := addr.toNat_lt
  have hput : s.Puttable addr (addr.toNat / 4096) := by
    unfold put_page assert_page at h
    simp only [get_bind_run, assert_bind_run, decide_eq_true_eq] at h
    split at h
    · rename_i halign
      split at h
      · rename_i hrange
        have hload : (load8 (s.memory_map + IDX addr)).run s = .ok (s.ram (s.memory_map + IDX addr)) s := rfl
        rw [bind_of_ok hload] at h
        simp only [assert_bind_run, decide_eq_true_eq] at h
        split at h
        · rename_i hused
          refine ⟨(Words.and_fff addr).mp halign, hnat, by omega, ?_, ?_, ?_⟩
          · rw [← IDX_toNat]
            exact UInt32.le_iff_toNat_le.mp hrange.1
          · rw [← IDX_toNat]
            exact UInt32.lt_iff_toNat_lt.mp hrange.2
          · intro hzero
            unfold Memory.count at hzero
            rw [← hnat] at hzero
            rw [hzero] at hused
            exact absurd hused (by decide)
        · cases h
      · cases h
    · cases h
  refine ⟨hput, ?_⟩
  rw [put_page_run hput] at h
  split at h
  · cases h
    rfl
  · cases h

end PutPage

end onix
