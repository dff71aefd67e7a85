import Onix.Memory.Stores

namespace onix

open Outcome

/-- The word of a present, writable entry of user level that points to page `index`. -/
def entry_word (index : u32) : u32 := 7 ||| index <<< (12 : u32)

theorem set_field_run (entry «at» width value : u32) (s : Memory) :
    ∃ s', (set_field entry «at» width value).run s = .ok () s' ∧ s.Writes (span entry 4) s' ∧
      s'.word entry = (s.word entry &&& ~~~((((1 : u32) <<< width) - 1) <<< «at»)) |||
        ((value <<< «at») &&& ((((1 : u32) <<< width) - 1) <<< «at»)) :=
  ⟨_, rfl, s.store_word_writes _ _, s.word_store_word _ _⟩

/-- `entry_init` writes the word of an entry and nothing else. -/
theorem entry_init_run (entry index : u32) (s : Memory) :
    ∃ s', (entry_init entry index).run s = .ok () s' ∧ s.Writes (span entry 4) s' ∧
      s'.word entry = entry_word index := by
  have hzero := s.word_store_word entry 0
  obtain ⟨s₁, hrun₁, hwrites₁, hword₁⟩ := set_field_run entry 0 1 1 (s.store_word entry 0)
  obtain ⟨s₂, hrun₂, hwrites₂, hword₂⟩ := set_field_run entry 1 1 1 s₁
  obtain ⟨s₃, hrun₃, hwrites₃, hword₃⟩ := set_field_run entry 2 1 1 s₂
  obtain ⟨s₄, hrun₄, hwrites₄, hword₄⟩ := set_field_run entry 12 20 index s₃
  refine ⟨s₄, ?_, ?_, ?_⟩
  · unfold entry_init
    rw [bind_of_ok (store32_run entry 0 s), bind_of_ok hrun₁, bind_of_ok hrun₂, bind_of_ok hrun₃]
    exact hrun₄
  · exact ((((s.store_word_writes entry 0).trans hwrites₁).trans hwrites₂).trans hwrites₃).trans hwrites₄
  · have hindex : index <<< 12 &&& (((1 : u32) <<< 20) - 1) <<< 12 = index <<< 12 := by
      rw [show (((1 : u32) <<< 20) - 1) <<< 12 = (-1 : u32) <<< (12 : u32) by decide, UInt32.and_comm]
      exact UInt32.neg_one_shiftLeft_and_shiftLeft
    rw [hword₄, hindex, hword₃, hword₂, hword₁, hzero]
    rfl

section Mapping

variable {s : Memory}

/-- The entries that a turn of the inner loop of `mapping_init` has come to: entry 0 of the first table
is left out. -/
def table_word (index : Nat) : u32 := if index = 0 then 0 else entry_word (UInt32.ofNat index)

/-- The first `n` entries of the table at `pte` map the pages from `index` on, which are marked. -/
structure Filled (s : Memory) (pte : u32) (index n : Nat) (s' : Memory) : Prop where
  writes : s.Writes (span pte 0x1000 ∪ span (s.memory_map + UInt32.ofNat index) 0x400) s'
  filled : ∀ k < n, s'.word (pte + UInt32.ofNat (4 * k)) = table_word (index + k)
  empty : ∀ k, n ≤ k → k < 1024 → s'.word (pte + UInt32.ofNat (4 * k)) = 0
  marked : ∀ k < n, index + k ≠ 0 → s'.ram (s.memory_map + UInt32.ofNat (index + k)) = 1
  unmarked : ∀ k, n ≤ k ∨ index + k = 0 → k < 1024 →
    s'.ram (s.memory_map + UInt32.ofNat (index + k)) = s.ram (s.memory_map + UInt32.ofNat (index + k))

theorem four_mul_ofNat (n : Nat) : (4 : u32) * UInt32.ofNat n = UInt32.ofNat (4 * n) :=
  (UInt32.ofNat_mul 4 n).symm

theorem Memory.fill_word_zero (s : Memory) {base addr : u32} {len : Nat} (h : span addr 4 ⊆ span base len) :
    (s.fill base len 0).word addr = 0 := by
  have hbyte : ∀ k : u32, k.toNat < 4 → (s.fill base len 0).ram (addr + k) = 0 := fun k hk =>
    if_pos (h (mem_span_word addr hk))
  have h0 := hbyte 0 (by decide)
  rw [UInt32.add_zero] at h0
  unfold Memory.word
  rw [h0, hbyte 1 (by decide), hbyte 2 (by decide), hbyte 3 (by decide)]
  rfl

theorem Memory.Writes.memory_map {D : Set u32} {s s' : Memory} (h : s.Writes D s') :
    s'.memory_map = s.memory_map := by
  rw [h.vars]

/-- The cells of the memory map, as numbers -/
theorem map_cell_toNat {map : u32} (hmap : map = MEMORY_BASE) {i : Nat} (hi : i < 2 ^ 31) :
    (map + UInt32.ofNat i).toNat = 0x100000 + i := by
  rw [hmap]
  exact add_ofNat_toNat (by change 0x100000 + i < _; omega)

section Entries

variable {pte : u32} (hpte : pte.toNat + 0x1000 ≤ MEMORY_BASE.toNat) {k j : Nat}

include hpte

theorem entry_toNat (hk : k < 1024) : (pte + UInt32.ofNat (4 * k)).toNat = pte.toNat + 4 * k := by
  have hbase : MEMORY_BASE.toNat = 0x100000 := rfl
  exact add_ofNat_toNat (by omega)

/-- The entries of a table lie in its page. -/
theorem entry_subset (hk : k < 1024) : span (pte + UInt32.ofNat (4 * k)) 4 ⊆ span pte 0x1000 := by
  have hbase : MEMORY_BASE.toNat = 0x100000 := rfl
  intro a ha
  rw [mem_span_iff (by rw [entry_toNat hpte hk]; omega), entry_toNat hpte hk] at ha
  exact (mem_span_iff (by omega)).mpr (by omega)

theorem entries_disjoint (hk : k < 1024) (hj : j < 1024) (hne : k ≠ j) :
    Disjoint (span (pte + UInt32.ofNat (4 * k)) 4) (span (pte + UInt32.ofNat (4 * j)) 4) := by
  have hbase : MEMORY_BASE.toNat = 0x100000 := rfl
  have hnat := entry_toNat hpte hk
  have hnat' := entry_toNat hpte hj
  exact span_apart (by omega) (by omega) (by omega)

/-- An entry of a table is apart from the memory map. -/
theorem entry_cell_disjoint {map : u32} (hmap : map = MEMORY_BASE) (hk : k < 1024) {i : Nat} (hi : i < 2 ^ 31) :
    Disjoint (span (pte + UInt32.ofNat (4 * k)) 4) {map + UInt32.ofNat i} := by
  have hbase : MEMORY_BASE.toNat = 0x100000 := rfl
  have hnat := entry_toNat hpte hk
  rw [Set.disjoint_singleton_right, mem_span_iff (by omega), hnat, map_cell_toNat hmap hi]
  omega

end Entries

/-- One turn of the inner loop: the entry of the page and the mark of the page, or nothing for page 0. -/
theorem Filled.turn {pte : u32} {index j : Nat} {t : Memory} (hmap : s.memory_map = MEMORY_BASE)
    (hpte : pte.toNat + 0x1000 ≤ MEMORY_BASE.toNat) (hindex : index + 0x400 ≤ 0x800) (hj : j < 1024)
    (h : Filled s pte index j t) :
    ∃ t', (map_entry pte (UInt32.ofNat j) (UInt32.ofNat index + UInt32.ofNat j)).run t = .ok () t' ∧
      Filled s pte index (j + 1) t' := by
  unfold map_entry
  rw [← UInt32.ofNat_add, four_mul_ofNat]
  have hpage : UInt32.ofNat (index + j) ≠ 0 ↔ index + j ≠ 0 := by
    rw [ne_eq, ← UInt32.toNat_inj, toNat_ofNat (by omega)]
    rfl
  by_cases hzero : index + j = 0
  · rw [if_neg (by rw [hpage]; exact fun hne => hne hzero)]
    refine ⟨t, rfl, h.writes, fun k hk => ?_, fun k hk => h.empty k (by omega), fun k hk hne => ?_,
      fun k hk => h.unmarked k (by omega)⟩
    · by_cases hlast : k = j
      · rw [hlast, h.empty j le_rfl hj, table_word, if_pos hzero]
      · exact h.filled k (by omega)
    · exact h.marked k (by omega) hne
  · rw [if_pos (hpage.mpr hzero)]
    obtain ⟨t₁, hrun, hwrites, hword⟩ :=
      entry_init_run (pte + UInt32.ofNat (4 * j)) (UInt32.ofNat (index + j)) t
    have hmap₁ : t₁.memory_map = s.memory_map := hwrites.memory_map.trans h.writes.memory_map
    have hstore := t₁.store_writes (s.memory_map + UInt32.ofNat (index + j)) 1
    have hcell : s.memory_map + UInt32.ofNat (index + j) ∈ span (s.memory_map + UInt32.ofNat index) 0x400 := by
      rw [UInt32.ofNat_add, ← UInt32.add_assoc]
      exact (mem_span_ofNat _ (by omega)).mpr hj
    have hword_apart : ∀ k < 1024, Disjoint (span (pte + UInt32.ofNat (4 * k)) 4)
        {s.memory_map + UInt32.ofNat (index + j)} := fun k hk => entry_cell_disjoint hpte hmap hk (by omega)
    have hmark_ne : ∀ k < 1024, k ≠ j →
        (t₁.store (s.memory_map + UInt32.ofNat (index + j)) 1).ram (s.memory_map + UInt32.ofNat (index + k)) =
          t.ram (s.memory_map + UInt32.ofNat (index + k)) := by
      intro k hk hne
      rw [hstore.ram _ fun heq => ?_, hwrites.ram _ fun hin => ?_]
      · exact Set.disjoint_left.mp (entry_cell_disjoint hpte hmap hj (by omega)) hin rfl
      · have hnat := congrArg UInt32.toNat (Set.mem_singleton_iff.mp heq)
        rw [map_cell_toNat hmap (by omega), map_cell_toNat hmap (by omega)] at hnat
        omega
    refine ⟨t₁.store (s.memory_map + UInt32.ofNat (index + j)) 1, ?_, ?_, ?_, ?_, ?_, ?_⟩
    · rw [bind_of_ok hrun, ← hmap₁]
      rfl
    · apply h.writes.trans
      refine (hwrites.mono ?_).trans (hstore.mono ?_)
      · exact fun a ha => .inl (entry_subset hpte hj ha)
      · exact Set.singleton_subset_iff.mpr (.inr hcell)
    · intro k hk
      rw [hstore.word (hword_apart k (by omega))]
      by_cases hlast : k = j
      · rw [hlast, hword, table_word, if_neg hzero]
      · rw [hwrites.word (entries_disjoint hpte (by omega) hj hlast)]
        exact h.filled k (by omega)
    · intro k hk hk'
      rw [hstore.word (hword_apart k hk'), hwrites.word (entries_disjoint hpte hk' hj (by omega))]
      exact h.empty k (by omega) hk'
    · intro k hk hne
      by_cases hlast : k = j
      · rw [hlast]
        exact Function.update_self _ _ _
      · rw [hmark_ne k (by omega) hlast]
        exact h.marked k (by omega) hne
    · intro k hk hk'
      rw [hmark_ne k hk' (by rintro rfl; omega)]
      exact h.unmarked k (by omega) hk'

/-- The inner loop fills an empty table. -/
theorem map_entries_run {pte : u32} {index : Nat} (hmap : s.memory_map = MEMORY_BASE)
    (hpte : pte.toNat + 0x1000 ≤ MEMORY_BASE.toNat) (hindex : index + 0x400 ≤ 0x800)
    (hempty : ∀ k < 1024, s.word (pte + UInt32.ofNat (4 * k)) = 0) :
    ∃ s', (Loop.upTo 1024 fun tidx => map_entry pte tidx (UInt32.ofNat index + tidx)).run s = .ok () s' ∧
      Filled s pte index 1024 s' := by
  have hinit : Filled s pte index 0 s :=
    { writes := .refl _ _
      filled := fun k hk => absurd hk (Nat.not_lt_zero k)
      empty := fun k _ hk => hempty k hk
      marked := fun k hk => absurd hk (Nat.not_lt_zero k)
      unmarked := fun _ _ _ => rfl }
  exact Loop.upTo_returns (Filled s pte index) (fun j hj t ht => ht.turn hmap hpte hindex hj) hinit

/-- A table and its entry in the directory, after a turn of the outer loop. -/
structure TableMade (s : Memory) (pte : u32) (didx index : Nat) (s' : Memory) : Prop where
  writes : s.Writes (span pte 0x1000 ∪ span (KERNEL_PAGE_DIR + UInt32.ofNat (4 * didx)) 4 ∪
    span (s.memory_map + UInt32.ofNat index) 0x400) s'
  directory : s'.word (KERNEL_PAGE_DIR + UInt32.ofNat (4 * didx)) = entry_word (IDX pte)
  filled : ∀ k < 1024, s'.word (pte + UInt32.ofNat (4 * k)) = table_word (index + k)
  marked : ∀ k < 1024, index + k ≠ 0 → s'.ram (s.memory_map + UInt32.ofNat (index + k)) = 1
  unmarked : index = 0 → s'.ram s.memory_map = s.ram s.memory_map

theorem map_table_run (pte : u32) (didx index : Nat) (hmap : s.memory_map = MEMORY_BASE)
    (hlow : 0x2000 ≤ pte.toNat) (hpte : pte.toNat + 0x1000 ≤ MEMORY_BASE.toNat) (hdidx : didx < 1024)
    (hindex : index + 0x400 ≤ 0x800) :
    ∃ s', (map_table pte (UInt32.ofNat didx) (UInt32.ofNat index)).run s = .ok () s' ∧
      TableMade s pte didx index s' := by
  have hbase : MEMORY_BASE.toNat = 0x100000 := rfl
  have hdir : (KERNEL_PAGE_DIR + UInt32.ofNat (4 * didx)).toNat = 0x1000 + 4 * didx :=
    add_ofNat_toNat (by change 0x1000 + 4 * didx < 2 ^ 32; omega)
  have hcell := map_cell_toNat hmap (show index < 2 ^ 31 by omega)
  have hdir_pte : Disjoint (span (KERNEL_PAGE_DIR + UInt32.ofNat (4 * didx)) 4) (span pte 0x1000) :=
    span_disjoint (by rw [hdir]; omega) (by omega)
  have hdir_map : Disjoint (span (KERNEL_PAGE_DIR + UInt32.ofNat (4 * didx)) 4)
      (span (s.memory_map + UInt32.ofNat index) 0x400) :=
    span_disjoint (by rw [hdir, hcell]; omega) (by rw [hcell]; omega)
  have hfill := s.fill_writes pte PAGE_SIZE.toNat 0
  obtain ⟨s₁, hrun₁, hwrites₁, hword₁⟩ := entry_init_run (KERNEL_PAGE_DIR + UInt32.ofNat (4 * didx)) (IDX pte)
    (s.fill pte PAGE_SIZE.toNat 0)
  have hmap₁ : s₁.memory_map = s.memory_map := hwrites₁.memory_map
  have hempty : ∀ k < 1024, s₁.word (pte + UInt32.ofNat (4 * k)) = 0 := by
    intro k hk
    rw [hwrites₁.word (Set.disjoint_of_subset_left (entry_subset hpte hk) hdir_pte.symm)]
    exact s.fill_word_zero (entry_subset hpte hk)
  obtain ⟨s', hrun, hfilled⟩ := map_entries_run (hmap₁.trans hmap) hpte hindex hempty
  have hcells : ∀ k < 1024, s₁.ram (s.memory_map + UInt32.ofNat (index + k)) =
      s.ram (s.memory_map + UInt32.ofNat (index + k)) := by
    intro k hk
    have hnat := map_cell_toNat hmap (show index + k < 2 ^ 31 by omega)
    rw [hwrites₁.ram _ fun hin => ?_, hfill.ram _ fun hin => ?_]
    · rw [mem_span_iff (by change pte.toNat + 0x1000 ≤ _; omega), hnat] at hin
      change _ ∧ _ < pte.toNat + 0x1000 at hin
      omega
    · rw [mem_span_iff (by rw [hdir]; omega), hdir, hnat] at hin
      omega
  refine ⟨s', ?_, ?_, ?_, hfilled.filled, ?_, ?_⟩
  · unfold map_table
    rw [bind_of_ok (memset_run pte 0 PAGE_SIZE s), four_mul_ofNat, bind_of_ok hrun₁]
    exact hrun
  · refine (hfill.mono ?_).trans ((hwrites₁.mono ?_).trans (hfilled.writes.mono ?_))
    · exact fun a ha => .inl (.inl ha)
    · exact fun a ha => .inl (.inr ha)
    · rw [hmap₁]
      rintro a (ha | ha)
      · exact .inl (.inl ha)
      · exact .inr ha
  · rw [hfilled.writes.word, hword₁]
    rw [hmap₁, Set.disjoint_union_right]
    exact ⟨hdir_pte, hdir_map⟩
  · rw [← hmap₁]
    exact hfilled.marked
  · rintro rfl
    have hzero := hfilled.unmarked 0 (.inr rfl) (by decide)
    rw [hmap₁, hcells 0 (by decide)] at hzero
    simpa using hzero

/-- The entries of the directory: the two tables, and the directory itself in the last. -/
def directory_word (d : Nat) : u32 :=
  if d < 2 then entry_word (UInt32.ofNat (d + 2)) else if d = 1023 then entry_word 1 else 0

/-- What `mapping_init` leaves: the directory, the tables of the first 8M, and a mark for each of their pages
but page 0. -/
structure Mapped (s s' : Memory) : Prop where
  vars : s' = { s with ram := s'.ram, cr3 := KERNEL_PAGE_DIR, paging := true }
  ram : ∀ a, a ∉ span KERNEL_PAGE_DIR 0x3000 ∪ span s.memory_map 0x800 → s'.ram a = s.ram a
  directory : ∀ d < 1024, s'.word (KERNEL_PAGE_DIR + UInt32.ofNat (4 * d)) = directory_word d
  tables : ∀ i < 2048, s'.word (0x2000 + UInt32.ofNat (4 * i)) = table_word i
  marked : ∀ i, i ≠ 0 → i < 2048 → s'.ram (s.memory_map + UInt32.ofNat i) = 1
  unmarked : s'.ram s.memory_map = s.ram s.memory_map

theorem directory_toNat {d : Nat} (hd : d < 1024) :
    (KERNEL_PAGE_DIR + UInt32.ofNat (4 * d)).toNat = 0x1000 + 4 * d :=
  add_ofNat_toNat (by change 0x1000 + 4 * d < 2 ^ 32; omega)

theorem table_toNat {i : Nat} (hi : i < 2048) : ((0x2000 : u32) + UInt32.ofNat (4 * i)).toNat = 0x2000 + 4 * i :=
  add_ofNat_toNat (by change 0x2000 + 4 * i < 2 ^ 32; omega)

/-- An area is apart from what a turn of the outer loop writes. -/
theorem table_apart (pte : u32) (didx index : Nat) {map a : u32} {n : Nat} (hmap : map = MEMORY_BASE)
    (hpte : pte.toNat + 0x1000 ≤ MEMORY_BASE.toNat) (hdidx : didx < 1024) (hindex : index + 0x400 ≤ 0x800)
    (ha : a.toNat + n ≤ 2 ^ 32) (htable : a.toNat + n ≤ pte.toNat ∨ pte.toNat + 0x1000 ≤ a.toNat)
    (hdir : a.toNat + n ≤ 0x1000 + 4 * didx ∨ 0x1004 + 4 * didx ≤ a.toNat)
    (hcells : a.toNat + n ≤ 0x100000 + index ∨ 0x100400 + index ≤ a.toNat) :
    Disjoint (span a n) (span pte 0x1000 ∪ span (KERNEL_PAGE_DIR + UInt32.ofNat (4 * didx)) 4 ∪
      span (map + UInt32.ofNat index) 0x400) := by
  have hbase : MEMORY_BASE.toNat = 0x100000 := rfl
  have hdirectory := directory_toNat hdidx
  have hcell := map_cell_toNat hmap (show index < 2 ^ 31 by omega)
  rw [Set.disjoint_union_right, Set.disjoint_union_right]
  refine ⟨⟨?_, ?_⟩, ?_⟩
  · exact span_apart (by omega) (by omega) htable
  · exact span_apart (by omega) (by omega) (by omega)
  · exact span_apart (by omega) (by omega) (by omega)

section Apart

variable {map a : u32} {n : Nat}

/-- What the first turn of the outer loop leaves as it is -/
theorem first_turn_apart (hmap : map = MEMORY_BASE) (ha : a.toNat + n ≤ 2 ^ 32)
    (hapart : a.toNat + n ≤ 0x1000 ∨ 0x1004 ≤ a.toNat ∧ a.toNat + n ≤ 0x2000 ∨
      0x3000 ≤ a.toNat ∧ a.toNat + n ≤ 0x100000 ∨ 0x100400 ≤ a.toNat) :
    Disjoint (span a n) (span 0x2000 0x1000 ∪ span (KERNEL_PAGE_DIR + UInt32.ofNat (4 * 0)) 4 ∪
      span (map + UInt32.ofNat 0) 0x400) :=
  table_apart 0x2000 0 0 hmap (by decide) (by decide) (by decide) ha
    (by change _ ≤ 0x2000 ∨ 0x2000 + _ ≤ _; omega) (by omega) (by omega)

/-- What the second turn leaves as it is -/
theorem second_turn_apart (hmap : map = MEMORY_BASE) (ha : a.toNat + n ≤ 2 ^ 32)
    (hapart : a.toNat + n ≤ 0x1004 ∨ 0x1008 ≤ a.toNat ∧ a.toNat + n ≤ 0x3000 ∨
      0x4000 ≤ a.toNat ∧ a.toNat + n ≤ 0x100400 ∨ 0x100800 ≤ a.toNat) :
    Disjoint (span a n) (span 0x3000 0x1000 ∪ span (KERNEL_PAGE_DIR + UInt32.ofNat (4 * 1)) 4 ∪
      span (map + UInt32.ofNat 1024) 0x400) :=
  table_apart 0x3000 1 1024 hmap (by decide) (by decide) (by decide) ha
    (by change _ ≤ 0x3000 ∨ 0x3000 + _ ≤ _; omega) (by omega) (by omega)

theorem last_entry_apart (ha : a.toNat + n ≤ 2 ^ 32) (hapart : a.toNat + n ≤ 0x1ffc ∨ 0x2000 ≤ a.toNat) :
    Disjoint (span a n) (span (KERNEL_PAGE_DIR + UInt32.ofNat (4 * 1023)) 4) := by
  have hlast := directory_toNat (show 1023 < 1024 by decide)
  exact span_apart (by omega) (by omega) (by omega)

end Apart

/-- The states behind the two turns of the outer loop and behind the last entry of the directory. -/
structure Turns (s s₁ s₂ s₃ : Memory) : Prop where
  map : s.memory_map = MEMORY_BASE
  first : TableMade (s.fill KERNEL_PAGE_DIR PAGE_SIZE.toNat 0) 0x2000 0 0 s₁
  second : TableMade s₁ 0x3000 1 1024 s₂
  writes : s₂.Writes (span (KERNEL_PAGE_DIR + UInt32.ofNat (4 * 1023)) 4) s₃
  last : s₃.word (KERNEL_PAGE_DIR + UInt32.ofNat (4 * 1023)) = entry_word (IDX KERNEL_PAGE_DIR)

section Turns

variable {s₁ s₂ s₃ : Memory}

theorem mapping_init_turns (hmap : s.memory_map = MEMORY_BASE) :
    ∃ s₁ s₂ s₃, mapping_init.run s = .ok () { s₃ with cr3 := KERNEL_PAGE_DIR, paging := true } ∧
      Turns s s₁ s₂ s₃ := by
  obtain ⟨s₁, hrun₁, hmade₁⟩ := map_table_run (s := s.fill KERNEL_PAGE_DIR PAGE_SIZE.toNat 0) 0x2000 0 0
    hmap (by decide) (by decide) (by decide) (by decide)
  have hmap₁ : s₁.memory_map = s.memory_map := hmade₁.writes.memory_map
  obtain ⟨s₂, hrun₂, hmade₂⟩ := map_table_run (s := s₁) 0x3000 1 1024
    (hmap₁.trans hmap) (by decide) (by decide) (by decide) (by decide)
  obtain ⟨s₃, hrun₃, hwrites₃, hword₃⟩ := entry_init_run (KERNEL_PAGE_DIR + UInt32.ofNat (4 * 1023))
    (IDX KERNEL_PAGE_DIR) s₂
  refine ⟨s₁, s₂, s₃, ?_, hmap, hmade₁, hmade₂, hwrites₃, hword₃⟩
  have hloop : (mapping_init_loop KERNEL_PAGE_TABLE 0 0).run (s.fill KERNEL_PAGE_DIR PAGE_SIZE.toNat 0) =
      .ok () s₂ := (bind_of_ok hrun₁ _).trans (bind_of_ok hrun₂ _)
  unfold mapping_init
  rw [bind_of_ok (memset_run KERNEL_PAGE_DIR 0 PAGE_SIZE s), bind_of_ok hloop]
  exact (bind_of_ok hrun₃ _).trans rfl

theorem Turns.memory_map (h : Turns s s₁ s₂ s₃) : s₁.memory_map = s.memory_map := h.first.writes.memory_map

theorem Turns.second_map (h : Turns s s₁ s₂ s₃) : s₁.memory_map = MEMORY_BASE := h.memory_map.trans h.map

/-- The directory is cleared first, and nothing else. -/
theorem directory_cleared (s : Memory) {a : u32} (hout : a.toNat < 0x1000 ∨ 0x2000 ≤ a.toNat) :
    (s.fill KERNEL_PAGE_DIR PAGE_SIZE.toNat 0).ram a = s.ram a := by
  have ha := a.toNat_lt
  refine (s.fill_writes KERNEL_PAGE_DIR PAGE_SIZE.toNat 0).byte (span_apart (by omega) (by decide) ?_)
  change _ ≤ 0x1000 ∨ 0x1000 + 0x1000 ≤ _
  omega

theorem Turns.ram (h : Turns s s₁ s₂ s₃) {a : u32} (ha : a ∉ span KERNEL_PAGE_DIR 0x3000 ∪ span s.memory_map 0x800) :
    s₃.ram a = s.ram a := by
  rw [Set.mem_union, mem_span_iff (by decide), mem_span_iff (by rw [h.map]; decide), h.map] at ha
  change ¬(0x1000 ≤ _ ∧ _ < 0x1000 + _ ∨ 0x100000 ≤ _ ∧ _ < 0x100000 + _) at ha
  have ha' := a.toNat_lt
  rw [h.writes.byte (last_entry_apart (by omega) (by omega)),
    h.second.writes.byte (second_turn_apart h.second_map (by omega) (by omega)),
    h.first.writes.byte (first_turn_apart h.map (by omega) (by omega))]
  exact directory_cleared s (by omega)

theorem Turns.directory (h : Turns s s₁ s₂ s₃) {d : Nat} (hd : d < 1024) :
    s₃.word (KERNEL_PAGE_DIR + UInt32.ofNat (4 * d)) = directory_word d := by
  have hnat := directory_toNat hd
  unfold directory_word
  by_cases h1023 : d = 1023
  · subst h1023
    exact h.last
  rw [h.writes.word (last_entry_apart (by omega) (by omega)), if_neg h1023]
  by_cases h1 : d = 1
  · subst h1
    exact h.second.directory
  rw [h.second.writes.word (second_turn_apart h.second_map (by omega) (by omega))]
  by_cases h0 : d = 0
  · subst h0
    exact h.first.directory
  rw [h.first.writes.word (first_turn_apart h.map (by omega) (by omega)), if_neg (by omega)]
  refine s.fill_word_zero fun a ha => ?_
  rw [mem_span_iff (by omega), hnat] at ha
  exact (mem_span_iff (by decide)).mpr (by change 0x1000 ≤ _ ∧ _ < 0x1000 + 0x1000; omega)

/-- The second table begins where the first one ends. -/
theorem second_table_entry {i : Nat} (hlow : 1024 ≤ i) (hi : i < 2048) :
    (0x3000 : u32) + UInt32.ofNat (4 * (i - 1024)) = 0x2000 + UInt32.ofNat (4 * i) := by
  have hnat : ((0x3000 : u32) + UInt32.ofNat (4 * (i - 1024))).toNat = 0x3000 + 4 * (i - 1024) :=
    add_ofNat_toNat (by change 0x3000 + _ < 2 ^ 32; omega)
  rw [← UInt32.toNat_inj, table_toNat hi, hnat]
  omega

theorem Turns.tables (h : Turns s s₁ s₂ s₃) {i : Nat} (hi : i < 2048) :
    s₃.word (0x2000 + UInt32.ofNat (4 * i)) = table_word i := by
  have hnat := table_toNat hi
  rw [h.writes.word (last_entry_apart (by omega) (by omega))]
  by_cases hlow : i < 1024
  · rw [h.second.writes.word (second_turn_apart h.second_map (by omega) (by omega))]
    have hfilled := h.first.filled i hlow
    rwa [Nat.zero_add] at hfilled
  · have hfilled := h.second.filled (i - 1024) (by omega)
    rwa [Nat.add_sub_cancel' (by omega), second_table_entry (by omega) hi] at hfilled

theorem Turns.marked (h : Turns s s₁ s₂ s₃) {i : Nat} (hne : i ≠ 0) (hi : i < 2048) :
    s₃.ram (s.memory_map + UInt32.ofNat i) = 1 := by
  have hnat := map_cell_toNat h.map (show i < 2 ^ 31 by omega)
  rw [h.writes.byte (last_entry_apart (by omega) (by omega))]
  by_cases hlow : i < 1024
  · rw [h.second.writes.byte (second_turn_apart h.second_map (by omega) (by omega))]
    have hmarked := h.first.marked i hlow (by omega)
    rwa [Nat.zero_add] at hmarked
  · have hmarked := h.second.marked (i - 1024) (by omega) (by omega)
    rwa [Nat.add_sub_cancel' (by omega), h.memory_map] at hmarked

theorem Turns.unmarked (h : Turns s s₁ s₂ s₃) : s₃.ram s.memory_map = s.ram s.memory_map := by
  have hnat : s.memory_map.toNat = 0x100000 := by rw [h.map]; rfl
  have hunmarked : s₁.ram s.memory_map = (s.fill KERNEL_PAGE_DIR PAGE_SIZE.toNat 0).ram s.memory_map :=
    h.first.unmarked rfl
  rw [h.writes.byte (last_entry_apart (by omega) (by omega)),
    h.second.writes.byte (second_turn_apart h.second_map (by omega) (by omega)), hunmarked]
  exact directory_cleared s (by omega)

theorem mapping_init_run (hmap : s.memory_map = MEMORY_BASE) :
    ∃ s', mapping_init.run s = .ok () s' ∧ Mapped s s' := by
  obtain ⟨s₁, s₂, s₃, hrun, h⟩ := mapping_init_turns hmap
  have hvars : s₃ = { s with ram := s₃.ram } := by
    rw [h.writes.vars, h.second.writes.vars, h.first.writes.vars]
    rfl
  exact ⟨_, hrun,
    { vars := by rw [hvars]
      ram := fun a ha => h.ram ha
      directory := fun d hd => h.directory hd
      tables := fun i hi => h.tables hi
      marked := fun i hne hi => h.marked hne hi
      unmarked := h.unmarked }⟩

end Turns

end Mapping

end onix
