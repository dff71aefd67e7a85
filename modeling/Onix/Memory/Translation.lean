import Onix.Memory.Accounting

namespace onix

section Walk

/-- The address of the page that a control register or an entry points to. -/
def frame (word : u32) : u32 := PAGE (IDX word)

/-- The address of the directory entry of an address. -/
def Memory.dentry_at (s : Memory) (v : u32) : u32 := frame s.cr3 + 4 * DIDX v

/-- The address of the table entry of an address, where the directory entry is present. -/
def Memory.tentry_at (s : Memory) (v : u32) : u32 := frame (s.word (s.dentry_at v)) + 4 * TIDX v

/-- The walk of the processor through directory and table, for pages of 4K; `none` is a page fault. -/
def Memory.translate (s : Memory) (v : u32) : Option u32 :=
  if s.word (s.dentry_at v) &&& 1 = 0 then none
  else if s.word (s.tentry_at v) &&& 1 = 0 then none
  else some (frame (s.word (s.tentry_at v)) + (v &&& 0xfff))

end Walk

section Words

variable {i : Nat} (v word : u32)

theorem frame_toNat : (frame word).toNat = word.toNat / 4096 * 4096 := by
  have hlt := word.toNat_lt
  unfold frame PAGE
  rw [UInt32.toNat_shiftLeft, IDX_toNat, Nat.shiftLeft_eq]
  change word.toNat / 4096 * 4096 % 2 ^ 32 = _
  omega

theorem DIDX_toNat : (DIDX v).toNat = v.toNat / 2 ^ 22 := by
  have hlt := v.toNat_lt
  unfold DIDX
  rw [UInt32.toNat_and, UInt32.toNat_shiftRight, Nat.shiftRight_eq_div_pow]
  refine (Nat.and_two_pow_sub_one_eq_mod (v.toNat / 2 ^ 22) 10).trans ?_
  omega

theorem TIDX_toNat : (TIDX v).toNat = v.toNat / 4096 % 1024 := by
  unfold TIDX
  rw [UInt32.toNat_and, UInt32.toNat_shiftRight, Nat.shiftRight_eq_div_pow]
  exact Nat.and_two_pow_sub_one_eq_mod (v.toNat / 2 ^ 12) 10

theorem offset_toNat : (v &&& 0xfff).toNat = v.toNat % 4096 := by
  rw [UInt32.toNat_and]
  exact Nat.and_two_pow_sub_one_eq_mod v.toNat 12

theorem get_pte_toNat : (get_pte v).toNat = 0xffc00000 + 4096 * (v.toNat / 2 ^ 22) := by
  have hlt := v.toNat_lt
  unfold get_pte
  rw [UInt32.toNat_or, UInt32.toNat_shiftLeft, DIDX_toNat, Nat.shiftLeft_eq]
  change 0xffc00000 ||| v.toNat / 2 ^ 22 * 4096 % 2 ^ 32 = _
  have hor := Nat.two_pow_add_eq_or_of_lt (i := 22) (b := v.toNat / 2 ^ 22 * 4096 % 2 ^ 32) (by omega) 1023
  change 0xffc00000 + _ = 0xffc00000 ||| _ at hor
  omega

theorem entry_word_toNat (hi : i < 2 ^ 20) : (entry_word (UInt32.ofNat i)).toNat = 4096 * i + 7 := by
  unfold entry_word
  rw [UInt32.toNat_or, UInt32.toNat_shiftLeft, toNat_ofNat (by omega), Nat.shiftLeft_eq]
  change 7 ||| i * 4096 % 2 ^ 32 = _
  have hor := Nat.two_pow_add_eq_or_of_lt (i := 12) (b := 7) (by decide) i
  rw [Nat.or_comm, Nat.mod_eq_of_lt (by omega), Nat.mul_comm]
  exact hor.symm

theorem and_one_toNat : (word &&& 1).toNat = word.toNat % 2 := by
  rw [UInt32.toNat_and]
  exact Nat.and_two_pow_sub_one_eq_mod word.toNat 1

theorem and_seven_toNat : (word &&& 7).toNat = word.toNat % 8 := by
  rw [UInt32.toNat_and]
  exact Nat.and_two_pow_sub_one_eq_mod word.toNat 3

theorem present_iff : word &&& 1 ≠ 0 ↔ word.toNat % 2 = 1 := by
  rw [ne_eq, ← UInt32.toNat_inj, and_one_toNat]
  change ¬ word.toNat % 2 = 0 ↔ _
  omega

end Words

section SelfMap

variable {s : Memory} {v : u32}

/-- The walk of an address whose entries are present. -/
theorem Memory.translate_of_present (hdentry : s.word (s.dentry_at v) &&& 1 ≠ 0)
    (htentry : s.word (s.tentry_at v) &&& 1 ≠ 0) :
    s.translate v = some (frame (s.word (s.tentry_at v)) + (v &&& 0xfff)) := by
  unfold Memory.translate
  rw [if_neg hdentry, if_neg htentry]

/-- The last entry of the directory is present and points to the directory. -/
structure Memory.SelfMapped (s : Memory) : Prop where
  present : s.word (frame s.cr3 + 4 * 1023) &&& 1 ≠ 0
  points : frame (s.word (frame s.cr3 + 4 * 1023)) = frame s.cr3

/-- An address of the last 4M is walked through the directory twice: its table index picks the directory entry
that serves as the table entry. -/
theorem Memory.SelfMapped.translate {a : u32} (h : s.SelfMapped) (ha : 0xffc00000 ≤ a.toNat)
    (hpresent : s.word (frame s.cr3 + 4 * TIDX a) &&& 1 ≠ 0) :
    s.translate a = some (frame (s.word (frame s.cr3 + 4 * TIDX a)) + (a &&& 0xfff)) := by
  have hdidx : DIDX a = 1023 := by
    have hlt := a.toNat_lt
    rw [← UInt32.toNat_inj, DIDX_toNat]
    change _ = 1023
    omega
  have hdentry : s.dentry_at a = frame s.cr3 + 4 * 1023 := by rw [dentry_at, hdidx]
  have htentry : s.tentry_at a = frame s.cr3 + 4 * TIDX a := by rw [tentry_at, hdentry, h.points]
  have hwalk := Memory.translate_of_present (s := s) (v := a) (by rw [hdentry]; exact h.present)
    (by rw [htentry]; exact hpresent)
  rwa [htentry] at hwalk

theorem Memory.SelfMapped.translate_pte (h : s.SelfMapped) (hpresent : s.word (s.dentry_at v) &&& 1 ≠ 0) :
    s.translate (get_pte v + 4 * TIDX v) = some (s.tentry_at v) := by
  have hlt := v.toNat_lt
  have hfour : (4 * TIDX v).toNat = 4 * (v.toNat / 4096 % 1024) := by
    rw [UInt32.toNat_mul, TIDX_toNat]
    exact Nat.mod_eq_of_lt (by change 4 * _ < _; omega)
  have hnat : (get_pte v + 4 * TIDX v).toNat = 0xffc00000 + 4096 * (v.toNat / 2 ^ 22) + 4 * (v.toNat / 4096 % 1024) := by
    rw [UInt32.toNat_add, get_pte_toNat, hfour]
    exact Nat.mod_eq_of_lt (by omega)
  have htidx : TIDX (get_pte v + 4 * TIDX v) = DIDX v := by
    rw [← UInt32.toNat_inj, TIDX_toNat, DIDX_toNat, hnat]
    omega
  have hoffset : (get_pte v + 4 * TIDX v) &&& 0xfff = 4 * TIDX v := by
    rw [← UInt32.toNat_inj, offset_toNat, hfour, hnat]
    omega
  have hwalk := h.translate (a := get_pte v + 4 * TIDX v) (by omega) (by rw [htidx]; exact hpresent)
  rwa [htidx, hoffset] at hwalk

theorem Memory.SelfMapped.translate_pde (h : s.SelfMapped) :
    s.translate (get_pde + 4 * DIDX v) = some (s.dentry_at v) := by
  have hlt := v.toNat_lt
  have hfour : (4 * DIDX v).toNat = 4 * (v.toNat / 2 ^ 22) := by
    rw [UInt32.toNat_mul, DIDX_toNat]
    exact Nat.mod_eq_of_lt (by change 4 * _ < _; omega)
  have hnat : (get_pde + 4 * DIDX v).toNat = 0xfffff000 + 4 * (v.toNat / 2 ^ 22) := by
    rw [UInt32.toNat_add, hfour]
    exact Nat.mod_eq_of_lt (by change 0xfffff000 + _ < _; omega)
  have htidx : TIDX (get_pde + 4 * DIDX v) = 1023 := by
    rw [← UInt32.toNat_inj, TIDX_toNat, hnat]
    change _ = 1023
    omega
  have hoffset : (get_pde + 4 * DIDX v) &&& 0xfff = 4 * DIDX v := by
    rw [← UInt32.toNat_inj, offset_toNat, hfour, hnat]
    omega
  have hwalk := h.translate (a := get_pde + 4 * DIDX v) (by omega) (by rw [htidx]; exact h.present)
  rwa [htidx, hoffset, h.points] at hwalk

end SelfMap

section Kernel

variable {s s' : Memory} {v : u32}

theorem entry_word_flags {i : Nat} (hi : i < 2 ^ 20) : entry_word (UInt32.ofNat i) &&& 7 = 7 := by
  rw [← UInt32.toNat_inj, and_seven_toNat, entry_word_toNat hi]
  change _ = 7
  omega

theorem entry_word_present {i : Nat} (hi : i < 2 ^ 20) : entry_word (UInt32.ofNat i) &&& 1 ≠ 0 := by
  rw [present_iff, entry_word_toNat hi]
  omega

theorem frame_entry_word {i : Nat} (hi : i < 2 ^ 20) : (frame (entry_word (UInt32.ofNat i))).toNat = 4096 * i := by
  rw [frame_toNat, entry_word_toNat hi]
  omega

/-- The entries of the directory that are present have all three flags. -/
theorem directory_word_flags (d : Nat) (hpresent : directory_word d &&& 1 ≠ 0) : directory_word d &&& 7 = 7 := by
  unfold directory_word at hpresent ⊢
  split_ifs at hpresent ⊢ with hlow hlast
  · exact entry_word_flags (by omega)
  · exact entry_word_flags (i := 1) (by decide)
  · exact absurd rfl hpresent

theorem table_word_flags {i : Nat} (hi : i < 2048) (hpresent : table_word i &&& 1 ≠ 0) : table_word i &&& 7 = 7 := by
  unfold table_word at hpresent ⊢
  split_ifs at hpresent ⊢
  · exact absurd rfl hpresent
  · exact entry_word_flags (by omega)

theorem Mapped.frame_cr3 (h : Mapped s s') : frame s'.cr3 = KERNEL_PAGE_DIR := by
  have hcr3 : s'.cr3 = KERNEL_PAGE_DIR := by rw [h.vars]
  rw [hcr3]
  decide

theorem Mapped.dentry (h : Mapped s s') (v : u32) : s'.word (s'.dentry_at v) = directory_word (v.toNat / 2 ^ 22) := by
  have hlt := v.toNat_lt
  rw [← h.directory _ (by omega), Memory.dentry_at, h.frame_cr3]
  congr 2
  rw [← four_mul_ofNat, ← DIDX_toNat, UInt32.ofNat_toNat]

/-- Below 8M the two tables follow each other, entry by entry. -/
theorem Mapped.tentry (h : Mapped s s') (hv : v.toNat < 0x800000) :
    s'.word (s'.tentry_at v) = table_word (v.toNat / 4096) := by
  have hdidx : v.toNat / 2 ^ 22 < 2 := by omega
  have hfour : (4 * TIDX v).toNat = 4 * (v.toNat / 4096 % 1024) := by
    rw [UInt32.toNat_mul, TIDX_toNat]
    exact Nat.mod_eq_of_lt (by change 4 * _ < _; omega)
  rw [← h.tables _ (by omega), Memory.tentry_at, h.dentry, directory_word, if_pos hdidx]
  congr 1
  rw [← UInt32.toNat_inj, table_toNat (by omega), UInt32.toNat_add, frame_entry_word (by omega), hfour]
  omega

theorem Mapped.translate_low (h : Mapped s s') (hv : 0x1000 ≤ v.toNat) (hv' : v.toNat < 0x800000) :
    s'.translate v = some v := by
  have hdidx : v.toNat / 2 ^ 22 < 2 := by omega
  have hpage : v.toNat / 4096 ≠ 0 := by omega
  have hdentry : s'.word (s'.dentry_at v) &&& 1 ≠ 0 := by
    rw [h.dentry, directory_word, if_pos hdidx]
    exact entry_word_present (by omega)
  have htentry : s'.word (s'.tentry_at v) = entry_word (UInt32.ofNat (v.toNat / 4096)) := by
    rw [h.tentry hv', table_word, if_neg hpage]
  rw [Memory.translate_of_present hdentry (by rw [htentry]; exact entry_word_present (by omega)), htentry,
    Option.some_inj, ← UInt32.toNat_inj, UInt32.toNat_add, frame_entry_word (by omega), offset_toNat]
  omega

/-- Page 0 and the addresses between 8M and the last 4M are not mapped. -/
theorem Mapped.translate_none (h : Mapped s s')
    (hv : v.toNat < 0x1000 ∨ 0x800000 ≤ v.toNat ∧ v.toNat < 0xffc00000) : s'.translate v = none := by
  unfold Memory.translate
  rcases hv with hzero | ⟨hlow, hhigh⟩
  · have htentry : s'.word (s'.tentry_at v) = 0 := by
      rw [h.tentry (by omega), table_word, if_pos (by omega)]
    rw [htentry, if_pos (show (0 : u32) &&& 1 = 0 from rfl), ite_self]
  · have hdentry : s'.word (s'.dentry_at v) = 0 := by
      rw [h.dentry, directory_word, if_neg (by omega), if_neg (by omega)]
    rw [hdentry, if_pos (show (0 : u32) &&& 1 = 0 from rfl)]

theorem Mapped.self_mapped (h : Mapped s s') : s'.SelfMapped := by
  have hlast : s'.word (frame s'.cr3 + 4 * 1023) = entry_word 1 := by
    have hword := h.directory 1023 (by decide)
    rwa [← four_mul_ofNat, ← h.frame_cr3] at hword
  refine ⟨?_, ?_⟩
  · rw [hlast]
    exact entry_word_present (i := 1) (by decide)
  · rw [hlast, h.frame_cr3]
    exact UInt32.toNat_inj.mp (frame_entry_word (i := 1) (by decide))

/-- Every mapped entry is present, writable and open to the user, also those of the last 4M, which are the
entries of the directory. -/
theorem Mapped.flags (h : Mapped s s') {p : u32} (hmapped : s'.translate v = some p) :
    s'.word (s'.dentry_at v) &&& 7 = 7 ∧ s'.word (s'.tentry_at v) &&& 7 = 7 := by
  have hlt := v.toNat_lt
  unfold Memory.translate at hmapped
  split_ifs at hmapped with hdentry htentry
  have hflags : s'.word (s'.dentry_at v) &&& 7 = 7 := by
    rw [h.dentry] at hdentry ⊢
    exact directory_word_flags _ hdentry
  refine ⟨hflags, ?_⟩
  by_cases hlow : v.toNat < 0x800000
  · rw [h.tentry hlow] at htentry ⊢
    exact table_word_flags (by omega) htentry
  · have hdidx : v.toNat / 2 ^ 22 = 1023 := by
      by_contra hne
      rw [h.dentry, directory_word, if_neg (by omega), if_neg hne] at hdentry
      exact hdentry rfl
    have htidx := TIDX_toNat v
    have hself : s'.word (s'.tentry_at v) = directory_word (v.toNat / 4096 % 1024) := by
      rw [← h.directory _ (Nat.mod_lt _ (by decide)), Memory.tentry_at, h.dentry, hdidx]
      congr 1
      rw [← four_mul_ofNat, ← htidx, UInt32.ofNat_toNat]
      rfl
    rw [hself] at htentry ⊢
    exact directory_word_flags _ htentry

/-- The tables of boot map the first 8M but page 0 to themselves, and nothing else below the last 4M. There, in
these and in all other tables whose directory points to itself, the entries of any address are found at
the addresses that `get_pde` and `get_pte` give. -/
theorem paging_self_map :
    (∀ (ram : u32 → u8) (magic addr : u32) (s₀ s₁ : Memory), (memory_init magic addr).run (Memory.cold ram) = .ok () s₀ →
      kernel_init.run s₀ = .ok () s₁ →
      s₁.paging = true ∧ ∀ v : u32,
        (0x1000 ≤ v → v < KERNEL_MEMORY_SIZE → s₁.translate v = some v) ∧
        (v < 0x1000 ∨ KERNEL_MEMORY_SIZE ≤ v ∧ v < 0xffc00000 → s₁.translate v = none) ∧
        (s₁.translate v ≠ none → s₁.word (s₁.dentry_at v) &&& 7 = 7 ∧ s₁.word (s₁.tentry_at v) &&& 7 = 7)) ∧
    ∀ s : Memory, s.SelfMapped → ∀ v : u32, s.word (s.dentry_at v) &&& 1 ≠ 0 →
      s.translate (get_pte v + 4 * TIDX v) = some (s.tentry_at v) ∧
        s.translate (get_pde + 4 * DIDX v) = some (s.dentry_at v) := by
  refine ⟨fun ram magic addr s₀ s₁ haccept hboot => ?_, fun s hself v hpresent =>
    ⟨hself.translate_pte hpresent, hself.translate_pde⟩⟩
  obtain ⟨s, hmap, hmade⟩ := memory_map_init_run (memory_init_ok haccept)
  obtain ⟨t, hmapping, hmapped⟩ := mapping_init_run hmade.layout.map
  have hkernel : kernel_init.run s₀ = .ok () t := (Outcome.bind_of_ok hmap _).trans hmapping
  rw [hboot] at hkernel
  cases hkernel
  have hsize : KERNEL_MEMORY_SIZE.toNat = 0x800000 := by decide
  refine ⟨by rw [hmapped.vars], fun v => ⟨fun hlow hhigh => ?_, fun hv => ?_, fun hmap => ?_⟩⟩
  · rw [UInt32.le_iff_toNat_le] at hlow
    rw [UInt32.lt_iff_toNat_lt, hsize] at hhigh
    exact hmapped.translate_low hlow hhigh
  · rw [UInt32.lt_iff_toNat_lt, UInt32.le_iff_toNat_le, UInt32.lt_iff_toNat_lt, hsize] at hv
    exact hmapped.translate_none hv
  · obtain ⟨p, hp⟩ := Option.ne_none_iff_exists'.mp hmap
    exact hmapped.flags hp

theorem paging_self_map_ards : ∃ s₀ s₁, (memory_init ONIX_MAGIC 0x8000).run (Memory.cold ards_ram) = .ok () s₀ ∧
    kernel_init.run s₀ = .ok () s₁ ∧ s₁.translate 0x123456 = some 0x123456 ∧ s₁.translate 0x800000 = none ∧
      s₁.translate (get_pte 0x123456 + 4 * TIDX 0x123456) = some (s₁.tentry_at 0x123456) := by
  obtain ⟨s₀, haccept, -⟩ := memory_init_ards
  obtain ⟨s, hmap, hmade⟩ := memory_map_init_run (memory_init_ok haccept)
  obtain ⟨s₁, hmapping, hmapped⟩ := mapping_init_run hmade.layout.map
  have hboot : kernel_init.run s₀ = .ok () s₁ := (Outcome.bind_of_ok hmap _).trans hmapping
  obtain ⟨hkernel, hself⟩ := paging_self_map
  obtain ⟨-, hwalk⟩ := hkernel _ _ _ s₀ s₁ haccept hboot
  have hpresent : s₁.word (s₁.dentry_at 0x123456) &&& 1 ≠ 0 := by
    rw [hmapped.dentry]
    decide
  exact ⟨s₀, s₁, haccept, hboot, (hwalk 0x123456).1 (by decide) (by decide), (hwalk 0x800000).2.1 (.inr (by decide)),
    (hself s₁ hmapped.self_mapped 0x123456 hpresent).1⟩

end Kernel

end onix
