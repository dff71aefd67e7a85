import Onix.Memory.BitmapSpec
import Onix.Memory.Tables

namespace onix

open Outcome FirstFit

theorem IDX_toNat (addr : u32) : (IDX addr).toNat = addr.toNat / 4096 := by
  unfold IDX
  rw [UInt32.toNat_shiftRight, Nat.shiftRight_eq_div_pow]
  rfl

section MemoryInit

/-- What `memory_init` found: a region from 1M on, of whole pages and large enough for the kernel. -/
structure Accepted (s s' : Memory) : Prop where
  vars : s' = { s with
    memory_base := MEMORY_BASE, memory_size := s'.memory_size,
    total_pages := IDX s'.memory_size + IDX MEMORY_BASE, free_pages := IDX s'.memory_size }
  aligned : s'.memory_size.toNat % 4096 = 0
  large : KERNEL_MEMORY_SIZE ≤ s'.memory_size

variable {s s' : Memory}

theorem memory_init_loop_run (n : Nat) (ptr : u32) (s : Memory) :
    ∃ base size, (memory_init_loop n ptr).run s = .ok () { s with memory_base := base, memory_size := size } := by
  induction n generalizing ptr s with
  | zero => exact ⟨s.memory_base, s.memory_size, rfl⟩
  | succ n ih =>
    have hload : ∃ ards, (load_ards ptr).run s = .ok ards s := ⟨_, rfl⟩
    obtain ⟨ards, hload⟩ := hload
    unfold memory_init_loop
    rw [bind_of_ok hload, bind_of_ok (rfl : (get : MemoryM Memory).run s = .ok s s)]
    by_cases hpick : ards.type = ZONE_VALID ∧ ards.size > s.memory_size.toUInt64
    · rw [if_pos hpick]
      exact ih (ptr + 20) { s with memory_base := ards.base.toUInt32, memory_size := ards.size.toUInt32 }
    · rw [if_neg hpick]
      exact ih (ptr + 20) s

theorem memory_init_ok {magic addr : u32} (h : (memory_init magic addr).run s = .ok () s') : Accepted s s' := by
  unfold memory_init at h
  by_cases hmagic : magic = ONIX_MAGIC
  · obtain ⟨base, size, hloop⟩ := memory_init_loop_run (s.word addr).toNat (addr + 4) s
    rw [if_pos hmagic, bind_of_ok (load32_run addr s), bind_of_ok hloop] at h
    simp only [get_bind_run, modify_bind_run, assert_bind_run, decide_eq_true_eq] at h
    split at h
    · rename_i hbase
      split at h
      · rename_i halign
        split at h
        · exact absurd h (by simp)
        · rename_i hlarge
          obtain rfl : _ = s' := (EStateM.Result.ok.inj h).2
          refine ⟨?_, (Words.and_fff size).mp halign, UInt32.not_lt.mp hlarge⟩
          simp only [← hbase]
      · cases h
    · cases h
  · rw [if_neg hmagic] at h
    cases h

end MemoryInit

section MemoryMap

/-- The number of users of page `i`. -/
def Memory.count (s : Memory) (i : Nat) : u8 := s.ram (s.memory_map + UInt32.ofNat i)

/-- The variables that boot leaves for good. -/
structure Memory.Layout (s : Memory) : Prop where
  map : s.memory_map = MEMORY_BASE
  size : s.total_pages.toNat * 4096 = MEMORY_BASE.toNat + s.memory_size.toNat
  total_le : s.total_pages.toNat < 2 ^ 20 + 256
  large : 2304 ≤ s.total_pages.toNat
  pages : s.memory_map_pages.toNat = (s.total_pages.toNat + 4095) / 4096
  start : s.start_page.toNat = 256 + s.memory_map_pages.toNat
  kernel_map : s.kernel_map = bitmap_make KERNEL_MAP_BITS 224 256

/-- What `memory_map_init` leaves: its own pages and those below are marked, and the bits of its own pages. -/
structure MapMade (s s' : Memory) : Prop where
  layout : s'.Layout
  memory_size : s'.memory_size = s.memory_size
  free : s'.free_pages.toNat + s'.start_page.toNat = s'.total_pages.toNat
  marked : ∀ i < s'.start_page.toNat, s'.count i = 1
  unmarked : ∀ i, s'.start_page.toNat ≤ i → i < s'.total_pages.toNat → s'.count i = 0
  bits : ∀ k < s'.kernel_map.size, s'.bit s'.kernel_map k = decide (k < s'.memory_map_pages.toNat)

theorem div_round_up_toNat {num : u32} (h : num.toNat < 2 ^ 31) :
    (div_round_up num PAGE_SIZE).toNat = (num.toNat + 4095) / 4096 := by
  unfold div_round_up
  rw [UInt32.toNat_div, UInt32.toNat_sub, UInt32.toNat_add]
  change (2 ^ 32 - 1 + (num.toNat + 4096) % 2 ^ 32) % 2 ^ 32 / 4096 = _
  omega

/-- Memory when `memory_map_init` calls `bitmap_scan`. -/
def map_cleared (s : Memory) : Memory :=
  let pages := div_round_up s.total_pages PAGE_SIZE
  let start := 256 + pages
  let t := { s with
    memory_map := s.memory_base, memory_map_pages := pages, free_pages := s.free_pages - pages, start_page := start,
    kernel_map := bitmap_make KERNEL_MAP_BITS 224 256 }
  ((t.fill s.memory_base (pages * PAGE_SIZE).toNat 0).fill s.memory_base start.toNat 1).fill KERNEL_MAP_BITS 224 0

theorem bitmap_init_run (bits length start : u32) (s : Memory) :
    (bitmap_init bits length start).run s = .ok (bitmap_make bits length start) (s.fill bits length.toNat 0) := by
  unfold bitmap_init
  rw [bind_of_ok (memset_run bits 0 length s)]
  rfl

theorem memory_map_init_eq (s : Memory) :
    memory_map_init.run s = (do let _ ← bitmap_scan (map_cleared s).kernel_map (map_cleared s).memory_map_pages).run
      (map_cleared s) := by
  let pages := div_round_up s.total_pages PAGE_SIZE
  let t := { s with
    memory_map := s.memory_base, memory_map_pages := pages, free_pages := s.free_pages - pages,
    start_page := 256 + pages }
  let cleared := t.fill s.memory_base (pages * PAGE_SIZE).toNat 0
  have hmark : (Loop.upFrom (fun i => do store8 ((← get).memory_map + i) 1) 0 (256 + pages).toNat).run cleared =
      .ok () (cleared.fill s.memory_base (256 + pages).toNat 1) := by
    apply fill_loop (Nat.le_of_lt (256 + pages).toNat_lt)
    intro j _
    rw [UInt32.zero_add]
    rfl
  have hlength : (IDX KERNEL_MEMORY_SIZE - 256) / 8 = 224 := by decide
  have hoffset : IDX MEMORY_BASE = 256 := by decide
  unfold memory_map_init
  simp only [get_bind_run, modify_bind_run, hlength, hoffset]
  rw [bind_of_ok (memset_run _ _ _ _)]
  simp only [get_bind_run, modify_bind_run]
  refine (bind_of_ok hmark _).trans ?_
  rw [bind_of_ok (bitmap_init_run KERNEL_MAP_BITS 224 256 _)]
  simp only [get_bind_run, modify_bind_run]
  unfold map_cleared
  rfl

/-- The variables of an accepted memory, as numbers. -/
theorem Accepted.pages {s₀ s : Memory} (h : Accepted s₀ s) :
    s.total_pages.toNat = s.memory_size.toNat / 4096 + 256 ∧ s.free_pages.toNat = s.memory_size.toNat / 4096 ∧
      2048 ≤ s.memory_size.toNat / 4096 ∧ s.memory_size.toNat / 4096 < 2 ^ 20 := by
  have hlarge := UInt32.le_iff_toNat_le.mp h.large
  change 0x800000 ≤ s.memory_size.toNat at hlarge
  have hsize := s.memory_size.toNat_lt
  have htotal : s.total_pages = IDX s.memory_size + IDX MEMORY_BASE := by rw [h.vars]
  have hfree : s.free_pages = IDX s.memory_size := by rw [h.vars]
  refine ⟨?_, ?_, by omega, by omega⟩
  · rw [htotal, UInt32.toNat_add, IDX_toNat, show (IDX MEMORY_BASE).toNat = 256 from rfl, Nat.mod_eq_of_lt (by omega)]
  · rw [hfree, IDX_toNat]

/-- The kernel map is empty when it is scanned. -/
theorem map_cleared_bit (s : Memory) {k : Nat} (hk : k < 1792) :
    (map_cleared s).bit (map_cleared s).kernel_map k = false := by
  have hzero : (map_cleared s).ram (KERNEL_MAP_BITS + UInt32.ofNat (k / 8)) = 0 :=
    have hspan : KERNEL_MAP_BITS + UInt32.ofNat (k / 8) ∈ span KERNEL_MAP_BITS 224 :=
      (mem_span_ofNat KERNEL_MAP_BITS (by omega)).mpr (by omega)
    if_pos hspan
  have hbit : (map_cleared s).bit (map_cleared s).kernel_map k =
      ((map_cleared s).ram (KERNEL_MAP_BITS + UInt32.ofNat (k / 8))).toBitVec.getLsbD (k % 8) := rfl
  rw [hbit, hzero]
  exact BitVec.getLsbD_zero

/-- The sizes of the memory map of an accepted memory, as numbers. -/
theorem Accepted.map_pages {s₀ s : Memory} (h : Accepted s₀ s) :
    (div_round_up s.total_pages PAGE_SIZE).toNat = (s.total_pages.toNat + 4095) / 4096 ∧
      (256 + div_round_up s.total_pages PAGE_SIZE).toNat = 256 + (s.total_pages.toNat + 4095) / 4096 ∧
        (div_round_up s.total_pages PAGE_SIZE * PAGE_SIZE).toNat = (s.total_pages.toNat + 4095) / 4096 * 4096 := by
  obtain ⟨htotal, -, hlarge, hsmall⟩ := h.pages
  have hpages : (div_round_up s.total_pages PAGE_SIZE).toNat = (s.total_pages.toNat + 4095) / 4096 :=
    div_round_up_toNat (by omega)
  refine ⟨hpages, ?_, ?_⟩
  · rw [UInt32.toNat_add, hpages]
    exact Nat.mod_eq_of_lt (by change 256 + _ < _; omega)
  · rw [UInt32.toNat_mul, hpages]
    exact Nat.mod_eq_of_lt (by change _ * 4096 < _; omega)

/-- The pages of the memory map fit at the begin of the kernel map. -/
theorem Accepted.map_fits {s₀ s : Memory} (h : Accepted s₀ s) :
    Fits ((map_cleared s).bit (map_cleared s).kernel_map) (map_cleared s).kernel_map.size
      (map_cleared s).memory_map_pages.toNat 0 := by
  obtain ⟨htotal, -, hlarge, hsmall⟩ := h.pages
  obtain ⟨hpages, -, -⟩ := h.map_pages
  have hfew : (map_cleared s).memory_map_pages.toNat ≤ 257 := by
    change (div_round_up s.total_pages PAGE_SIZE).toNat ≤ 257
    omega
  have hsize : (map_cleared s).kernel_map.size = 1792 := rfl
  exact ⟨by omega, fun k _ hk => map_cleared_bit s (by omega)⟩

/-- The map marks its own pages and those below, and the scan of the kernel map leaves it as it is. -/
theorem Accepted.map_counts {s₀ s s' : Memory} (h : Accepted s₀ s)
    (hwrites : (map_cleared s).Writes (map_cleared s).kernel_map.buffer s') {i : Nat}
    (hi : i < (s.total_pages.toNat + 4095) / 4096 * 4096) :
    s'.count i = if i < 256 + (s.total_pages.toNat + 4095) / 4096 then 1 else 0 := by
  have hbase : s.memory_base = MEMORY_BASE := by rw [h.vars]
  obtain ⟨htotal, -, hlarge, hsmall⟩ := h.pages
  obtain ⟨-, hstart, hlength⟩ := h.map_pages
  have hnat := map_cell_toNat hbase (show i < 2 ^ 31 by omega)
  have hmap : s'.memory_map = s.memory_base := hwrites.memory_map
  have hbuffer : Disjoint (span (s.memory_base + UInt32.ofNat i) 1) (map_cleared s).kernel_map.buffer :=
    span_apart (by omega) (by change 0x4000 + 224 ≤ 2 ^ 32; decide) (.inr (by change 0x4000 + 224 ≤ _; omega))
  have hin : s.memory_base + UInt32.ofNat i ∈ span (s.memory_base + UInt32.ofNat i) 1 :=
    (mem_span_iff (by omega)).mpr (by omega)
  have hout : ¬(s.memory_base + UInt32.ofNat i - KERNEL_MAP_BITS).toNat < 224 :=
    Set.disjoint_left.mp hbuffer hin
  unfold Memory.count
  rw [hmap, hwrites.byte hbuffer]
  refine (if_neg hout).trans ?_
  simp only [Memory.fill, sub_ofNat_add_toNat s.memory_base (show i < 2 ^ 32 by omega)]
  rw [hstart, hlength, if_pos hi]

theorem memory_map_init_run {s₀ s : Memory} (h : Accepted s₀ s) :
    ∃ s', memory_map_init.run s = .ok () s' ∧ MapMade s s' := by
  have hbase : s.memory_base = MEMORY_BASE := by rw [h.vars]
  obtain ⟨htotal, hfree, hlarge, hsmall⟩ := h.pages
  obtain ⟨hpages, hstart, -⟩ := h.map_pages
  have hmap : (map_cleared s).kernel_map.Small := by
    change 256 + 8 * 224 < 2 ^ 31
    decide
  have hcount : 0 < (map_cleared s).memory_map_pages.toNat := by
    change 0 < (div_round_up s.total_pages PAGE_SIZE).toNat
    omega
  rw [memory_map_init_eq]
  rcases bitmap_scan_run hmap hcount with ⟨hnone, -⟩ | ⟨start, s', hfirst, hrun, hwrites, hbits⟩
  · exact absurd h.map_fits (hnone 0)
  obtain rfl : start = 0 := Nat.le_zero.mp (hfirst.first 0 h.map_fits)
  have hvars := hwrites.vars
  have htotal' : s'.total_pages = s.total_pages := by rw [hvars]; rfl
  have hpages' : s'.memory_map_pages = div_round_up s.total_pages PAGE_SIZE := by rw [hvars]; rfl
  have hstart' : s'.start_page = 256 + div_round_up s.total_pages PAGE_SIZE := by rw [hvars]; rfl
  have hfree' : s'.free_pages = s.free_pages - div_round_up s.total_pages PAGE_SIZE := by rw [hvars]; rfl
  have hsize' : s'.memory_size = s.memory_size := by rw [hvars]; rfl
  have hmap' : s'.memory_map = MEMORY_BASE := by rw [hvars, ← hbase]; rfl
  have hkernel' : s'.kernel_map = bitmap_make KERNEL_MAP_BITS 224 256 := by rw [hvars]; rfl
  refine ⟨s', by rw [bind_of_ok hrun]; rfl, ?_, hsize', ?_, ?_, ?_, ?_⟩
  · exact
      { map := hmap'
        size := by
          have haligned := h.aligned
          rw [htotal', hsize', htotal]
          change _ = 0x100000 + _
          omega
        total_le := by rw [htotal']; omega
        large := by rw [htotal']; omega
        pages := by rw [hpages', hpages, htotal']
        start := by rw [hstart', hstart, hpages', hpages]
        kernel_map := hkernel' }
  · rw [hfree', hstart', htotal', UInt32.toNat_sub_of_le _ _ (UInt32.le_iff_toNat_le.mpr (by omega)), hstart, hpages]
    omega
  · intro i hi
    rw [hstart', hstart] at hi
    rw [h.map_counts hwrites (by omega), if_pos hi]
  · intro i hi hi'
    rw [hstart', hstart] at hi
    rw [htotal'] at hi'
    rw [h.map_counts hwrites (by omega), if_neg (by omega)]
  · intro k hk
    have hk' : k < 1792 := by rwa [hkernel'] at hk
    have hbit : s'.bit (bitmap_make KERNEL_MAP_BITS 224 256) k =
        if 0 ≤ k ∧ k < 0 + (div_round_up s.total_pages PAGE_SIZE).toNat then true
        else (map_cleared s).bit (map_cleared s).kernel_map k := hbits k hk'
    rw [hkernel', hpages', hbit, map_cleared_bit s hk']
    by_cases hlt : k < (div_round_up s.total_pages PAGE_SIZE).toNat
    · rw [if_pos (by omega), decide_eq_true hlt]
    · rw [if_neg (by omega), decide_eq_false hlt]

end MemoryMap

section KernelInit

/-- The state that boot leaves: the pages of the first 8M are marked, and the others are free. -/
structure Fresh (s : Memory) : Prop where
  layout : s.Layout
  free : s.free_pages.toNat + s.start_page.toNat = s.total_pages.toNat
  marked : ∀ i < 2048, s.count i = 1
  unmarked : ∀ i, 2048 ≤ i → i < s.total_pages.toNat → s.count i = 0
  bits : ∀ k < s.kernel_map.size, s.bit s.kernel_map k = decide (k < s.memory_map_pages.toNat)

variable {s s' : Memory}

theorem Mapped.count (hmap : s.memory_map = MEMORY_BASE) (h : Mapped s s') {i : Nat} (hi : 2048 ≤ i)
    (hlt : i < 2 ^ 31) : s'.count i = s.count i := by
  have hmap' : s'.memory_map = s.memory_map := by rw [h.vars]
  have hnat := map_cell_toNat hmap hlt
  unfold Memory.count
  rw [hmap', h.ram]
  rw [Set.mem_union, mem_span_iff (by decide), mem_span_iff (by rw [hmap]; decide), hnat, hmap]
  change ¬(0x1000 ≤ _ ∧ _ < 0x1000 + _ ∨ 0x100000 ≤ _ ∧ _ < 0x100000 + _)
  omega

theorem MapMade.fresh {s₀ : Memory} (hmade : MapMade s₀ s) (h : Mapped s s') : Fresh s' := by
  have hlayout := hmade.layout
  have hlarge := hlayout.large
  have htotal := hlayout.total_le
  have hpages := hlayout.pages
  have hstart := hlayout.start
  have hvars := h.vars
  have hmap' : s'.memory_map = s.memory_map := by rw [hvars]
  have hstart' : s'.start_page = s.start_page := by rw [hvars]
  have htotal' : s'.total_pages = s.total_pages := by rw [hvars]
  have hpages' : s'.memory_map_pages = s.memory_map_pages := by rw [hvars]
  have hkernel' : s'.kernel_map = s.kernel_map := by rw [hvars]
  refine ⟨?_, ?_, ?_, ?_, ?_⟩
  · rw [hvars]
    exact { hlayout with }
  · rw [hvars]
    exact hmade.free
  · intro i hi
    unfold Memory.count
    rw [hmap']
    by_cases hzero : i = 0
    · subst hzero
      have hfirst := hmade.marked 0 (by omega)
      unfold Memory.count at hfirst
      rw [show s.memory_map + UInt32.ofNat 0 = s.memory_map by simp] at hfirst ⊢
      rw [h.unmarked, hfirst]
    · exact h.marked i hzero hi
  · intro i hi hi'
    rw [htotal'] at hi'
    rw [h.count hlayout.map hi (by omega)]
    exact hmade.unmarked i (by omega) hi'
  · intro k hk
    rw [hkernel'] at hk ⊢
    rw [hpages', ← hmade.bits k hk]
    have hapart : Disjoint s.kernel_map.buffer (span KERNEL_PAGE_DIR 0x3000 ∪ span s.memory_map 0x800) := by
      rw [hlayout.kernel_map, hlayout.map, Set.disjoint_union_right]
      exact ⟨span_apart (by decide) (by decide) (.inr (by decide)), span_apart (by decide) (by decide) (.inl (by decide))⟩
    have hk' : k < 1792 := by rwa [hlayout.kernel_map] at hk
    have hin : s.kernel_map.bits + UInt32.ofNat (k / 8) ∈ s.kernel_map.buffer := by
      rw [hlayout.kernel_map]
      exact (mem_span_ofNat KERNEL_MAP_BITS (by omega)).mpr (by change k / 8 < 224; omega)
    unfold Memory.bit
    rw [h.ram _ (Set.disjoint_left.mp hapart hin)]

/-- Boot goes through for every region that `memory_init` accepts. -/
theorem kernel_init_run {s₀ : Memory} (h : Accepted s₀ s) :
    ∃ s', kernel_init.run s = .ok () s' ∧ Fresh s' ∧ s'.memory_size = s.memory_size := by
  obtain ⟨s₁, hrun₁, hmade⟩ := memory_map_init_run h
  obtain ⟨s₂, hrun₂, hmapped⟩ := mapping_init_run hmade.layout.map
  refine ⟨s₂, ?_, hmade.fresh hmapped, ?_⟩
  · unfold kernel_init
    rw [bind_of_ok hrun₁]
    exact hrun₂
  · rw [hmapped.vars]
    exact hmade.memory_size

end KernelInit

end onix
