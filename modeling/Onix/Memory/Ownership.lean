import Onix.Library.Pool
import Onix.Memory.Accounting
import Onix.Memory.KernelPages

namespace onix

open Outcome

/-- Memory, and the addresses that `get_page` has returned and that were not put since. -/
structure Owning where
  memory : Memory
  out : List u32

/-- A call of the two allocators, whether it returns or not. `put_page` is given an address that is out. -/
inductive OwnStep (o : Owning) : Owning → Prop where
  | get_page {page : u32} {s' : Memory} (h : get_page.run o.memory = .ok page s') :
      OwnStep o ⟨s', page :: o.out⟩
  | get_page_fails {e : Failure} {s' : Memory} (h : get_page.run o.memory = .error e s') : OwnStep o ⟨s', o.out⟩
  | put_page {addr : u32} (hout : addr ∈ o.out) : OwnStep o ⟨final (put_page addr) o.memory, o.out.erase addr⟩
  | alloc_kpage (count : u32) : OwnStep o ⟨final (alloc_kpage count) o.memory, o.out⟩
  | free_kpage (vaddr count : u32) : OwnStep o ⟨final (free_kpage vaddr count) o.memory, o.out⟩

/-- The pages from 8M on are a pool; `out` lists the addresses of the taken ones. -/
structure Serves (o : Owning) (pool : Pool) : Prop where
  layout : o.memory.Layout
  fits : o.memory.total_pages.toNat ≤ 2 ^ 20
  lo : pool.lo = 2048
  hi : pool.hi = o.memory.total_pages.toNat
  nodup : o.out.Nodup
  mem_out : ∀ p, p ∈ o.out ↔ ∃ i ∈ pool.taken, p = PAGE (UInt32.ofNat i)
  count : ∀ i < o.memory.total_pages.toNat, o.memory.count i = if i ∈ pool.free then 0 else 1
  free_pages : o.memory.free_pages.toNat = o.memory.unused.card + (2048 - o.memory.start_page.toNat)

section Pages

variable {i j : Nat}

theorem PAGE_toNat (hi : i < 2 ^ 20) : (PAGE (UInt32.ofNat i)).toNat = 4096 * i := by
  unfold PAGE
  rw [UInt32.toNat_shiftLeft, toNat_ofNat (by omega), Nat.shiftLeft_eq]
  change i * 4096 % 2 ^ 32 = _
  omega

theorem PAGE_inj (hi : i < 2 ^ 20) (hj : j < 2 ^ 20) : PAGE (UInt32.ofNat i) = PAGE (UInt32.ofNat j) ↔ i = j := by
  rw [← UInt32.toNat_inj, PAGE_toNat hi, PAGE_toNat hj]
  omega

theorem IDX_PAGE (hi : i < 2 ^ 20) : IDX (PAGE (UInt32.ofNat i)) = UInt32.ofNat i := by
  rw [← UInt32.toNat_inj, IDX_toNat, PAGE_toNat hi, toNat_ofNat (by omega)]
  omega

end Pages

section Run

variable {o o' : Owning} {pool : Pool}

theorem Serves.taken_lt (h : Serves o pool) {i : Nat} (hi : i ∈ pool.taken) :
    2048 ≤ i ∧ i < o.memory.total_pages.toNat ∧ i < 2 ^ 20 := by
  have hrange := Finset.mem_Ico.mp (pool.taken_subset hi)
  have hfits := h.fits
  rw [h.lo, h.hi] at hrange
  omega

theorem Serves.unused_eq (h : Serves o pool) : o.memory.unused = pool.free := by
  ext i
  rw [Memory.mem_unused]
  constructor
  · rintro ⟨hi, hzero⟩
    rw [h.count i hi] at hzero
    by_contra hout
    rw [if_neg hout] at hzero
    exact absurd hzero (by decide)
  · intro hi
    have hlt : i < o.memory.total_pages.toNat := by
      have hrange := (Pool.mem_free.mp hi).1
      rw [h.hi] at hrange
      exact hrange.2
    exact ⟨hlt, by rw [h.count i hlt, if_pos hi]⟩

/-- A page that is out passes every assertion of `put_page`. -/
theorem Serves.puttable (h : Serves o pool) {i : Nat} (hi : i ∈ pool.taken) :
    o.memory.Puttable (PAGE (UInt32.ofNat i)) i := by
  obtain ⟨hle, hlt, hsmall⟩ := h.taken_lt hi
  have hstart := h.layout.start_page_le
  refine ⟨?_, IDX_PAGE hsmall, hsmall, by omega, hlt, ?_⟩
  · rw [PAGE_toNat hsmall]
    omega
  · rw [h.count i hlt, if_neg fun hfree => (Pool.mem_free.mp hfree).2 hi]
    decide

theorem Serves.get_page (h : Serves o pool) {page : u32} {s' : Memory} (hrun : get_page.run o.memory = .ok page s') :
    ∃ pool', pool.Step pool' ∧ Serves ⟨s', page :: o.out⟩ pool' := by
  obtain ⟨i, hfirst, hpos, rfl, rfl⟩ := get_page_ok hrun
  have hunused := h.unused_eq
  obtain ⟨herase, hmem⟩ := hfirst.take_page h.layout
  have hfree : i ∈ pool.free := by rwa [← hunused]
  have hrange := (Pool.mem_free.mp hfree).1
  have hfits := h.fits
  have hi := hfirst.lt_total
  have hstart := h.layout.start_page_le
  refine ⟨pool.take i hfree, .take hfree fun j hj => ?_, ?_⟩
  · by_contra hlt
    have hjmem := Memory.mem_unused.mp (by rw [hunused]; exact hj)
    have hjrange := (Pool.mem_free.mp hj).1
    rw [h.lo] at hjrange
    exact hfirst.first j (by omega) (by omega) hjmem.2
  · have hpage : ∀ k ∈ pool.taken, PAGE (UInt32.ofNat i) = PAGE (UInt32.ofNat k) → i = k := fun k hk heq =>
      (PAGE_inj (by omega) (h.taken_lt hk).2.2).mp heq
    have hover : PageStep o.memory (o.memory.take_page i) := .get_page hrun
    have hcount := (hover.overcounted ⟨h.layout, h.free_pages⟩).free_pages
    refine ⟨h.layout.set_count i 1 _, h.fits, h.lo, h.hi, ?_, fun p => ?_, fun j hj => ?_, hcount⟩
    · refine List.nodup_cons.mpr ⟨fun hout => ?_, h.nodup⟩
      obtain ⟨k, hk, heq⟩ := (h.mem_out _).mp hout
      rw [← hpage k hk heq] at hk
      exact (Pool.mem_free.mp hfree).2 hk
    · change p ∈ PAGE (UInt32.ofNat i) :: o.out ↔ ∃ k ∈ insert i pool.taken, p = PAGE (UInt32.ofNat k)
      rw [List.mem_cons, Finset.exists_mem_insert, h.mem_out]
    · have hj' : j < o.memory.total_pages.toNat := hj
      have hiff : j ∈ (pool.take i hfree).free ↔ j ≠ i ∧ j ∈ pool.free := by
        rw [Pool.free_take, Finset.mem_erase]
      change (o.memory.take_page i).count j = _
      rw [Memory.count_take_page (by omega) (by omega), h.count j hj']
      by_cases hji : j = i
      · rw [if_pos hji, if_neg fun hmem => (hiff.mp hmem).1 hji]
      · simp [hiff, hji]

/-- A page that is out is put without a failed assertion, and is free again. -/
theorem Serves.put_page (h : Serves o pool) {addr : u32} (hout : addr ∈ o.out) :
    ∃ s' pool', (put_page addr).run o.memory = .ok () s' ∧ pool.Step pool' ∧ Serves ⟨s', o.out.erase addr⟩ pool' := by
  obtain ⟨i, hi, rfl⟩ := (h.mem_out _).mp hout
  obtain ⟨hle, hlt, hsmall⟩ := h.taken_lt hi
  have hput := h.puttable hi
  have htotal := h.layout.total_le
  have hlarge := h.layout.large
  have hstart := h.layout.start_page_le
  have hpages := h.layout.pages
  have hmin := h.layout.start
  have hone : o.memory.count i - 1 = 0 := by
    rw [h.count i hlt, if_neg fun hfree => (Pool.mem_free.mp hfree).2 hi]
    rfl
  have hunused := hput.give_page h.layout
  rw [if_pos hone, h.unused_eq] at hunused
  have hcount : (o.memory.give_page i).free_pages.toNat =
      (o.memory.give_page i).unused.card + (2048 - o.memory.start_page.toNat) := by
    have hfree : (o.memory.give_page i).free_pages = o.memory.free_pages + 1 := if_pos hone
    have hsucc : (o.memory.free_pages + 1).toNat = o.memory.free_pages.toNat + 1 := by
      have hcard := Finset.card_filter_le (Finset.range o.memory.total_pages.toNat) fun i => o.memory.count i = 0
      rw [Finset.card_range] at hcard
      have hfree_pages := h.free_pages
      unfold Memory.unused at hfree_pages
      rw [UInt32.toNat_add]
      exact Nat.mod_eq_of_lt (by change _ + 1 < _; omega)
    rw [hfree, hsucc, hunused, Finset.card_insert_of_notMem fun hfree => (Pool.mem_free.mp hfree).2 hi, h.free_pages,
      h.unused_eq]
    omega
  have hsub : insert i pool.free ⊆ Finset.Ico 2048 o.memory.total_pages.toNat := by
    rw [← h.lo, ← h.hi]
    exact Finset.insert_subset (pool.taken_subset hi) Finset.sdiff_subset
  have hcard := Finset.card_le_card hsub
  rw [Nat.card_Ico, ← hunused] at hcard
  have hassert : (o.memory.give_page i).free_pages > 0 ∧ (o.memory.give_page i).free_pages < o.memory.total_pages := by
    refine ⟨UInt32.lt_iff_toNat_lt.mpr ?_, UInt32.lt_iff_toNat_lt.mpr ?_⟩
    · change 0 < _
      omega
    · omega
  have hrun := put_page_run hput
  rw [if_pos hassert] at hrun
  refine ⟨_, pool.give i, hrun, .give hi, h.layout.set_count i _ _, h.fits, h.lo, h.hi, h.nodup.erase _, fun p => ?_,
    fun j hj => ?_, hcount⟩
  · change p ∈ o.out.erase _ ↔ ∃ k ∈ pool.taken.erase i, _
    rw [h.nodup.mem_erase_iff, h.mem_out]
    constructor
    · rintro ⟨hne, k, hk, rfl⟩
      exact ⟨k, Finset.mem_erase.mpr ⟨fun hki => hne (by rw [hki]), hk⟩, rfl⟩
    · rintro ⟨k, hk, rfl⟩
      obtain ⟨hne, hk⟩ := Finset.mem_erase.mp hk
      exact ⟨fun heq => hne ((PAGE_inj (h.taken_lt hk).2.2 hsmall).mp heq), k, hk, rfl⟩
  · have hj' : j < o.memory.total_pages.toNat := hj
    have hiff : j ∈ (pool.give i).free ↔ j = i ∨ j ∈ pool.free := by
      rw [Pool.free_give hi, Finset.mem_insert]
    change (o.memory.give_page i).count j = _
    rw [Memory.count_give_page (by omega) (by omega), h.count j hj', hone]
    by_cases hji : j = i
    · rw [if_pos hji, if_pos (hiff.mpr (.inl hji))]
    · simp [hiff, hji]

/-- Where everything is out, `get_page` panics; else it finds a page. -/
theorem Serves.get_page_cases (h : Serves o pool) :
    pool.free = ∅ ∧ onix.get_page.run o.memory = .error (.panic .out_of_memory) o.memory ∨
      pool.free ≠ ∅ ∧ ∃ page s', onix.get_page.run o.memory = .ok page s' := by
  have hstart := h.layout.start_page_le
  rcases get_page_run o.memory with ⟨hnone, hrun⟩ | ⟨i, hfirst, hrun⟩
  · refine .inl ⟨?_, hrun⟩
    rw [← h.unused_eq, Finset.eq_empty_iff_forall_notMem]
    intro j hj
    obtain ⟨hlt, hzero⟩ := Memory.mem_unused.mp hj
    rw [h.unused_eq] at hj
    have hrange := (Pool.mem_free.mp hj).1
    rw [h.lo] at hrange
    exact hnone j (by omega) hlt hzero
  · obtain ⟨-, hmem⟩ := hfirst.take_page h.layout
    have hpos : o.memory.free_pages > 0 := by
      have hcard := Finset.card_pos.mpr ⟨i, hmem⟩
      have hfree := h.free_pages
      exact UInt32.lt_iff_toNat_lt.mpr (by change 0 < _; omega)
    refine .inr ⟨?_, _, _, by rw [hrun, if_pos hpos]⟩
    rw [← h.unused_eq]
    exact Finset.ne_empty_of_mem hmem

/-- The kernel map is apart from the array of counts. -/
theorem Serves.of_writes {s' : Memory} (h : Serves o pool)
    (hwrites : o.memory.Writes o.memory.kernel_map.buffer s') : Serves ⟨s', o.out⟩ pool := by
  have htotal := h.layout.total_le
  have hcount : ∀ i < o.memory.total_pages.toNat, s'.count i = o.memory.count i := by
    intro i hi
    have hnat := map_cell_toNat h.layout.map (show i < 2 ^ 31 by omega)
    unfold Memory.count
    rw [hwrites.memory_map]
    refine hwrites.byte (span_apart (by omega) ?_ (.inr ?_))
    · rw [h.layout.kernel_map]
      decide
    · rw [h.layout.kernel_map, hnat]
      change 0x4000 + 224 ≤ _
      omega
  have hunused : s'.unused = o.memory.unused := by
    have htotal' : s'.total_pages = o.memory.total_pages := by rw [hwrites.vars]
    ext i
    rw [Memory.mem_unused, Memory.mem_unused, htotal']
    exact and_congr_right fun hi => by rw [hcount i hi]
  rw [hwrites.vars] at hcount hunused ⊢
  exact
    { h with
      layout := { h.layout with }
      count := fun i hi => (hcount i hi).trans (h.count i hi)
      free_pages := by
        rw [hunused]
        exact h.free_pages }

theorem Serves.small (h : Serves o pool) : o.memory.kernel_map.Small := by
  rw [h.layout.kernel_map]
  change 256 + 8 * 224 < 2 ^ 31
  decide

/-- Every call takes the pool through a step, or leaves it as it is. -/
theorem OwnStep.serves (h : Serves o pool) (hstep : OwnStep o o') :
    ∃ pool', (pool.Step pool' ∨ pool' = pool) ∧ Serves o' pool' := by
  cases hstep with
  | get_page hrun =>
    obtain ⟨pool', hpool, hserves⟩ := h.get_page hrun
    exact ⟨pool', .inl hpool, hserves⟩
  | get_page_fails hrun =>
    rcases h.get_page_cases with ⟨-, hrun'⟩ | ⟨-, page, s', hrun'⟩
    · rw [hrun'] at hrun
      cases hrun
      exact ⟨pool, .inr rfl, h⟩
    · rw [hrun'] at hrun
      cases hrun
  | put_page hout =>
    obtain ⟨s', pool', hrun, hpool, hserves⟩ := h.put_page hout
    rw [final_of_ok hrun]
    exact ⟨pool', .inl hpool, hserves⟩
  | alloc_kpage count => exact ⟨pool, .inr rfl, h.of_writes (alloc_kpage_writes h.small count)⟩
  | free_kpage vaddr count => exact ⟨pool, .inr rfl, h.of_writes (free_kpage_writes h.small vaddr count)⟩

theorem Fresh.serves {s : Memory} (h : Fresh s) (hfits : s.total_pages.toNat ≤ 2 ^ 20) :
    ∃ pool, Serves ⟨s, []⟩ pool := by
  refine ⟨⟨2048, s.total_pages.toNat, ∅, Finset.empty_subset _⟩, h.layout, hfits, rfl, rfl, List.nodup_nil,
    fun p => ?_, fun i hi => ?_, h.overcounted.free_pages⟩
  · simp
  · by_cases hlow : i < 2048
    · rw [if_neg fun hmem => hlow.not_ge (Pool.mem_free.mp hmem).1.1]
      exact h.marked i hlow
    · rw [if_pos (Pool.mem_free.mpr ⟨⟨Nat.le_of_not_lt hlow, hi⟩, Finset.notMem_empty i⟩)]
      exact h.unmarked i (Nat.le_of_not_lt hlow) hi

end Run

section Ownership

variable {o : Owning} {pool : Pool}

/-- What holds of the pages that are out and of the next calls of the allocator. -/
structure Owning.Sound (o : Owning) : Prop where
  aligned : ∀ p ∈ o.out, p &&& 0xfff = 0
  distinct : o.out.Nodup
  range : ∀ p ∈ o.out, KERNEL_MEMORY_SIZE ≤ p ∧ p.toNat < o.memory.total_pages.toNat * PAGE_SIZE.toNat
  apart : o.out.Pairwise fun p q => Disjoint (span p PAGE_SIZE.toNat) (span q PAGE_SIZE.toNat)
  map_apart : ∀ p ∈ o.out, Disjoint (span p PAGE_SIZE.toNat)
    (span o.memory.memory_map (o.memory.memory_map_pages.toNat * PAGE_SIZE.toNat))
  tables_apart : ∀ p ∈ o.out, ∀ table ∈ KERNEL_PAGE_DIR :: KERNEL_PAGE_TABLE,
    Disjoint (span p PAGE_SIZE.toNat) (span table PAGE_SIZE.toNat)
  kpages_apart : ∀ p ∈ o.out, ∀ count vaddr s', (alloc_kpage count).run o.memory = .ok vaddr s' →
    Disjoint (span p PAGE_SIZE.toNat) (span vaddr (count.toNat * PAGE_SIZE.toNat))
  panics_iff : (∃ s', get_page.run o.memory = .error (.panic .out_of_memory) s') ↔
    ∀ p : u32, p &&& 0xfff = 0 → KERNEL_MEMORY_SIZE ≤ p →
      p.toNat < o.memory.total_pages.toNat * PAGE_SIZE.toNat → p ∈ o.out
  get_page : ∀ e s', get_page.run o.memory = .error e s' → e = .panic .out_of_memory
  put_page : ∀ p ∈ o.out, ∃ s', (put_page p).run o.memory = .ok () s'

/-- The address of a page from 8M on. -/
theorem Serves.mem_out_iff (h : Serves o pool) {p : u32} : p ∈ o.out ↔
    p.toNat % 4096 = 0 ∧ p.toNat / 4096 ∈ pool.taken := by
  rw [h.mem_out]
  constructor
  · rintro ⟨i, hi, rfl⟩
    rw [PAGE_toNat (h.taken_lt hi).2.2, Nat.mul_mod_right, Nat.mul_div_cancel_left i (by decide)]
    exact ⟨rfl, hi⟩
  · rintro ⟨halign, hi⟩
    refine ⟨_, hi, UInt32.toNat_inj.mp ?_⟩
    rw [PAGE_toNat (h.taken_lt hi).2.2]
    omega

/-- The pages that are out lie in the memory from 8M on. -/
theorem Serves.out_range (h : Serves o pool) {p : u32} (hp : p ∈ o.out) : p.toNat % 4096 = 0 ∧
    0x800000 ≤ p.toNat ∧ p.toNat + 4096 ≤ o.memory.total_pages.toNat * 4096 := by
  obtain ⟨halign, hi⟩ := h.mem_out_iff.mp hp
  have hrange := h.taken_lt hi
  exact ⟨halign, by omega, by omega⟩

/-- Every page from 8M on is out if and only if the pool is empty. -/
theorem Serves.all_out_iff (h : Serves o pool) : (∀ p : u32, p &&& 0xfff = 0 → KERNEL_MEMORY_SIZE ≤ p →
    p.toNat < o.memory.total_pages.toNat * PAGE_SIZE.toNat → p ∈ o.out) ↔ pool.free = ∅ := by
  have hsize : PAGE_SIZE.toNat = 4096 := rfl
  have hkernel : KERNEL_MEMORY_SIZE.toNat = 0x800000 := by decide
  have htotal := h.fits
  rw [Finset.eq_empty_iff_forall_notMem, hsize]
  constructor
  · intro hevery i hi
    obtain ⟨hrange, hfree⟩ := Pool.mem_free.mp hi
    rw [h.lo, h.hi] at hrange
    have hnat := PAGE_toNat (show i < 2 ^ 20 by omega)
    have hmem := hevery (PAGE (UInt32.ofNat i)) ((Words.and_fff _).mpr (by omega))
      (UInt32.le_iff_toNat_le.mpr (by omega)) (by omega)
    rw [h.mem_out_iff, hnat, Nat.mul_div_cancel_left i (by decide)] at hmem
    exact hfree hmem.2
  · intro hnone p halign hle hlt
    rw [Words.and_fff] at halign
    rw [UInt32.le_iff_toNat_le, hkernel] at hle
    refine h.mem_out_iff.mpr ⟨halign, by_contra fun hfree => hnone (p.toNat / 4096) ?_⟩
    refine Pool.mem_free.mpr ⟨?_, hfree⟩
    rw [h.lo, h.hi]
    omega

/-- The address of a page of the kernel map -/
theorem Serves.kpage_toNat (h : Serves o pool) {start : Nat} (hstart : start ≤ 1792) :
    (PAGE (o.memory.kernel_map.offset + UInt32.ofNat start)).toNat = 4096 * (256 + start) := by
  rw [h.layout.kernel_map]
  change (PAGE (UInt32.ofNat 256 + UInt32.ofNat start)).toNat = _
  rw [← UInt32.ofNat_add, PAGE_toNat (by omega)]

theorem Serves.sound (h : Serves o pool) : o.Sound := by
  have hlayout := h.layout
  have htotal := h.fits
  have hpages := hlayout.pages
  have hout : ∀ p ∈ o.out, p.toNat % 4096 = 0 ∧ 0x800000 ≤ p.toNat ∧
      p.toNat + 4096 ≤ o.memory.total_pages.toNat * 4096 := fun p hp => h.out_range hp
  have hsize : PAGE_SIZE.toNat = 4096 := rfl
  have hkernel : KERNEL_MEMORY_SIZE.toNat = 0x800000 := by decide
  refine ⟨fun p hp => (Words.and_fff p).mpr (hout p hp).1, h.nodup, fun p hp => ?_, ?_, fun p hp => ?_,
    fun p hp table htable => ?_, fun p hp count vaddr s' hrun => ?_, ?_, fun e s' hrun => ?_, fun p hp => ?_⟩
  · have hp' := hout p hp
    rw [hsize]
    exact ⟨UInt32.le_iff_toNat_le.mpr (by omega), by omega⟩
  · refine h.nodup.imp_of_mem fun {p q} hp hq hne => ?_
    have hp' := hout p hp
    have hq' := hout q hq
    have hne' := mt UInt32.toNat_inj.mp hne
    exact span_apart (by omega) (by omega) (by omega)
  · have hp' := hout p hp
    have hmap : o.memory.memory_map.toNat = 0x100000 := by rw [hlayout.map]; rfl
    rw [hsize]
    exact span_apart (by omega) (by omega) (.inr (by omega))
  · have hp' := hout p hp
    have hlow : table.toNat ≤ 0x3000 := by
      unfold KERNEL_PAGE_TABLE at htable
      simp only [List.mem_cons, List.not_mem_nil, or_false] at htable
      obtain rfl | rfl | rfl := htable <;> decide
    exact span_apart (by omega) (by omega) (by omega)
  · have hp' := hout p hp
    obtain ⟨hcount, start, hfirst, rfl, -⟩ := alloc_kpage_ok h.small hrun
    have hend := hfirst.fits.1
    rw [hlayout.kernel_map] at hend
    change start + count.toNat ≤ 1792 at hend
    have hnat := h.kpage_toNat (show start ≤ 1792 by omega)
    rw [hsize]
    exact span_apart (by omega) (by omega) (.inr (by omega))
  · rw [h.all_out_iff]
    rcases h.get_page_cases with ⟨hempty, hrun⟩ | ⟨hne, page, s', hrun⟩
    · exact iff_of_true ⟨_, hrun⟩ hempty
    · refine iff_of_false ?_ hne
      rintro ⟨t, hrun'⟩
      rw [hrun] at hrun'
      cases hrun'
  · rcases h.get_page_cases with ⟨-, hrun'⟩ | ⟨-, page, t, hrun'⟩
    · rw [hrun'] at hrun
      cases hrun
      rfl
    · rw [hrun'] at hrun
      cases hrun
  · obtain ⟨s', pool', hrun, -⟩ := h.put_page hp
    exact ⟨s', hrun⟩

theorem Reach.serves {s₁ : Memory} (h : Fresh s₁) (hfits : s₁.total_pages.toNat ≤ 2 ^ 20)
    (hreach : Runs.Reach (· = ⟨s₁, []⟩) OwnStep o) : ∃ pool, Serves o pool := by
  refine Runs.Reach.related (R := Serves) ?_ ?_ hreach
  · rintro o rfl
    exact h.serves hfits
  · intro o o' pool hserves hstep
    obtain ⟨pool', -, hserves'⟩ := hstep.serves hserves
    exact ⟨pool', hserves'⟩

/-- Physical pages have one owner: in every run of the two allocators after boot, the pages that are out are
different whole pages from 8M on, apart from everything the kernel keeps, and `get_page` only fails when
they are all out. -/
theorem page_ownership {ram : u32 → u8} {magic addr : u32} {s₀ : Memory}
    (haccept : (memory_init magic addr).run (Memory.cold ram) = .ok () s₀)
    (hsize : MEMORY_BASE.toNat + s₀.memory_size.toNat ≤ 2 ^ 32) :
    ∃ s₁, kernel_init.run s₀ = .ok () s₁ ∧ ∀ o, Runs.Reach (· = ⟨s₁, []⟩) OwnStep o → o.Sound := by
  obtain ⟨s₁, hrun, hfresh, hmemory⟩ := kernel_init_run (memory_init_ok haccept)
  refine ⟨s₁, hrun, fun o hreach => ?_⟩
  have htotal := hfresh.layout.size
  rw [hmemory] at htotal
  obtain ⟨pool, hserves⟩ := Reach.serves hfresh (by omega) hreach
  exact hserves.sound

theorem page_ownership_ards : ∃ s₀, (memory_init ONIX_MAGIC 0x8000).run (Memory.cold ards_ram) = .ok () s₀ ∧
    ∃ s₁, kernel_init.run s₀ = .ok () s₁ ∧ ∀ o, Runs.Reach (· = ⟨s₁, []⟩) OwnStep o → o.Sound := by
  obtain ⟨s₀, haccept, hsize⟩ := memory_init_ards
  exact ⟨s₀, haccept, page_ownership haccept (by rw [hsize]; decide)⟩

end Ownership

end onix
