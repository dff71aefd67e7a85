import Onix.Library.Runs
import Onix.Memory.PageCounts

namespace onix

open Outcome

/-- A call of `get_page` or `put_page` that returns. -/
inductive PageStep (s : Memory) : Memory → Prop where
  | get_page {page : u32} {s' : Memory} (h : get_page.run s = .ok page s') : PageStep s s'
  | put_page {addr : u32} {s' : Memory} (h : (put_page addr).run s = .ok () s') : PageStep s s'

/-- `free_pages` counts the unused pages, and with them the pages that `mapping_init` marked behind
those that `memory_map_init` had marked and subtracted. -/
structure Memory.Overcounted (s : Memory) : Prop where
  layout : s.Layout
  free_pages : s.free_pages.toNat = s.unused.card + (2048 - s.start_page.toNat)

section Layout

variable {s : Memory}

theorem Memory.Layout.start_page_le (h : s.Layout) : s.start_page.toNat ≤ 513 := by
  have htotal := h.total_le
  have hpages := h.pages
  have hstart := h.start
  omega

theorem Memory.Layout.set_count (h : s.Layout) (i : Nat) (value : u8) (free_pages : u32) :
    ({ s.set_count i value with free_pages } : Memory).Layout :=
  { h with }

/-- A page that is taken or given in the middle of the array is one more or less of the unused. -/
theorem Memory.FirstUnused.take_page {i : Nat} (hlayout : s.Layout) (h : s.FirstUnused i) :
    (s.take_page i).unused = s.unused.erase i ∧ i ∈ s.unused := by
  have htotal := hlayout.total_le
  have hi := h.lt_total
  refine ⟨Memory.unused_of_taken rfl fun j hj => ?_, Memory.mem_unused.mpr ⟨hi, h.unused⟩⟩
  exact Memory.count_take_page (by omega) (by omega)

theorem Memory.Puttable.give_page {addr : u32} {i : Nat} (hlayout : s.Layout) (h : s.Puttable addr i) :
    (s.give_page i).unused = if s.count i - 1 = 0 then insert i s.unused else s.unused := by
  have htotal := hlayout.total_le
  have hi := h.lt_total
  have hcount : ∀ j < s.total_pages.toNat, (s.give_page i).count j = if j = i then s.count i - 1 else s.count j :=
    fun j hj => Memory.count_give_page (by omega) (by omega)
  by_cases hlast : s.count i - 1 = 0
  · rw [if_pos hlast]
    refine Memory.unused_of_given rfl hi fun j hj => ?_
    rw [hcount j hj, hlast]
  · rw [if_neg hlast]
    ext j
    rw [Memory.mem_unused, Memory.mem_unused]
    refine and_congr_right fun hj => ?_
    rw [hcount j hj]
    by_cases hji : j = i
    · rw [if_pos hji, hji]
      exact iff_of_false hlast h.used
    · rw [if_neg hji]

end Layout

section Run

variable {s s' : Memory}

theorem Fresh.overcounted (h : Fresh s) : s.Overcounted := by
  have hlayout := h.layout
  have hlarge := hlayout.large
  have hstart := hlayout.start_page_le
  have hfree := h.free
  refine ⟨hlayout, ?_⟩
  have hunused : s.unused = Finset.Ico 2048 s.total_pages.toNat := by
    ext i
    rw [Memory.mem_unused, Finset.mem_Ico]
    refine ⟨fun ⟨hi, hcount⟩ => ⟨?_, hi⟩, fun ⟨hi, hi'⟩ => ⟨hi', h.unmarked i hi hi'⟩⟩
    by_contra hlt
    rw [h.marked i (by omega)] at hcount
    exact absurd hcount (by decide)
  rw [hunused, Nat.card_Ico]
  omega

/-- A step changes the counter and the number of unused pages alike. -/
theorem PageStep.overcounted (h : s.Overcounted) (hstep : PageStep s s') : s'.Overcounted := by
  have hlayout := h.layout
  have htotal := hlayout.total_le
  have hfree := h.free_pages
  cases hstep with
  | get_page hrun =>
    obtain ⟨i, hfirst, hpos, -, rfl⟩ := get_page_ok hrun
    obtain ⟨hunused, hmem⟩ := hfirst.take_page hlayout
    refine ⟨hlayout.set_count i 1 _, ?_⟩
    rw [hunused, Finset.card_erase_of_mem hmem]
    have hcard := Finset.card_pos.mpr ⟨i, hmem⟩
    have hpred : (s.free_pages - 1).toNat = s.free_pages.toNat - 1 :=
      UInt32.toNat_sub_of_le _ _ (UInt32.le_iff_toNat_le.mpr (by change 1 ≤ _; omega))
    change (s.free_pages - 1).toNat = _ + (2048 - s.start_page.toNat)
    omega
  | put_page hrun =>
    obtain ⟨hput, rfl⟩ := put_page_ok hrun
    have hunused := hput.give_page hlayout
    refine ⟨hlayout.set_count _ _ _, ?_⟩
    rw [hunused]
    change (if _ then s.free_pages + 1 else s.free_pages : u32).toNat = _ + (2048 - s.start_page.toNat)
    split
    · rename_i hlast
      have hout : _ ∉ s.unused := fun hmem => hput.used (Memory.mem_unused.mp hmem).2
      have hcard : s.unused.card ≤ s.total_pages.toNat := by
        have hle := Finset.card_filter_le (Finset.range s.total_pages.toNat) fun i => s.count i = 0
        rwa [Finset.card_range] at hle
      have hsucc : (s.free_pages + 1).toNat = s.free_pages.toNat + 1 := by
        rw [UInt32.toNat_add]
        exact Nat.mod_eq_of_lt (by change _ + 1 < _; omega)
      rw [Finset.card_insert_of_notMem hout]
      omega
    · exact hfree

theorem Reach.overcounted {init : Memory → Prop} (hinit : ∀ s, init s → Fresh s)
    (hreach : Runs.Reach init PageStep s) : s.Overcounted := by
  induction hreach with
  | init hs => exact (hinit _ hs).overcounted
  | step _ hstep ih => exact hstep.overcounted ih

/-- The counter of free pages is wrong after every boot and in every state of every run of `get_page` and
`put_page`: it is larger than the number of unused pages by those pages of the first 8M that are behind
the memory map. -/
theorem free_pages_overcount {ram : u32 → u8} {magic addr : u32} {s₀ : Memory}
    (haccept : (memory_init magic addr).run (Memory.cold ram) = .ok () s₀) :
    ∃ s₁, kernel_init.run s₀ = .ok () s₁ ∧ ∀ s, Runs.Reach (· = s₁) PageStep s →
      s.free_pages.toNat ≠ s.unused.card ∧
        s.free_pages.toNat = s.unused.card + (2048 - s.start_page.toNat) ∧ s.start_page.toNat ≤ 513 := by
  obtain ⟨s₁, hrun, hfresh, -⟩ := kernel_init_run (memory_init_ok haccept)
  refine ⟨s₁, hrun, fun s hreach => ?_⟩
  have hover : s.Overcounted := Reach.overcounted (fun t ht => by rwa [ht]) hreach
  have hstart := hover.layout.start_page_le
  have hfree := hover.free_pages
  exact ⟨by omega, hfree, hstart⟩

end Run

section Machine

/-- The bytes at 0x8000 of a machine with 16M: the number of regions, and one region of 15M above the first. -/
def ards_buffer : List u8 :=
  [1, 0, 0, 0, 0, 0, 0x10, 0, 0, 0, 0, 0, 0, 0, 0xf0, 0, 0, 0, 0, 0, 1, 0, 0, 0]

def ards_ram (addr : u32) : u8 := ards_buffer.getD (addr - 0x8000).toNat 0

theorem memory_init_ards : ∃ s₀, (memory_init ONIX_MAGIC 0x8000).run (Memory.cold ards_ram) = .ok () s₀ ∧
    s₀.memory_size = 0xf00000 :=
  ⟨_, rfl, rfl⟩

/-- Behind the boot of that machine, the counter is off. -/
theorem free_pages_differ : ∃ s₀ s₁, (memory_init ONIX_MAGIC 0x8000).run (Memory.cold ards_ram) = .ok () s₀ ∧
    kernel_init.run s₀ = .ok () s₁ ∧ s₁.free_pages.toNat ≠ s₁.unused.card := by
  obtain ⟨s₀, haccept, -⟩ := memory_init_ards
  obtain ⟨s₁, hrun, hfresh, -⟩ := kernel_init_run (memory_init_ok haccept)
  refine ⟨s₀, s₁, haccept, hrun, ?_⟩
  have hfree := hfresh.overcounted.free_pages
  have hstart := hfresh.layout.start_page_le
  omega

theorem free_pages_overcount_ards :
    ∃ s₀, (memory_init ONIX_MAGIC 0x8000).run (Memory.cold ards_ram) = .ok () s₀ ∧
      ∃ s₁, kernel_init.run s₀ = .ok () s₁ ∧ ∀ s, Runs.Reach (· = s₁) PageStep s →
        s.free_pages.toNat ≠ s.unused.card ∧
          s.free_pages.toNat = s.unused.card + (2048 - s.start_page.toNat) ∧ s.start_page.toNat ≤ 513 := by
  obtain ⟨s₀, haccept, -⟩ := memory_init_ards
  exact ⟨s₀, haccept, free_pages_overcount haccept⟩

end Machine

end onix
