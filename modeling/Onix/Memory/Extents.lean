import Onix.Library.Arena
import Onix.Memory.Ownership

namespace onix

open Outcome FirstFit

/-- Memory, and the extents of kernel pages that are live: the address and the number of pages. -/
structure Leasing where
  memory : Memory
  live : List (u32 × u32)

/-- A call of `alloc_kpage` of at least one page, or of `free_kpage` of a live extent. -/
inductive LeaseStep (o : Leasing) : Leasing → Prop where
  | alloc_kpage {count vaddr : u32} {s' : Memory} (hcount : count ≥ 1)
      (h : (alloc_kpage count).run o.memory = .ok vaddr s') : LeaseStep o ⟨s', (vaddr, count) :: o.live⟩
  | alloc_kpage_fails {count : u32} {e : Failure} {s' : Memory} (hcount : count ≥ 1)
      (h : (alloc_kpage count).run o.memory = .error e s') : LeaseStep o ⟨s', o.live⟩
  | free_kpage {vaddr count : u32} (hlive : (vaddr, count) ∈ o.live) :
      LeaseStep o ⟨final (free_kpage vaddr count) o.memory, o.live.erase (vaddr, count)⟩

/-- The bits of an extent in the kernel map. -/
def kpage_cells (e : u32 × u32) : Finset Nat :=
  Finset.Ico (e.1.toNat / 4096 - 256) (e.1.toNat / 4096 - 256 + e.2.toNat)

/-- The bits of the kernel map that are set are the cells of the arena that are used; boot left `s₁`. -/
structure Leased (s₁ : Memory) (o : Leasing) (arena : Arena kpage_cells) : Prop where
  vars : o.memory = { s₁ with ram := o.memory.ram }
  layout : o.memory.Layout
  reserved : arena.reserved = o.memory.memory_map_pages.toNat
  size : arena.size = 1792
  live : o.live = arena.live
  aligned : ∀ e ∈ o.live, e.1.toNat % 4096 = 0 ∧ 256 ≤ e.1.toNat / 4096
  bits : ∀ k < 1792, o.memory.bit o.memory.kernel_map k = true ↔ arena.Used k

section Run

variable {s₁ : Memory} {o o' : Leasing} {arena : Arena kpage_cells} {count : u32}

theorem Memory.Layout.small {s : Memory} (h : s.Layout) : s.kernel_map.Small := by
  rw [h.kernel_map]
  change 256 + 8 * 224 < 2 ^ 31
  decide

theorem Memory.Layout.map_size {s : Memory} (h : s.Layout) : s.kernel_map.size = 1792 := by
  rw [h.kernel_map]
  rfl

theorem Memory.Layout.of_writes {D : Set u32} {s s' : Memory} (h : s.Layout) (hwrites : s.Writes D s') : s'.Layout := by
  rw [hwrites.vars]
  exact { h with }

/-- The address of the extent that starts at a bit. -/
theorem PAGE_bit {s : Memory} (h : s.Layout) {start : Nat} (hstart : start < 1792) :
    (PAGE (s.kernel_map.offset + UInt32.ofNat start)).toNat = 4096 * (256 + start) := by
  rw [h.kernel_map]
  change (PAGE (UInt32.ofNat 256 + UInt32.ofNat start)).toNat = _
  rw [← UInt32.ofNat_add, PAGE_toNat (by omega)]

theorem kpage_cells_PAGE {s : Memory} (h : s.Layout) (count : u32) {start : Nat} (hstart : start < 1792) :
    kpage_cells (PAGE (s.kernel_map.offset + UInt32.ofNat start), count) = Finset.Ico start (start + count.toNat) := by
  unfold kpage_cells
  rw [PAGE_bit h hstart, Nat.mul_div_cancel_left _ (by decide), Nat.add_sub_cancel_left]

theorem Leased.alloc (h : Leased s₁ o arena) {vaddr : u32} {s' : Memory}
    (hrun : (alloc_kpage count).run o.memory = .ok vaddr s') :
    ∃ arena', Leased s₁ ⟨s', (vaddr, count) :: o.live⟩ arena' := by
  obtain ⟨hcount, start, hfirst, rfl, hwrites, hbits⟩ := alloc_kpage_ok h.layout.small hrun
  obtain ⟨hend, hfree⟩ := hfirst.fits
  rw [h.layout.map_size] at hend hbits
  have hstart : start < 1792 := by omega
  have hcells := kpage_cells_PAGE h.layout count hstart
  have hmem : ∀ k ∈ kpage_cells (PAGE (o.memory.kernel_map.offset + UInt32.ofNat start), count),
      start ≤ k ∧ k < start + count.toNat := fun k hk => by rwa [hcells, Finset.mem_Ico] at hk
  have hkernel : s'.kernel_map = o.memory.kernel_map := by rw [hwrites.vars]
  have hne : (kpage_cells (PAGE (o.memory.kernel_map.offset + UInt32.ofNat start), count)).Nonempty := by
    rw [hcells]
    exact Finset.nonempty_Ico.mpr (by omega)
  have hsize : ∀ k ∈ kpage_cells (PAGE (o.memory.kernel_map.offset + UInt32.ofNat start), count), k < arena.size := by
    intro k hk
    have hrange := hmem k hk
    rw [h.size]
    omega
  have hunused : ∀ k ∈ kpage_cells (PAGE (o.memory.kernel_map.offset + UInt32.ofNat start), count), ¬ arena.Used k := by
    intro k hk
    have hrange := hmem k hk
    rw [← h.bits k (by omega), hfree k hrange.1 hrange.2]
    exact Bool.false_ne_true
  refine ⟨arena.lease _ hne hsize hunused, hwrites.vars.trans (by rw [h.vars]), h.layout.of_writes hwrites, ?_, h.size,
    congrArg _ h.live, ?_, fun k hk => ?_⟩
  · rw [hwrites.vars]
    exact h.reserved
  · refine List.forall_mem_cons.mpr ⟨?_, h.aligned⟩
    rw [PAGE_bit h.layout hstart]
    omega
  · change s'.bit s'.kernel_map k = true ↔ _
    rw [hkernel, hbits k hk, Arena.used_lease, hcells, Finset.mem_Ico, ← h.bits k hk]
    by_cases hin : start ≤ k ∧ k < start + count.toNat
    · simp [hin]
    · simp [hin]

/-- A live extent is freed without a failed assertion. -/
theorem Leased.free (h : Leased s₁ o arena) {vaddr : u32} (hlive : (vaddr, count) ∈ o.live) :
    ∃ s' arena', (free_kpage vaddr count).run o.memory = .ok () s' ∧
      Leased s₁ ⟨s', o.live.erase (vaddr, count)⟩ arena' := by
  have hmem : (vaddr, count) ∈ arena.live := by rwa [← h.live]
  obtain ⟨halign, hlow⟩ : vaddr.toNat % 4096 = 0 ∧ 256 ≤ vaddr.toNat / 4096 := h.aligned _ hlive
  have hinside := arena.inside _ hmem
  obtain ⟨k₀, hk₀⟩ := arena.nonempty _ hmem
  have hcells : ∀ k, k ∈ kpage_cells (vaddr, count) ↔
      vaddr.toNat / 4096 - 256 ≤ k ∧ k < vaddr.toNat / 4096 - 256 + count.toNat := fun k => Finset.mem_Ico
  have hcount : 0 < count.toNat := by
    rw [hcells] at hk₀
    omega
  have hend : vaddr.toNat / 4096 - 256 + count.toNat ≤ o.memory.kernel_map.size := by
    have hlast := Finset.mem_Ico.mp (hinside ((hcells (vaddr.toNat / 4096 - 256 + count.toNat - 1)).mpr (by omega)))
    rw [h.size] at hlast
    rw [h.layout.map_size]
    omega
  have hindex : IDX vaddr = o.memory.kernel_map.offset + UInt32.ofNat (vaddr.toNat / 4096 - 256) := by
    rw [h.layout.kernel_map]
    change _ = UInt32.ofNat 256 + _
    rw [← UInt32.ofNat_add, ← UInt32.toNat_inj, IDX_toNat, toNat_ofNat]
    · change vaddr.toNat / 4096 = 256 + (vaddr.toNat / 4096 - 256)
      omega
    · have hlt := vaddr.toNat_lt
      change 256 + (vaddr.toNat / 4096 - 256) < _
      omega
  obtain ⟨s', hrun, hwrites, hbits⟩ := reset_page_run (s := o.memory) h.layout.small ((Words.and_fff vaddr).mpr halign) hindex
    hcount hend fun k hk hk' => (h.bits k (by rw [h.layout.map_size] at hend; omega)).mpr
      (.inr ⟨_, hmem, (hcells k).mpr ⟨hk, hk'⟩⟩)
  have hkernel : s'.kernel_map = o.memory.kernel_map := by rw [hwrites.vars]
  refine ⟨s', arena.release (vaddr, count), ?_, hwrites.vars.trans (by rw [h.vars]), h.layout.of_writes hwrites, ?_,
    h.size, ?_, ?_, fun k hk => ?_⟩
  · have hpos : count > 0 := UInt32.lt_iff_toNat_lt.mpr hcount
    rw [free_kpage_eq, if_pos ((Words.and_fff vaddr).mpr halign), if_pos hpos]
    exact hrun
  · rw [hwrites.vars]
    exact h.reserved
  · exact congrArg (fun l => l.erase (vaddr, count)) h.live
  · exact fun e he => h.aligned e (List.mem_of_mem_erase he)
  · change s'.bit s'.kernel_map k = true ↔ _
    rw [hkernel, hbits k (by rwa [h.layout.map_size]), Arena.used_release hmem, hcells, ← h.bits k hk]
    by_cases hin : vaddr.toNat / 4096 - 256 ≤ k ∧ k < vaddr.toNat / 4096 - 256 + count.toNat
    · simp [hin]
    · rw [if_neg hin]
      exact ⟨fun hbit => ⟨hin, hbit⟩, And.right⟩

theorem LeaseStep.leased (h : Leased s₁ o arena) (hstep : LeaseStep o o') : ∃ arena', Leased s₁ o' arena' := by
  cases hstep with
  | alloc_kpage hcount hrun => exact h.alloc hrun
  | @alloc_kpage_fails count e s' hcount hrun =>
    rcases alloc_kpage_run h.layout.small (Nat.lt_of_lt_of_le Nat.zero_lt_one (UInt32.le_iff_toNat_le.mp hcount)) with
      ⟨-, hrun'⟩ | ⟨start, t, -, hrun', -⟩
    · rw [hrun'] at hrun
      cases hrun
      exact ⟨arena, h⟩
    · rw [hrun'] at hrun
      cases hrun
  | free_kpage hlive =>
    obtain ⟨s', arena', hrun, hleased⟩ := h.free hlive
    rw [final_of_ok hrun]
    exact ⟨arena', hleased⟩

end Run

section Sound

variable {o : Leasing} {arena : Arena kpage_cells} {s₁ : Memory}

/-- The pages of an extent. -/
def extent (e : u32 × u32) : Set u32 := span e.1 (e.2.toNat * PAGE_SIZE.toNat)

/-- What holds of the live extents and of the next calls, when boot has left the memory `s₁`. -/
structure Leasing.Sound (s₁ : Memory) (o : Leasing) : Prop where
  bits : ∀ k < o.memory.kernel_map.size, o.memory.bit o.memory.kernel_map k = true ↔
    k < o.memory.memory_map_pages.toNat ∨
      ∃ e ∈ o.live, PAGE (o.memory.kernel_map.offset + UInt32.ofNat k) ∈ extent e
  apart : o.live.Pairwise fun e f => Disjoint (extent e) (extent f)
  range : ∀ e ∈ o.live, e.1 &&& 0xfff = 0 ∧ PAGE o.memory.start_page ≤ e.1 ∧
    e.1.toNat + e.2.toNat * PAGE_SIZE.toNat ≤ KERNEL_MEMORY_SIZE.toNat
  panics_iff : ∀ count ≥ 1, (∃ s', (alloc_kpage count).run o.memory = .error (.panic .scan_page_fail) s') ↔
    ¬ ∃ start, Fits (o.memory.bit o.memory.kernel_map) o.memory.kernel_map.size count.toNat start
  alloc_fails : ∀ count ≥ 1, ∀ e s', (alloc_kpage count).run o.memory = .error e s' → e = .panic .scan_page_fail
  frees : ∀ e ∈ o.live, ∃ s', (free_kpage e.1 e.2).run o.memory = .ok () s'
  restores : ∀ order : List (u32 × u32), order.Perm o.live →
    ∃ s', (order.forM fun e => free_kpage e.1 e.2).run o.memory = .ok () s' ∧
      ∀ a ∈ s₁.kernel_map.buffer, s'.ram a = s₁.ram a

/-- The boot state has no extents. -/
structure Unleased (s : Memory) : Prop where
  layout : s.Layout
  bits : ∀ k < s.kernel_map.size, s.bit s.kernel_map k = decide (k < s.memory_map_pages.toNat)

theorem Unleased.leased (h : Unleased s₁) : Leased s₁ ⟨s₁, []⟩
    { reserved := s₁.memory_map_pages.toNat, size := 1792, live := [], nonempty := by simp, inside := by simp,
      apart := .nil } where
  vars := rfl
  layout := h.layout
  reserved := rfl
  size := rfl
  live := rfl
  aligned := by simp
  bits := by
    intro k hk
    have hbit := h.bits k (by rwa [h.layout.map_size])
    change s₁.bit s₁.kernel_map k = true ↔ _
    rw [hbit, decide_eq_true_eq]
    simp [Arena.Used]

/-- Freeing all live extents, in any order, leaves the bitmap of boot. -/
theorem Leased.restores (hboot : Unleased s₁) (h : Leased s₁ o arena) {order : List (u32 × u32)}
    (hperm : order.Perm o.live) :
    ∃ s', (order.forM fun e => free_kpage e.1 e.2).run o.memory = .ok () s' ∧
      ∀ a ∈ s₁.kernel_map.buffer, s'.ram a = s₁.ram a := by
  induction order generalizing o arena with
  | nil =>
    have hlive : arena.live = [] := by rw [← h.live, ← List.nil_perm.mp hperm]
    have hkernel : o.memory.kernel_map = s₁.kernel_map := by rw [h.vars]
    have hpages : o.memory.memory_map_pages = s₁.memory_map_pages := by rw [h.vars]
    refine ⟨o.memory, rfl, fun a ha => ram_eq_of_bits (fun k hk => ?_) ha⟩
    have hbits := h.bits k (by rwa [← h.layout.map_size, hkernel])
    rw [Bool.eq_iff_iff, hboot.bits k hk, decide_eq_true_eq, ← hkernel, hbits, ← hpages, ← h.reserved]
    simp [Arena.Used, hlive]
  | cons e order ih =>
    have hlive : e ∈ o.live := hperm.mem_iff.mp List.mem_cons_self
    obtain ⟨s', arena', hrun, hleased⟩ := h.free (show (e.1, e.2) ∈ o.live from hlive)
    have hrest := hperm.erase e
    rw [List.erase_cons_head] at hrest
    obtain ⟨t, hruns, hram⟩ := ih hleased hrest
    exact ⟨t, (bind_of_ok hrun _).trans hruns, hram⟩

/-- A live extent lies behind the reserved pages and below 8M. -/
theorem Leased.range (h : Leased s₁ o arena) {e : u32 × u32} (he : e ∈ o.live) :
    e.1.toNat % 4096 = 0 ∧ 256 + arena.reserved ≤ e.1.toNat / 4096 ∧ e.1.toNat / 4096 + e.2.toNat ≤ 2048 := by
  have hmem : e ∈ arena.live := by rwa [← h.live]
  obtain ⟨halign, hlow⟩ := h.aligned e he
  have hcell : ∀ k, k ∈ kpage_cells e ↔ e.1.toNat / 4096 - 256 ≤ k ∧ k < e.1.toNat / 4096 - 256 + e.2.toNat := fun k =>
    Finset.mem_Ico
  obtain ⟨k, hk⟩ := arena.nonempty e hmem
  have hk' := (hcell k).mp hk
  have hfirst := Finset.mem_Ico.mp (arena.inside e hmem ((hcell (e.1.toNat / 4096 - 256)).mpr (by omega)))
  have hlast := Finset.mem_Ico.mp
    (arena.inside e hmem ((hcell (e.1.toNat / 4096 - 256 + e.2.toNat - 1)).mpr (by omega)))
  rw [h.size] at hlast
  exact ⟨halign, by omega, by omega⟩

theorem mem_extent_iff {e : u32 × u32} (hend : e.1.toNat / 4096 + e.2.toNat ≤ 2048) (halign : e.1.toNat % 4096 = 0)
    {a : u32} : a ∈ extent e ↔ e.1.toNat / 4096 ≤ a.toNat / 4096 ∧ a.toNat / 4096 < e.1.toNat / 4096 + e.2.toNat := by
  have hsize : PAGE_SIZE.toNat = 4096 := rfl
  unfold extent
  rw [hsize, mem_span_iff (by omega)]
  omega

theorem Leased.sound (hboot : Unleased s₁) (h : Leased s₁ o arena) : o.Sound s₁ := by
  have hsize := h.layout.map_size
  have hpos : ∀ count : u32, count ≥ 1 → 0 < count.toNat := fun count hcount => UInt32.le_iff_toNat_le.mp hcount
  refine ⟨fun k hk => ?_, ?_, fun e he => ?_, fun count hcount => ?_, fun count hcount e s' hrun => ?_,
    fun e he => ?_, fun order hperm => h.restores hboot hperm⟩
  · rw [hsize] at hk
    rw [h.bits k hk, Arena.Used, h.reserved, h.live]
    refine or_congr_right (exists_congr fun e => and_congr_right fun he => ?_)
    rw [← h.live] at he
    obtain ⟨halign, hlow, hend⟩ := h.range he
    rw [mem_extent_iff hend halign, PAGE_bit h.layout hk, Nat.mul_div_cancel_left _ (by decide), kpage_cells,
      Finset.mem_Ico]
    omega
  · rw [h.live]
    refine arena.apart.imp_of_mem fun {e f} he hf hdisjoint => ?_
    rw [← h.live] at he hf
    obtain ⟨halign, hlow, hend⟩ := h.range he
    obtain ⟨halign', hlow', hend'⟩ := h.range hf
    refine Set.disjoint_left.mpr fun a ha ha' => ?_
    rw [mem_extent_iff hend halign] at ha
    rw [mem_extent_iff hend' halign'] at ha'
    have hcell : a.toNat / 4096 - 256 ∈ kpage_cells e := Finset.mem_Ico.mpr (by omega)
    have hcell' : a.toNat / 4096 - 256 ∈ kpage_cells f := Finset.mem_Ico.mpr (by omega)
    exact Finset.disjoint_left.mp hdisjoint hcell hcell'
  · obtain ⟨halign, hlow, hend⟩ := h.range he
    have hstart := h.layout.start
    have hlt := h.layout.start_page_le
    have hpage : (PAGE o.memory.start_page).toNat = 4096 * o.memory.start_page.toNat := by
      have hnat := PAGE_toNat (show o.memory.start_page.toNat < 2 ^ 20 by omega)
      rwa [UInt32.ofNat_toNat] at hnat
    rw [h.reserved] at hlow
    refine ⟨(Words.and_fff _).mpr halign, UInt32.le_iff_toNat_le.mpr (by omega), ?_⟩
    change _ + _ * 4096 ≤ 0x800000
    omega
  · rcases alloc_kpage_run h.layout.small (hpos count hcount) with ⟨hnone, hrun⟩ | ⟨start, s', hfirst, hrun, -⟩
    · exact iff_of_true ⟨_, hrun⟩ fun ⟨start, hfits⟩ => hnone start hfits
    · refine iff_of_false ?_ fun hnone => hnone ⟨start, hfirst.fits⟩
      rintro ⟨t, hrun'⟩
      rw [hrun] at hrun'
      cases hrun'
  · rcases alloc_kpage_run h.layout.small (hpos count hcount) with ⟨-, hrun'⟩ | ⟨start, t, -, hrun', -⟩
    · rw [hrun'] at hrun
      cases hrun
      rfl
    · rw [hrun'] at hrun
      cases hrun
  · obtain ⟨s', arena', hrun, -⟩ := h.free (show (e.1, e.2) ∈ o.live from he)
    exact ⟨s', hrun⟩

theorem Reach.leased (hboot : Unleased s₁) (hreach : Runs.Reach (· = ⟨s₁, []⟩) LeaseStep o) :
    ∃ arena, Leased s₁ o arena := by
  refine Runs.Reach.related (R := Leased s₁) ?_ ?_ hreach
  · rintro o rfl
    exact ⟨_, hboot.leased⟩
  · intro o o' arena hleased hstep
    exact hstep.leased hleased

/-- The kernel pages are leased in disjoint extents: in every run of `alloc_kpage` and `free_kpage` behind
`memory_map_init`, also behind `mapping_init`, the bits that are set are those of the array of counts and
of the live extents. -/
theorem kpage_extents {ram : u32 → u8} {magic addr : u32} {s₀ : Memory}
    (haccept : (memory_init magic addr).run (Memory.cold ram) = .ok () s₀) :
    (∃ s₁, memory_map_init.run s₀ = .ok () s₁) ∧ (∃ s₁, kernel_init.run s₀ = .ok () s₁) ∧
      ∀ s₁, memory_map_init.run s₀ = .ok () s₁ ∨ kernel_init.run s₀ = .ok () s₁ →
        ∀ o, Runs.Reach (· = ⟨s₁, []⟩) LeaseStep o → o.Sound s₁ := by
  have haccepted := memory_init_ok haccept
  obtain ⟨s, hmap, hmade⟩ := memory_map_init_run haccepted
  obtain ⟨t, hkernel, hfresh, -⟩ := kernel_init_run haccepted
  refine ⟨⟨s, hmap⟩, ⟨t, hkernel⟩, fun s₁ hboot o hreach => ?_⟩
  have hunleased : Unleased s₁ := by
    rcases hboot with hrun | hrun
    · rw [hmap] at hrun
      cases hrun
      exact ⟨hmade.layout, hmade.bits⟩
    · rw [hkernel] at hrun
      cases hrun
      exact ⟨hfresh.layout, hfresh.bits⟩
  obtain ⟨arena, hleased⟩ := Reach.leased hunleased hreach
  exact hleased.sound hunleased

theorem kpage_extents_ards : ∃ s₀, (memory_init ONIX_MAGIC 0x8000).run (Memory.cold ards_ram) = .ok () s₀ ∧
    (∃ s₁, memory_map_init.run s₀ = .ok () s₁) ∧ (∃ s₁, kernel_init.run s₀ = .ok () s₁) ∧
      ∀ s₁, memory_map_init.run s₀ = .ok () s₁ ∨ kernel_init.run s₀ = .ok () s₁ →
        ∀ o, Runs.Reach (· = ⟨s₁, []⟩) LeaseStep o → o.Sound s₁ := by
  obtain ⟨s₀, haccept, -⟩ := memory_init_ards
  exact ⟨s₀, haccept, kpage_extents haccept⟩

end Sound

end onix
