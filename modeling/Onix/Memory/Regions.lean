import Mathlib.Data.List.MinMax
import Onix.Memory.Accounting

namespace onix

open Outcome

section Regions

/-- The double word that the bytes from `addr` on are. -/
def Memory.long (s : Memory) (addr : u32) : u64 :=
  (s.word addr).toUInt64 ||| (s.word (addr + 4)).toUInt64 <<< 32

/-- The entry at `ptr`. -/
def Memory.ards (s : Memory) (ptr : u32) : ards_t :=
  { base := s.long ptr, size := s.long (ptr + 8), type := s.word (ptr + 16) }

/-- The entries from `ptr` on. -/
def Memory.ards_list (s : Memory) : Nat → u32 → List ards_t
  | 0, _ => []
  | count + 1, ptr => s.ards ptr :: s.ards_list count (ptr + 20)

/-- The list that the boot loader has left at `addr`. -/
def regions (ram : u32 → u8) (addr : u32) : List ards_t :=
  (Memory.cold ram).ards_list ((Memory.cold ram).word addr).toNat (addr + 4)

/-- The first of the largest entries of type `ZONE_VALID`. -/
def first_largest (l : List ards_t) : Option ards_t :=
  (l.filter fun v => v.type = ZONE_VALID).argmax fun v => v.size.toNat

/-- A turn of the loop of `memory_init` on the base and the size of the region. -/
def pick (region : u32 × u32) (ards : ards_t) : u32 × u32 :=
  if ards.type = ZONE_VALID ∧ ards.size > region.2.toUInt64 then (ards.base.toUInt32, ards.size.toUInt32) else region

variable {s s' : Memory}

theorem load_ards_run (ptr : u32) (s : Memory) : (load_ards ptr).run s = .ok (s.ards ptr) s := rfl

/-- The entries are bytes of memory. -/
theorem Memory.ards_list_congr (hram : s'.ram = s.ram) (n : Nat) (ptr : u32) :
    s'.ards_list n ptr = s.ards_list n ptr := by
  induction n generalizing ptr with
  | zero => rfl
  | succ n ih =>
    unfold Memory.ards_list
    rw [ih]
    unfold Memory.ards Memory.long Memory.word
    rw [hram]

theorem memory_init_loop_eq (n : Nat) (ptr : u32) (s : Memory) :
    (memory_init_loop n ptr).run s = .ok ()
      { s with
        memory_base := ((s.ards_list n ptr).foldl pick (s.memory_base, s.memory_size)).1
        memory_size := ((s.ards_list n ptr).foldl pick (s.memory_base, s.memory_size)).2 } := by
  induction n generalizing ptr s with
  | zero => rfl
  | succ n ih =>
    unfold memory_init_loop Memory.ards_list
    rw [bind_of_ok (load_ards_run ptr s), get_bind_run, List.foldl_cons]
    unfold pick
    by_cases hpick : (s.ards ptr).type = ZONE_VALID ∧ (s.ards ptr).size > s.memory_size.toUInt64
    · let picked : Memory :=
        { s with memory_base := (s.ards ptr).base.toUInt32, memory_size := (s.ards ptr).size.toUInt32 }
      have hram : picked.ram = s.ram := rfl
      have hlist := Memory.ards_list_congr hram n (ptr + 20)
      have hrest := ih (ptr + 20) picked
      rw [hlist] at hrest
      rw [if_pos hpick, if_pos hpick, modify_bind_run]
      exact hrest
    · rw [if_neg hpick, if_neg hpick]
      exact ih (ptr + 20) s

/-- The region that `memory_init` has when it returns. -/
theorem memory_init_region {magic addr : u32} (h : (memory_init magic addr).run s = .ok () s') :
    (s'.memory_base, s'.memory_size) =
      (s.ards_list (s.word addr).toNat (addr + 4)).foldl pick (s.memory_base, s.memory_size) := by
  unfold memory_init at h
  by_cases hmagic : magic = ONIX_MAGIC
  · rw [if_pos hmagic, bind_of_ok (load32_run addr s), bind_of_ok (memory_init_loop_eq _ _ s)] at h
    simp only [get_bind_run, modify_bind_run, assert_bind_run] at h
    split at h
    · split at h
      · split at h
        · exact absurd h (by simp)
        · obtain rfl : _ = s' := (EStateM.Result.ok.inj h).2
          rfl
      · cases h
    · cases h
  · rw [if_neg hmagic] at h
    cases h

/-- The base and the size are those of an entry, in words of 32 bits. -/
structure Kept (entry : Option ards_t) (region : u32 × u32) : Prop where
  size : region.2.toNat = entry.elim 0 fun t => t.size.toNat
  base : 0 < region.2.toNat → ∃ t, entry = some t ∧ region.1 = t.base.toUInt32

theorem gt_toUInt64_iff (size : u64) (memory_size : u32) :
    size > memory_size.toUInt64 ↔ memory_size.toNat < size.toNat := by
  rw [gt_iff_lt, UInt64.lt_iff_toNat_lt, UInt32.toNat_toUInt64]

theorem toUInt32_toNat_of_lt {v : u64} (h : v.toNat < 2 ^ 32) : v.toUInt32.toNat = v.toNat := by
  rw [UInt64.toNat_toUInt32, Nat.mod_eq_of_lt h]

/-- A turn goes on with the first largest of the entries so far, where none is larger than a word. -/
theorem Kept.pick {l : List ards_t} {region : u32 × u32} {v : ards_t} (h : Kept (first_largest l) region)
    (hsize : v.type = ZONE_VALID → v.size.toNat < 2 ^ 32) : Kept (first_largest (l ++ [v])) (pick region v) := by
  have hregion := h.size
  have hgt := gt_toUInt64_iff v.size region.2
  unfold onix.pick
  by_cases hvalid : v.type = ZONE_VALID
  · have hfilter : first_largest (l ++ [v]) =
        Option.casesOn (first_largest l) (some v) fun c => if c.size.toNat < v.size.toNat then some v else some c := by
      unfold first_largest
      rw [List.filter_append, List.filter_cons_of_pos (by rw [hvalid]; rfl), List.filter_nil, List.argmax_concat]
    have hsize' := toUInt32_toNat_of_lt (hsize hvalid)
    rw [hfilter]
    cases hlargest : first_largest l with
    | none =>
      rw [hlargest] at hregion
      change region.2.toNat = 0 at hregion
      by_cases hlt : region.2.toNat < v.size.toNat
      · rw [if_pos ⟨hvalid, hgt.mpr hlt⟩]
        exact ⟨hsize', fun _ => ⟨v, rfl, rfl⟩⟩
      · rw [if_neg fun hc => hlt (hgt.mp hc.2)]
        refine ⟨?_, fun hpos => absurd hregion (Nat.ne_of_gt hpos)⟩
        change region.2.toNat = v.size.toNat
        omega
    | some c =>
      rw [hlargest] at hregion h
      change region.2.toNat = c.size.toNat at hregion
      by_cases hlt : c.size.toNat < v.size.toNat
      · rw [if_pos ⟨hvalid, hgt.mpr (by omega)⟩]
        simp only [if_pos hlt]
        exact ⟨hsize', fun _ => ⟨v, rfl, rfl⟩⟩
      · rw [if_neg fun hc => hlt (by rw [← hregion]; exact hgt.mp hc.2)]
        simp only [if_neg hlt]
        exact h
  · have hfilter : first_largest (l ++ [v]) = first_largest l := by
      unfold first_largest
      rw [List.filter_append, List.filter_cons_of_neg (by simpa using hvalid), List.filter_nil, List.append_nil]
    rw [if_neg fun hc => hvalid hc.1, hfilter]
    exact h

theorem foldl_pick_kept (l : List ards_t) (hsize : ∀ v ∈ l, v.type = ZONE_VALID → v.size.toNat < 2 ^ 32) :
    Kept (first_largest l) (l.foldl pick (0, 0)) := by
  induction l using List.reverseRecOn with
  | nil => exact ⟨rfl, fun h => absurd h (Nat.lt_irrefl 0)⟩
  | append_singleton l v ih =>
    rw [List.foldl_append]
    exact (ih fun u hu => hsize u (by simp [hu])).pick (hsize v (by simp))

/-- The region is the entry, base and size. -/
def Selected (l : List ards_t) (s : Memory) : Prop :=
  ∃ t, first_largest l = some t ∧ s.memory_base.toNat = t.base.toNat ∧ s.memory_size.toNat = t.size.toNat

theorem Selected.size_lt {l : List ards_t} (h : Selected l s) :
    ∀ v ∈ l, v.type = ZONE_VALID → v.size.toNat < 2 ^ 32 := by
  obtain ⟨t, ht, -, hsize⟩ := h
  intro v hv hvalid
  have hmem : v ∈ l.filter fun v => v.type = ZONE_VALID := List.mem_filter.mpr ⟨hv, decide_eq_true hvalid⟩
  have hle : v.size.toNat ≤ t.size.toNat := List.le_of_mem_argmax (f := fun v => v.size.toNat) hmem ht
  have hlt := s.memory_size.toNat_lt
  omega

/-- `memory_init` selects the first largest region exactly where the sizes of all valid regions, and the base
of that one, are numbers of 32 bits. -/
theorem memory_init_selects_iff {ram : u32 → u8} {magic addr : u32}
    (h : (memory_init magic addr).run (Memory.cold ram) = .ok () s) :
    Selected (regions ram addr) s ↔
      (∀ v ∈ regions ram addr, v.type = ZONE_VALID → v.size.toNat < 2 ^ 32) ∧
        ∀ t, first_largest (regions ram addr) = some t → t.base.toNat < 2 ^ 32 := by
  constructor
  · intro hselected
    refine ⟨hselected.size_lt, fun t ht => ?_⟩
    obtain ⟨u, hu, hbase, -⟩ := hselected
    obtain rfl : t = u := Option.some.inj (ht.symm.trans hu)
    rw [← hbase]
    exact s.memory_base.toNat_lt
  · rintro ⟨hsize, hbase⟩
    have hregion : (s.memory_base, s.memory_size) = (regions ram addr).foldl pick (0, 0) := memory_init_region h
    have hkept := foldl_pick_kept (regions ram addr) hsize
    rw [← hregion] at hkept
    have hpos : 0 < s.memory_size.toNat := by
      have hlarge := UInt32.le_iff_toNat_le.mp (memory_init_ok h).large
      change 0x800000 ≤ _ at hlarge
      omega
    obtain ⟨t, ht, hbase'⟩ := hkept.base hpos
    have hsize' := hkept.size
    rw [ht] at hsize'
    refine ⟨t, ht, ?_, hsize'⟩
    change s.memory_base = t.base.toUInt32 at hbase'
    rw [hbase', toUInt32_toNat_of_lt (hbase t ht)]

/-- The machine with 16M has one region, of 15M. -/
theorem memory_init_selects_ards : ∃ s, (memory_init ONIX_MAGIC 0x8000).run (Memory.cold ards_ram) = .ok () s ∧
    Selected (regions ards_ram 0x8000) s := by
  obtain ⟨s, hrun, -⟩ := memory_init_ards
  refine ⟨s, hrun, (memory_init_selects_iff hrun).mpr ⟨?_, ?_⟩⟩
  · intro v hv _
    obtain rfl := List.mem_singleton.mp hv
    decide
  · intro t ht
    obtain rfl := Option.some.inj ht
    decide

/-- The bytes at 0x8000 of a machine with one region of 4G and 16M above the first 1M. -/
def large_buffer : List u8 :=
  [1, 0, 0, 0, 0, 0, 0x10, 0, 0, 0, 0, 0, 0, 0, 0, 1, 1, 0, 0, 0, 1, 0, 0, 0]

def large_ram (addr : u32) : u8 := large_buffer.getD (addr - 0x8000).toNat 0

/-- `memory_init` passes, and takes the region to be one of 16M. -/
theorem memory_init_truncates : ∃ s, (memory_init ONIX_MAGIC 0x8000).run (Memory.cold large_ram) = .ok () s ∧
    s.memory_size = 0x1000000 ∧ ¬Selected (regions large_ram 0x8000) s := by
  refine ⟨_, rfl, rfl, fun hselected => ?_⟩
  have hlt := hselected.size_lt _ (List.mem_singleton_self _) rfl
  exact absurd hlt (by decide)

end Regions

end onix
