import Onix.Memory.Ownership

namespace onix

open Outcome

section Reserved

/-- A call of one of the page functions that returns, with what `get_page` returns. -/
inductive PageCall where
  | get_page (page : u32)
  | put_page (addr : u32)
  deriving DecidableEq

/-- The call is made in the first state and leaves the second. -/
inductive PageCall.Returns (s : Memory) : PageCall → Memory → Prop where
  | get_page {page : u32} {s' : Memory} (h : onix.get_page.run s = .ok page s') : Returns s (.get_page page) s'
  | put_page {addr : u32} {s' : Memory} (h : (onix.put_page addr).run s = .ok () s') : Returns s (.put_page addr) s'

/-- A run of calls that all return. The log has each call with the state before it, the last call first. -/
inductive PageRun (s₁ : Memory) : List (Memory × PageCall) → Memory → Prop where
  | boot : PageRun s₁ [] s₁
  | call {log : List (Memory × PageCall)} {s s' : Memory} {c : PageCall} (hrun : PageRun s₁ log s)
      (hcall : c.Returns s s') : PageRun s₁ ((s, c) :: log) s'

/-- The pages that boot marked, those of the first 8M, are in use. -/
def Memory.Reserved (s : Memory) : Prop := ∀ i < 2048, 1 ≤ (s.count i).toNat

/-- No reserved page has come out of `get_page`. -/
def PageCall.Fresh (c : PageCall) : Prop := ∀ page, c = .get_page page → 2048 ≤ (IDX page).toNat

/-- `put_page` is not called for a page of the first 8M, and `get_page` finds a page below 4G. -/
def PageCall.Harmless (s : Memory) : PageCall → Prop
  | .get_page _ => ∃ i, s.start_page.toNat ≤ i ∧ i < 2 ^ 20 ∧ i < s.total_pages.toNat ∧ s.count i = 0
  | .put_page addr => 2048 ≤ (IDX addr).toNat

variable {s s' s₁ : Memory} {c : PageCall} {log : List (Memory × PageCall)}

theorem IDX_PAGE_toNat {i : Nat} (hi : i < 2 ^ 32) : (IDX (PAGE (UInt32.ofNat i))).toNat = i % 2 ^ 20 := by
  have hpage : (PAGE (UInt32.ofNat i)).toNat = i * 4096 % 2 ^ 32 := by
    unfold PAGE
    rw [UInt32.toNat_shiftLeft, toNat_ofNat hi, Nat.shiftLeft_eq]
    rfl
  rw [IDX_toNat, hpage]
  omega

theorem count_ne_zero_iff {i : Nat} : s.count i ≠ 0 ↔ 1 ≤ (s.count i).toNat := by
  rw [Nat.one_le_iff_ne_zero, ne_eq, ne_eq, ← UInt8.toNat_inj]
  rfl

theorem count_pred {i : Nat} (hused : s.count i ≠ 0) : (s.count i - 1).toNat = (s.count i).toNat - 1 :=
  UInt8.toNat_sub_of_le _ _ (UInt8.le_iff_toNat_le.mpr (count_ne_zero_iff.mp hused))

/-- No page has more than one user. -/
structure Memory.SingleUser (s : Memory) : Prop where
  layout : s.Layout
  count_le : ∀ i < s.total_pages.toNat, (s.count i).toNat ≤ 1

theorem Fresh.single_user (h : Fresh s) : s.SingleUser := by
  refine ⟨h.layout, fun i hi => ?_⟩
  by_cases hlt : i < 2048
  · rw [h.marked i hlt]
    exact le_rfl
  · rw [h.unmarked i (by omega) hi]
    exact Nat.zero_le 1

theorem Fresh.reserved (h : Fresh s) : s.Reserved := by
  intro i hi
  rw [h.marked i hi]
  exact le_rfl

theorem Memory.SingleUser.call (h : s.SingleUser) (hcall : c.Returns s s') : s'.SingleUser := by
  have htotal := h.layout.total_le
  cases hcall with
  | get_page hrun =>
    obtain ⟨i, hfirst, -, -, rfl⟩ := get_page_ok hrun
    have hi := hfirst.lt_total
    refine ⟨h.layout.set_count i 1 _, fun j hj => ?_⟩
    change j < s.total_pages.toNat at hj
    rw [Memory.count_take_page (by omega) (by omega)]
    split
    · exact le_rfl
    · exact h.count_le j hj
  | put_page hrun =>
    obtain ⟨hput, rfl⟩ := put_page_ok hrun
    have hi := hput.lt_total
    refine ⟨h.layout.set_count _ _ _, fun j hj => ?_⟩
    change j < s.total_pages.toNat at hj
    rw [Memory.count_give_page (by omega) (by omega)]
    split
    · have hle := h.count_le _ hi
      rw [count_pred hput.used]
      omega
    · exact h.count_le j hj

theorem PageRun.single_user (h : Fresh s₁) (hrun : PageRun s₁ log s) : s.SingleUser := by
  induction hrun with
  | boot => exact h.single_user
  | call _ hcall ih => exact ih.call hcall

/-- A harmless call keeps the reserved pages, and returns none of them. -/
theorem PageCall.Returns.harmless (hsingle : s.SingleUser) (hreserved : s.Reserved) (hcall : c.Returns s s')
    (hharmless : c.Harmless s) : s'.Reserved ∧ c.Fresh := by
  have htotal := hsingle.layout.total_le
  have hlarge := hsingle.layout.large
  cases hcall with
  | get_page hrun =>
    obtain ⟨i, hfirst, -, rfl, rfl⟩ := get_page_ok hrun
    obtain ⟨j, hstart, hj, -, hfree⟩ := hharmless
    have hi := hfirst.lt_total
    have hij : i ≤ j := by
      by_contra hlt
      exact hfirst.first j hstart (by omega) hfree
    have hout : 2048 ≤ i := by
      by_contra hlt
      exact count_ne_zero_iff.mpr (hreserved i (by omega)) hfirst.unused
    constructor
    · intro k hk
      rw [Memory.count_take_page (by omega) (by omega), if_neg (by omega)]
      exact hreserved k hk
    · rintro page hpage
      obtain rfl := PageCall.get_page.inj hpage
      rw [IDX_PAGE_toNat (by omega)]
      omega
  | put_page hrun =>
    obtain ⟨hput, rfl⟩ := put_page_ok hrun
    have hi := hput.lt_total
    have hharmless : 2048 ≤ (IDX _).toNat := hharmless
    rw [IDX_toNat] at hharmless
    refine ⟨fun k hk => ?_, fun page hpage => PageCall.noConfusion hpage⟩
    rw [Memory.count_give_page (by omega) (by omega), if_neg (by omega)]
    exact hreserved k hk

/-- A call that keeps the reserved pages and returns none of them is harmless. -/
theorem PageCall.Returns.harmless_of_reserved (hsingle : s.SingleUser) (hcall : c.Returns s s')
    (hreserved : s'.Reserved) (hfresh : c.Fresh) : c.Harmless s := by
  have htotal := hsingle.layout.total_le
  have hlarge := hsingle.layout.large
  cases hcall with
  | get_page hrun =>
    obtain ⟨i, hfirst, -, rfl, rfl⟩ := get_page_ok hrun
    have hi := hfirst.lt_total
    refine ⟨i, hfirst.start_le, ?_, hi, hfirst.unused⟩
    have hpage := hfresh _ rfl
    rw [IDX_PAGE_toNat (by omega)] at hpage
    omega
  | put_page hrun =>
    obtain ⟨hput, rfl⟩ := put_page_ok hrun
    have hi := hput.lt_total
    change 2048 ≤ (IDX _).toNat
    rw [IDX_toNat]
    by_contra hlt
    have hle := hsingle.count_le _ hi
    have hkept := hreserved _ (Nat.not_le.mp hlt)
    rw [Memory.count_give_page (by omega) (by omega), if_pos rfl, count_pred hput.used] at hkept
    omega

/-- `put_page` of a page behind the memory map that boot marked returns, and `get_page` returns that page. -/
theorem Fresh.put_then_get (h : Fresh s) {i : Nat} (hstart : s.start_page.toNat ≤ i) (hi : i < 2048) :
    (put_page (PAGE (UInt32.ofNat i))).run s = .ok () (s.give_page i) ∧ (s.give_page i).count i = 0 ∧
      ∃ s', get_page.run (s.give_page i) = .ok (PAGE (UInt32.ofNat i)) s' := by
  have hlayout := h.layout
  have htotal := hlayout.total_le
  have hlarge := hlayout.large
  have hfree := h.free
  have hpages := hlayout.start
  have hmarked : s.count i = 1 := h.marked i hi
  have hput : s.Puttable (PAGE (UInt32.ofNat i)) i := by
    refine ⟨?_, IDX_PAGE (by omega), by omega, hstart, by omega, ?_⟩
    · rw [PAGE_toNat (by omega), Nat.mul_mod_right]
    · rw [hmarked]
      decide
  have hzero : s.count i - 1 = 0 := by
    rw [hmarked]
    rfl
  have hgiven : (s.give_page i).free_pages.toNat = s.free_pages.toNat + 1 := by
    unfold Memory.give_page
    rw [if_pos hzero, UInt32.toNat_add]
    exact Nat.mod_eq_of_lt (by change _ + 1 < _; omega)
  have hcount : ∀ j < s.total_pages.toNat, (s.give_page i).count j = if j = i then 0 else s.count j := by
    intro j hj
    rw [Memory.count_give_page (by omega) (by omega), hzero]
  have hunused : (s.give_page i).count i = 0 := by rw [hcount i (by omega), if_pos rfl]
  have hpos : (s.give_page i).free_pages > 0 := UInt32.lt_iff_toNat_lt.mpr (by rw [hgiven]; exact Nat.succ_pos _)
  refine ⟨?_, hunused, ?_⟩
  · rw [put_page_run hput, if_pos]
    exact ⟨hpos, UInt32.lt_iff_toNat_lt.mpr (by omega)⟩
  · obtain ⟨hnone, -⟩ | ⟨k, hfirst, hrun⟩ := get_page_run (s.give_page i)
    · exact absurd hunused (hnone i hstart (by change i < s.total_pages.toNat; omega))
    · have hk : k = i := by
        have hkt := hfirst.lt_total
        change k < s.total_pages.toNat at hkt
        have hki : k ≤ i := by
          by_contra hlt
          exact hfirst.first i hstart (by omega) hunused
        by_contra hne
        have hk0 := hfirst.unused
        rw [hcount k hkt, if_neg hne, h.marked k (by omega)] at hk0
        exact absurd hk0 (by decide)
      rw [hk, if_pos hpos] at hrun
      exact ⟨_, hrun⟩

/-- The reserved pages are in use before every call of the run and behind it, and none was returned. -/
structure Protected (log : List (Memory × PageCall)) (s : Memory) : Prop where
  reserved : s.Reserved
  before : ∀ e ∈ log, e.1.Reserved
  fresh : ∀ e ∈ log, e.2.Fresh

theorem PageRun.protected (h : Fresh s₁) (hrun : PageRun s₁ log s) (hharmless : ∀ e ∈ log, e.2.Harmless e.1) :
    Protected log s := by
  induction hrun with
  | boot => exact ⟨h.reserved, by simp, by simp⟩
  | call hrun hcall ih =>
    rw [List.forall_mem_cons] at hharmless
    obtain ⟨hreserved, hbefore, hfresh⟩ := ih hharmless.2
    obtain ⟨hreserved', hfresh'⟩ := hcall.harmless (hrun.single_user h) hreserved hharmless.1
    exact ⟨hreserved', List.forall_mem_cons.mpr ⟨hreserved, hbefore⟩, List.forall_mem_cons.mpr ⟨hfresh', hfresh⟩⟩

theorem PageRun.harmless (h : Fresh s₁) (hrun : PageRun s₁ log s) (hprotected : Protected log s) :
    ∀ e ∈ log, e.2.Harmless e.1 := by
  induction hrun with
  | boot => simp
  | call hrun hcall ih =>
    obtain ⟨hreserved, hbefore, hfresh⟩ := hprotected
    rw [List.forall_mem_cons] at hbefore hfresh ⊢
    exact ⟨hcall.harmless_of_reserved (hrun.single_user h) hreserved hfresh.1, ih ⟨hbefore.1, hbefore.2, hfresh.2⟩⟩

/-- The pages that boot marks stay in use, and out of the hands of `get_page`, in exactly those runs that give
no page of the first 8M to `put_page` and no page from 4G on to `get_page`. -/
theorem reserved_pages_protected_iff {ram : u32 → u8} {magic addr : u32} {s₀ : Memory}
    (haccept : (memory_init magic addr).run (Memory.cold ram) = .ok () s₀) :
    ∃ s₁, kernel_init.run s₀ = .ok () s₁ ∧ ∀ log s, PageRun s₁ log s →
      (Protected log s ↔ ∀ e ∈ log, e.2.Harmless e.1) := by
  obtain ⟨s₁, hrun, hfresh, -⟩ := kernel_init_run (memory_init_ok haccept)
  exact ⟨s₁, hrun, fun log s h => ⟨h.harmless hfresh, h.protected hfresh⟩⟩

theorem reserved_pages_protected_ards :
    ∃ s₀, (memory_init ONIX_MAGIC 0x8000).run (Memory.cold ards_ram) = .ok () s₀ ∧
      ∃ s₁, kernel_init.run s₀ = .ok () s₁ ∧ ∀ log s, PageRun s₁ log s →
        (Protected log s ↔ ∀ e ∈ log, e.2.Harmless e.1) := by
  obtain ⟨s₀, haccept, -⟩ := memory_init_ards
  exact ⟨s₀, haccept, reserved_pages_protected_iff haccept⟩

/-- Behind the boot of the machine with 16M, page 512 can be put, and is the next that `get_page` returns. -/
theorem put_page_reserved : ∃ s₀ s₁ log s, (memory_init ONIX_MAGIC 0x8000).run (Memory.cold ards_ram) = .ok () s₀ ∧
    kernel_init.run s₀ = .ok () s₁ ∧ PageRun s₁ log s ∧ log.map (·.2) = [.get_page 0x200000, .put_page 0x200000] ∧
      ¬Protected log s := by
  obtain ⟨s₀, haccept, hsize⟩ := memory_init_ards
  obtain ⟨s₁, hrun, hfresh, hsize'⟩ := kernel_init_run (memory_init_ok haccept)
  have hstart : s₁.start_page.toNat ≤ 512 := by
    have hlayout := hfresh.layout
    have htotal := hlayout.size
    have hpages := hlayout.pages
    rw [hsize', hsize] at htotal
    change _ = 0x100000 + 0xf00000 at htotal
    rw [hlayout.start]
    omega
  have hpage : PAGE (UInt32.ofNat 512) = 0x200000 := rfl
  obtain ⟨hput, hzero, s₃, hget⟩ := hfresh.put_then_get hstart (by decide)
  rw [hpage] at hput hget
  refine ⟨s₀, s₁, _, s₃, haccept, hrun, (PageRun.boot.call (.put_page hput)).call (.get_page hget), rfl, fun h => ?_⟩
  have hkept := h.before _ (List.mem_cons_self ..) 512 (by decide)
  rw [hzero] at hkept
  exact absurd hkept (by decide)

end Reserved

section Free

variable {s : Memory} {vaddr count : u32}

/-- Page `page` is a page of the kernel map, and is allocated. -/
def Memory.Allocated (s : Memory) (page : Nat) : Prop :=
  ∃ k < s.kernel_map.size, page = s.kernel_map.offset.toNat + k ∧ s.bit s.kernel_map k = true

/-- What `free_kpage` should do: free all of the pages, or stop with the kernel map as it was. -/
structure AllOrNothing (s : Memory) (vaddr count : u32) : Prop where
  all : (∀ i < count.toNat, s.Allocated (vaddr.toNat / 4096 + i)) →
    ∃ s', (free_kpage vaddr count).run s = .ok () s' ∧ s.Writes s.kernel_map.buffer s' ∧
      ∀ k < s.kernel_map.size, s'.bit s.kernel_map k =
        if vaddr.toNat / 4096 ≤ s.kernel_map.offset.toNat + k ∧
          s.kernel_map.offset.toNat + k < vaddr.toNat / 4096 + count.toNat then false
        else s.bit s.kernel_map k
  nothing : ¬(∀ i < count.toNat, s.Allocated (vaddr.toNat / 4096 + i)) →
    ∃ a, (free_kpage vaddr count).run s = .error (.assertion a) s

/-- A turn of the loop of `reset_page` sets no bit, whether it returns or fails. -/
theorem reset_turn_bit {map : bitmap_t} (hsmall : map.Small) (index : u32) (s : Memory) {k : Nat} (hk : k < map.size)
    (hclear : s.bit map k = false) : (final (reset_turn map index) s).bit map k = false := by
  obtain ⟨a, hrun⟩ | ⟨j, hj, rfl, -⟩ := bitmap_test_cases hsmall index s
  · have hfail : (reset_turn map index).run s = .error (.assertion a) s := bind_of_error hrun _
    rwa [final_of_error hfail]
  · have hrun := reset_turn_run hsmall hj s
    cases hbit : s.bit map j with
    | true =>
      rw [hbit, if_pos rfl] at hrun
      rw [final_of_ok hrun, bit_set_bit hj hk, hclear, ite_self]
    | false =>
      rw [hbit, if_neg Bool.false_ne_true] at hrun
      rwa [final_of_error hrun]

theorem free_kpage_loop_eq (hvaddr : vaddr.toNat % 4096 = 0) (hcount : 1 ≤ count.toNat) :
    (free_kpage vaddr count).run s =
      (Loop.upFrom (fun i => reset_turn s.kernel_map (IDX vaddr + i)) 0 count.toNat).run s := by
  have haddr := (Words.and_fff vaddr).mpr hvaddr
  have hpos : count > 0 := UInt32.lt_iff_toNat_lt.mpr hcount
  rw [free_kpage_eq, if_pos haddr, if_pos hpos]
  unfold reset_page assert_page
  rw [assert_bind_run, if_pos (decide_eq_true haddr), assert_bind_run, if_pos (decide_eq_true hpos)]
  rfl

/-- The bit of an allocated page. -/
theorem Memory.Allocated.index (h : s.Allocated (vaddr.toNat / 4096)) (hsmall : s.kernel_map.Small) :
    ∃ k < s.kernel_map.size, vaddr.toNat / 4096 = s.kernel_map.offset.toNat + k ∧
      IDX vaddr = s.kernel_map.offset + UInt32.ofNat k ∧ s.bit s.kernel_map k = true := by
  obtain ⟨k, hk, heq, hbit⟩ := h
  refine ⟨k, hk, heq, ?_, hbit⟩
  rw [← UInt32.toNat_inj, IDX_toNat, add_ofNat_toNat (hsmall.toNat_lt hk), heq]

theorem free_kpage_all (hsmall : s.kernel_map.Small) (hvaddr : vaddr.toNat % 4096 = 0) (hcount : 1 ≤ count.toNat)
    (hall : ∀ i < count.toNat, s.Allocated (vaddr.toNat / 4096 + i)) :
    ∃ s', (free_kpage vaddr count).run s = .ok () s' ∧ s.Writes s.kernel_map.buffer s' ∧
      ∀ k < s.kernel_map.size, s'.bit s.kernel_map k =
        if vaddr.toNat / 4096 ≤ s.kernel_map.offset.toNat + k ∧
          s.kernel_map.offset.toNat + k < vaddr.toNat / 4096 + count.toNat then false
        else s.bit s.kernel_map k := by
  have haddr := (Words.and_fff vaddr).mpr hvaddr
  have hpos : count > 0 := UInt32.lt_iff_toNat_lt.mpr hcount
  have hfirst : s.Allocated (vaddr.toNat / 4096) := hall 0 hcount
  obtain ⟨start, hstart, heq, hindex, -⟩ := hfirst.index hsmall
  obtain ⟨last, hlast, hlasteq, -⟩ := hall (count.toNat - 1) (by omega)
  have hset : ∀ k, start ≤ k → k < start + count.toNat → s.bit s.kernel_map k = true := by
    intro k hk hk'
    obtain ⟨j, -, hj, hbit⟩ := hall (k - start) (by omega)
    obtain rfl : k = j := by omega
    exact hbit
  obtain ⟨s', hrun, hwrites, hbits⟩ := reset_page_run (s := s) hsmall haddr hindex hcount (by omega) hset
  refine ⟨s', ?_, hwrites, fun k hk => ?_⟩
  · rw [free_kpage_eq, if_pos haddr, if_pos hpos]
    exact hrun
  · have hiff : vaddr.toNat / 4096 ≤ s.kernel_map.offset.toNat + k ∧
        s.kernel_map.offset.toNat + k < vaddr.toNat / 4096 + count.toNat ↔
          start ≤ k ∧ k < start + count.toNat := by omega
    rw [hbits k hk]
    simp only [hiff]

/-- A first page that is not allocated stops `free_kpage` before its first store. -/
theorem free_kpage_first (hsmall : s.kernel_map.Small) (hvaddr : vaddr.toNat % 4096 = 0) (hcount : 1 ≤ count.toNat)
    (hfirst : ¬s.Allocated (vaddr.toNat / 4096)) : ∃ a, (free_kpage vaddr count).run s = .error (.assertion a) s := by
  obtain ⟨n, hn⟩ := Nat.exists_eq_add_of_le' hcount
  have hturn : ∃ a, (reset_turn s.kernel_map (IDX vaddr)).run s = .error (.assertion a) s := by
    obtain ⟨a, hrun⟩ | ⟨k, hk, hindex, -⟩ := bitmap_test_cases hsmall (IDX vaddr) s
    · exact ⟨a, bind_of_error hrun _⟩
    · have hpage : vaddr.toNat / 4096 = s.kernel_map.offset.toNat + k := by
        rw [← IDX_toNat, hindex, add_ofNat_toNat (hsmall.toNat_lt hk)]
      have hbit : s.bit s.kernel_map k ≠ true := fun h => hfirst ⟨k, hk, hpage, h⟩
      refine ⟨.reset_page_test, ?_⟩
      rw [hindex, reset_turn_run hsmall hk, if_neg hbit]
  obtain ⟨a, hrun⟩ := hturn
  refine ⟨a, ?_⟩
  rw [free_kpage_loop_eq hvaddr hcount, hn, Loop.upFrom, UInt32.add_zero]
  exact bind_of_error hrun _

/-- A later page that is not allocated does not: the bit of the first page is gone. -/
theorem free_kpage_clears_first (hsmall : s.kernel_map.Small) (hvaddr : vaddr.toNat % 4096 = 0)
    (hcount : 1 ≤ count.toNat) (hfirst : s.Allocated (vaddr.toNat / 4096)) :
    final (free_kpage vaddr count) s ≠ s := by
  obtain ⟨n, hn⟩ := Nat.exists_eq_add_of_le' hcount
  obtain ⟨k, hk, -, hindex, hbit⟩ := hfirst.index hsmall
  have hrun := reset_turn_run hsmall hk s
  rw [if_pos hbit, ← hindex] at hrun
  have hcleared : (s.set_bit s.kernel_map k false).bit s.kernel_map k = false := by
    rw [bit_set_bit hk hk, if_pos rfl]
  let Stays (t t' : Memory) := t.bit s.kernel_map k = false → t'.bit s.kernel_map k = false
  have htrans : ∀ t t₁ t₂, Stays t t₁ → Stays t₁ t₂ → Stays t t₂ := fun _ _ _ h h' ht => h' (h ht)
  have hrest := Loop.upFrom_final (R := Stays) (fun _ h => h) htrans
    (fun i t => reset_turn_bit hsmall (IDX vaddr + i) t hk) (0 + 1) n (s.set_bit s.kernel_map k false) hcleared
  have hfinal : final (free_kpage vaddr count) s =
      final (Loop.upFrom (fun i => reset_turn s.kernel_map (IDX vaddr + i)) (0 + 1) n)
        (s.set_bit s.kernel_map k false) := by
    unfold final
    rw [free_kpage_loop_eq hvaddr hcount, hn, Loop.upFrom, UInt32.add_zero, bind_of_ok hrun]
  intro heq
  rw [← hfinal, heq, hbit] at hrest
  exact Bool.noConfusion hrest

theorem AllOrNothing.first (h : AllOrNothing s vaddr count) (hsmall : s.kernel_map.Small)
    (hvaddr : vaddr.toNat % 4096 = 0) (hcount : 1 ≤ count.toNat)
    (hall : ¬∀ i < count.toNat, s.Allocated (vaddr.toNat / 4096 + i)) : ¬s.Allocated (vaddr.toNat / 4096) := by
  intro hfirst
  obtain ⟨a, hrun⟩ := h.nothing hall
  exact free_kpage_clears_first hsmall hvaddr hcount hfirst (final_of_error hrun)

/-- `free_kpage` is all or nothing exactly where all of the pages are allocated, or not even the first. -/
theorem free_kpage_all_or_nothing_iff (hsmall : s.kernel_map.offset.toNat + 8 * s.kernel_map.length.toNat < 2 ^ 31)
    (hvaddr : vaddr.toNat % 4096 = 0) (hcount : 1 ≤ count.toNat) :
    AllOrNothing s vaddr count ↔
      (∀ i < count.toNat, s.Allocated (vaddr.toNat / 4096 + i)) ∨ ¬s.Allocated (vaddr.toNat / 4096) := by
  constructor
  · intro h
    by_cases hall : ∀ i < count.toNat, s.Allocated (vaddr.toNat / 4096 + i)
    · exact Or.inl hall
    · exact Or.inr (h.first hsmall hvaddr hcount hall)
  · rintro (hall | hfirst)
    · exact ⟨fun _ => free_kpage_all hsmall hvaddr hcount hall, fun h => absurd hall h⟩
    · exact ⟨fun h => absurd (h 0 hcount) hfirst, fun _ => free_kpage_first hsmall hvaddr hcount hfirst⟩

/-- The kernel map of boot where page 256 is allocated and page 257 is not. -/
def half_allocated : Memory :=
  { Memory.cold fun _ => 1 with kernel_map := bitmap_make KERNEL_MAP_BITS 224 256 }

theorem half_allocated_first : half_allocated.Allocated 256 := by
  refine ⟨0, ?_, rfl, rfl⟩
  change 0 < 8 * 224
  omega

theorem half_allocated_second : ¬half_allocated.Allocated 257 := by
  rintro ⟨k, -, heq, hbit⟩
  change 257 = 256 + k at heq
  obtain rfl : k = 1 := by omega
  exact Bool.noConfusion hbit

/-- Freeing those two pages frees the first and fails at the second. -/
theorem free_kpage_half_allocated : ¬AllOrNothing half_allocated 0x100000 2 := by
  intro h
  have hsmall : half_allocated.kernel_map.Small := by
    change 256 + 8 * 224 < 2 ^ 31
    omega
  refine h.first hsmall rfl (by decide) ?_ half_allocated_first
  intro hall
  exact half_allocated_second (hall 1 (by decide))

theorem free_kpage_one_page : AllOrNothing half_allocated 0x100000 1 := by
  refine (free_kpage_all_or_nothing_iff (by decide) rfl (by decide)).mpr (Or.inl fun i hi => ?_)
  obtain rfl : i = 0 := Nat.lt_one_iff.mp hi
  exact half_allocated_first

end Free

end onix
