import Onix.Library.Words
import Onix.Memory.Pages
import Mathlib.Order.CompletePartialOrder

namespace onix

open Outcome

/-- The `len` bytes from `base` on, around the end of the address space. -/
def span (base : u32) (len : Nat) : Set u32 := { a | (a - base).toNat < len }

/-- Only bytes of `D` differ between the two states. -/
structure Memory.Writes (D : Set u32) (s s' : Memory) : Prop where
  vars : s' = { s with ram := s'.ram }
  ram : ∀ a ∉ D, s'.ram a = s.ram a

namespace Memory

/-- `len` bytes from `base` on are set to `ch`. -/
def fill (s : Memory) (base : u32) (len : Nat) (ch : u8) : Memory :=
  { s with ram := fun a => if (a - base).toNat < len then ch else s.ram a }

variable {D E : Set u32} {s s' s'' : Memory}

theorem Writes.refl (D : Set u32) (s : Memory) : s.Writes D s := ⟨rfl, fun _ _ => rfl⟩

theorem Writes.trans (h : s.Writes D s') (h' : s'.Writes D s'') : s.Writes D s'' := by
  refine ⟨?_, fun a ha => (h'.ram a ha).trans (h.ram a ha)⟩
  rw [h'.vars, h.vars]

theorem Writes.mono (hsub : D ⊆ E) (h : s.Writes D s') : s.Writes E s' :=
  ⟨h.vars, fun a ha => h.ram a fun hD => ha (hsub hD)⟩

theorem store_writes (s : Memory) (addr : u32) (value : u8) : s.Writes {addr} (s.store addr value) := by
  refine ⟨rfl, fun a ha => ?_⟩
  exact Function.update_of_ne ha _ _

theorem fill_writes (s : Memory) (base : u32) (len : Nat) (ch : u8) :
    s.Writes (span base len) (s.fill base len ch) :=
  ⟨rfl, fun _ ha => if_neg ha⟩

end Memory

theorem toNat_ofNat {n : Nat} (hn : n < 2 ^ 32) : (UInt32.ofNat n).toNat = n :=
  UInt32.toNat_ofNat_of_lt' hn

theorem add_ofNat_toNat {base : u32} {n : Nat} (h : base.toNat + n < 2 ^ 32) :
    (base + UInt32.ofNat n).toNat = base.toNat + n := by
  rw [UInt32.toNat_add, toNat_ofNat (by omega), Nat.mod_eq_of_lt h]

theorem sub_ofNat_add_toNat (base : u32) {n : Nat} (hn : n < 2 ^ 32) :
    (base + UInt32.ofNat n - base).toNat = n := by
  rw [UInt32.add_comm, UInt32.add_sub_cancel, toNat_ofNat hn]

theorem add_ofNat_sub_toNat (base a : u32) : base + UInt32.ofNat (a - base).toNat = a := by
  rw [UInt32.ofNat_toNat, UInt32.add_comm, UInt32.sub_add_cancel]

/-- An address is the base plus the distance to it. -/
theorem eq_base_add_iff {base a : u32} {n : Nat} (hn : n < 2 ^ 32) :
    a = base + UInt32.ofNat n ↔ (a - base).toNat = n := by
  constructor
  · rintro rfl
    exact sub_ofNat_add_toNat base hn
  · rintro rfl
    exact (add_ofNat_sub_toNat base a).symm

/-- One more byte behind a filled area. -/
theorem Memory.fill_store (s : Memory) (base : u32) (ch : u8) {n : Nat} (hn : n < 2 ^ 32) :
    (s.fill base n ch).store (base + UInt32.ofNat n) ch = s.fill base (n + 1) ch := by
  unfold Memory.store Memory.fill
  congr 1
  funext a
  by_cases ha : a = base + UInt32.ofNat n
  · have hlt : (a - base).toNat < n + 1 := by rw [(eq_base_add_iff hn).mp ha]; exact Nat.lt_succ_self n
    rw [ha, Function.update_self, ← ha, if_pos hlt]
  · have hiff : (a - base).toNat < n + 1 ↔ (a - base).toNat < n := by
      have hne := mt (eq_base_add_iff hn).mpr ha
      omega
    rw [Function.update_of_ne ha]
    simp only [hiff]

/-- A loop that stores `ch` behind what it has stored fills an area. -/
theorem fill_loop {body : u32 → MemoryM Unit} {base i : u32} {ch : u8} {n : Nat} (hn : n ≤ 2 ^ 32)
    {s : Memory}
    (hbody : ∀ j < n, (body (i + UInt32.ofNat j)).run (s.fill base j ch) =
      .ok () ((s.fill base j ch).store (base + UInt32.ofNat j) ch)) :
    (Loop.upFrom body i n).run s = .ok () (s.fill base n ch) := by
  have hturn : ∀ j < n, ∀ t, t = s.fill base (0 + j) ch →
      ∃ t', (body (i + UInt32.ofNat j)).run t = .ok () t' ∧ t' = s.fill base (0 + j + 1) ch := by
    rintro j hj t rfl
    rw [Nat.zero_add]
    exact ⟨_, hbody j hj, Memory.fill_store s base ch (by omega)⟩
  have hinit : s = s.fill base 0 ch := by simp [Memory.fill]
  obtain ⟨s', hrun, hs'⟩ := Loop.upFrom_returns (fun k t => t = s.fill base k ch) hturn hinit
  rw [hrun, hs', Nat.zero_add]

theorem memset_run (dest : u32) (ch : u8) (count : u32) (s : Memory) :
    (memset dest ch count).run s = .ok () (s.fill dest count.toNat ch) :=
  fill_loop (Nat.le_of_lt count.toNat_lt) fun _ _ => rfl

/-- The word that the bytes from `addr` on are. -/
def Memory.word (s : Memory) (addr : u32) : u32 :=
  (s.ram addr).toUInt32 ||| (s.ram (addr + 1)).toUInt32 <<< 8 |||
    (s.ram (addr + 2)).toUInt32 <<< 16 ||| (s.ram (addr + 3)).toUInt32 <<< 24

def Memory.store_word (s : Memory) (addr value : u32) : Memory :=
  (((s.store addr value.toUInt8).store (addr + 1) (value >>> 8).toUInt8).store
    (addr + 2) (value >>> 16).toUInt8).store (addr + 3) (value >>> 24).toUInt8

@[simp] theorem load32_run (addr : u32) (s : Memory) : (load32 addr).run s = .ok (s.word addr) s := rfl

@[simp] theorem store32_run (addr value : u32) (s : Memory) :
    (store32 addr value).run s = .ok () (s.store_word addr value) := rfl

theorem mem_span_ofNat (base : u32) {n len : Nat} (hn : n < 2 ^ 32) :
    base + UInt32.ofNat n ∈ span base len ↔ n < len := by
  unfold span
  rw [Set.mem_ofPred_eq, sub_ofNat_add_toNat base hn]

/-- An area that does not reach around the end of the address space is an interval. -/
theorem mem_span_iff {base a : u32} {len : Nat} (hend : base.toNat + len ≤ 2 ^ 32) :
    a ∈ span base len ↔ base.toNat ≤ a.toNat ∧ a.toNat < base.toNat + len := by
  have hbase := base.toNat_lt
  have ha := a.toNat_lt
  unfold span
  rw [Set.mem_ofPred_eq, UInt32.toNat_sub]
  omega

theorem span_disjoint {b c : u32} {m n : Nat} (hbc : b.toNat + m ≤ c.toNat) (hc : c.toNat + n ≤ 2 ^ 32) :
    Disjoint (span b m) (span c n) := by
  rw [Set.disjoint_left]
  intro a hb hc'
  rw [mem_span_iff (by omega)] at hb
  rw [mem_span_iff hc] at hc'
  omega

theorem span_apart {b c : u32} {m n : Nat} (hb : b.toNat + m ≤ 2 ^ 32) (hc : c.toNat + n ≤ 2 ^ 32)
    (h : b.toNat + m ≤ c.toNat ∨ c.toNat + n ≤ b.toNat) : Disjoint (span b m) (span c n) := by
  rcases h with hbc | hcb
  · exact span_disjoint hbc hc
  · exact (span_disjoint hcb hb).symm

/-- The bytes of a word are the base and the three behind it. -/
theorem mem_span_word (addr : u32) {k : u32} (hk : k.toNat < 4) : addr + k ∈ span addr 4 := by
  have h : addr + UInt32.ofNat k.toNat ∈ span addr 4 := (mem_span_ofNat addr (by omega)).mpr hk
  rwa [UInt32.ofNat_toNat] at h

namespace Memory

theorem store_word_writes (s : Memory) (addr value : u32) :
    s.Writes (span addr 4) (s.store_word addr value) := by
  have hbyte : ∀ (t : Memory) (k : u32) (b : u8), k.toNat < 4 →
      t.Writes (span addr 4) (t.store (addr + k) b) := by
    intro t k b hk
    refine (t.store_writes _ b).mono ?_
    rintro a rfl
    exact mem_span_word addr hk
  have h0 := hbyte s 0 value.toUInt8 (by decide)
  rw [UInt32.add_zero] at h0
  exact ((h0.trans (hbyte _ 1 _ (by decide))).trans (hbyte _ 2 _ (by decide))).trans
    (hbyte _ 3 _ (by decide))

/-- What is stored as a word is read back as one. -/
theorem word_store_word (s : Memory) (addr value : u32) : (s.store_word addr value).word addr = value :=
  Words.word_put s.ram addr value

/-- A byte that is not written keeps its value. -/
theorem Writes.byte {D : Set u32} {s s' : Memory} (h : s.Writes D s') {a : u32}
    (hapart : Disjoint (span a 1) D) : s'.ram a = s.ram a := by
  refine h.ram a (Set.disjoint_left.mp hapart ?_)
  unfold span
  rw [Set.mem_ofPred_eq, UInt32.sub_self]
  decide

/-- A word none of whose bytes are written keeps its value. -/
theorem Writes.word {D : Set u32} {s s' : Memory} (h : s.Writes D s') {addr : u32}
    (hapart : Disjoint (span addr 4) D) : s'.word addr = s.word addr := by
  have hbyte : ∀ k : u32, k.toNat < 4 → s'.ram (addr + k) = s.ram (addr + k) := fun k hk =>
    h.ram _ (Set.disjoint_left.mp hapart (mem_span_word addr hk))
  have h0 := hbyte 0 (by decide)
  rw [UInt32.add_zero] at h0
  unfold Memory.word
  rw [h0, hbyte 1 (by decide), hbyte 2 (by decide), hbyte 3 (by decide)]

end Memory

end onix
