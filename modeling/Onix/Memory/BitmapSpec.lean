import Onix.Memory.Stores
import Onix.Library.FirstFit

namespace onix

open Outcome FirstFit

/-- Bit `k` of the buffer of a bitmap. -/
def Memory.bit (s : Memory) (map : bitmap_t) (k : Nat) : Bool :=
  (s.ram (map.bits + UInt32.ofNat (k / 8))).toBitVec.getLsbD (k % 8)

/-- The number of bits of a bitmap. -/
def bitmap_t.size (map : bitmap_t) : Nat := 8 * map.length.toNat

/-- The bits of the map, numbered from `offset` on, are numbers of an `int`. -/
def bitmap_t.Small (map : bitmap_t) : Prop := map.offset.toNat + map.size < 2 ^ 31

def bitmap_t.buffer (map : bitmap_t) : Set u32 := span map.bits map.length.toNat

section Bits

variable (b : u8) {i j : Nat}

theorem one_shiftLeft_ofNat (hi : i < 8) : ((1 : u8) <<< UInt8.ofNat i).toBitVec = BitVec.twoPow 8 i := by
  apply BitVec.eq_of_getLsbD_eq
  intro j hj
  simp [Nat.mod_eq_of_lt (show i < 256 by omega), Nat.mod_eq_of_lt hi]
  grind

theorem and_one_shiftLeft (hi : i < 8) :
    decide (b &&& 1 <<< UInt8.ofNat i ≠ 0) = b.toBitVec.getLsbD i := by
  have hzero : b &&& 1 <<< UInt8.ofNat i = 0 ↔ b.toBitVec &&& BitVec.twoPow 8 i = 0#8 := by
    rw [← UInt8.toBitVec_inj, UInt8.toBitVec_and, one_shiftLeft_ofNat hi]
    rfl
  rw [BitVec.and_twoPow] at hzero
  cases hbit : b.toBitVec.getLsbD i with
  | false => simpa [hbit] using hzero
  | true =>
    have hpos : BitVec.twoPow 8 i ≠ 0#8 := by
      intro h
      have hget := congrArg (fun v => BitVec.getLsbD v i) h
      simp [hi] at hget
    simpa [hbit, hpos] using hzero

theorem getLsbD_or_one_shiftLeft (hi : i < 8) :
    (b ||| 1 <<< UInt8.ofNat i).toBitVec.getLsbD j = if j = i then true else b.toBitVec.getLsbD j := by
  rw [UInt8.toBitVec_or, one_shiftLeft_ofNat hi, BitVec.getLsbD_or, BitVec.getLsbD_twoPow]
  by_cases h : j = i
  · simp [h, hi]
  · simp [h, Ne.symm h]

theorem getLsbD_and_not_one_shiftLeft (hi : i < 8) (hj : j < 8) :
    (b &&& ~~~(1 <<< UInt8.ofNat i)).toBitVec.getLsbD j =
      if j = i then false else b.toBitVec.getLsbD j := by
  rw [UInt8.toBitVec_and, UInt8.toBitVec_not, one_shiftLeft_ofNat hi, BitVec.getLsbD_and, BitVec.getLsbD_not,
    BitVec.getLsbD_twoPow]
  by_cases h : j = i
  · simp [h, hi]
  · simp [h, Ne.symm h, hj]

end Bits

section Cells

variable {map : bitmap_t} {k : Nat} {s s' : Memory}

/-- The number of a bit fits its word, and so does the index of its byte. -/
theorem bitmap_t.Small.toNat_lt (hsmall : map.Small) (hk : k < map.size) : map.offset.toNat + k < 2 ^ 32 := by
  unfold bitmap_t.Small at hsmall
  omega

theorem bitmap_t.Small.sub_offset (hsmall : map.Small) (hk : k < map.size) :
    map.offset + UInt32.ofNat k - map.offset = UInt32.ofNat k ∧ map.offset ≤ map.offset + UInt32.ofNat k ∧
      UInt32.ofNat k / 8 = UInt32.ofNat (k / 8) ∧ (UInt32.ofNat k % 8).toUInt8 = UInt8.ofNat (k % 8) ∧
      UInt32.ofNat (k / 8) < map.length := by
  have hlt := hsmall.toNat_lt hk
  have hknat : (UInt32.ofNat k).toNat = k := toNat_ofNat (by omega)
  have hdiv : (UInt32.ofNat (k / 8)).toNat = k / 8 := toNat_ofNat (by omega)
  unfold bitmap_t.size at hk
  refine ⟨?_, ?_, ?_, ?_, ?_⟩
  · rw [UInt32.add_comm, UInt32.add_sub_cancel]
  · rw [UInt32.le_iff_toNat_le, UInt32.toNat_add, hknat, Nat.mod_eq_of_lt hlt]
    omega
  · apply UInt32.toNat_inj.mp
    rw [UInt32.toNat_div, hknat, hdiv]
    rfl
  · apply UInt8.toNat_inj.mp
    rw [UInt32.toNat_toUInt8, UInt32.toNat_mod, hknat, UInt8.toNat_ofNat']
    rfl
  · rw [UInt32.lt_iff_toNat_lt, hdiv]
    omega

theorem bitmap_test_run (hsmall : map.Small) (hk : k < map.size) (s : Memory) :
    (bitmap_test map (map.offset + UInt32.ofNat k)).run s = .ok (s.bit map k) s := by
  obtain ⟨hsub, hle, hdiv, hmod, hlt⟩ := hsmall.sub_offset hk
  unfold bitmap_test
  simp only [hsub, hdiv, hmod]
  rw [assert_bind_run, if_pos (decide_eq_true hle), assert_bind_run, if_pos (decide_eq_true hlt),
    bind_of_ok (load8_run _ s)]
  exact congrArg (EStateM.Result.ok · s) (and_one_shiftLeft _ (Nat.mod_lt k (by decide)))

/-- Memory with bit `k` of a bitmap set to `value`. -/
def Memory.set_bit (s : Memory) (map : bitmap_t) (k : Nat) (value : Bool) : Memory :=
  let addr := map.bits + UInt32.ofNat (k / 8)
  let bit := 1 <<< UInt8.ofNat (k % 8)
  s.store addr (if value then s.ram addr ||| bit else s.ram addr &&& ~~~bit)

theorem bitmap_set_run (hsmall : map.Small) (hk : k < map.size) (value : Bool) (s : Memory) :
    (bitmap_set map (map.offset + UInt32.ofNat k) value).run s = .ok () (s.set_bit map k value) := by
  obtain ⟨hsub, hle, hdiv, hmod, -⟩ := hsmall.sub_offset hk
  unfold bitmap_set
  simp only [hsub, hdiv, hmod]
  rw [assert_bind_run, if_pos (by cases value <;> rfl), assert_bind_run, if_pos (decide_eq_true hle),
    bind_of_ok (load8_run _ s)]
  cases value <;> rfl

theorem set_bit_writes (hk : k < map.size) (value : Bool) : s.Writes map.buffer (s.set_bit map k value) := by
  refine (s.store_writes _ _).mono ?_
  rintro a rfl
  unfold bitmap_t.size at hk
  have hlength := map.length.toNat_lt
  exact (mem_span_ofNat map.bits (by omega)).mpr (by omega)

theorem bit_set_bit (hk : k < map.size) {j : Nat} (hj : j < map.size) (value : Bool) :
    (s.set_bit map k value).bit map j = if j = k then value else s.bit map j := by
  have hlength := map.length.toNat_lt
  unfold bitmap_t.size at hk hj
  unfold Memory.bit Memory.set_bit Memory.store
  by_cases hbyte : j / 8 = k / 8
  · have hiff : j = k ↔ j % 8 = k % 8 := by omega
    simp only [hbyte, Function.update_self, hiff]
    cases value with
    | true => exact getLsbD_or_one_shiftLeft _ (Nat.mod_lt k (by decide))
    | false => exact getLsbD_and_not_one_shiftLeft _ (Nat.mod_lt k (by decide)) (Nat.mod_lt j (by decide))
  · have hne : map.bits + UInt32.ofNat (j / 8) ≠ map.bits + UInt32.ofNat (k / 8) := by
      intro h
      rw [eq_base_add_iff (by omega), sub_ofNat_add_toNat _ (by omega)] at h
      exact hbyte h
    rw [if_neg fun h => hbyte (congrArg (· / 8) h)]
    simp only [Function.update_of_ne hne]

/-- A bitmap is its bits: the bytes of the buffer are the same where the bits are. -/
theorem ram_eq_of_bits (h : ∀ k < map.size, s'.bit map k = s.bit map k) {a : u32} (ha : a ∈ map.buffer) :
    s'.ram a = s.ram a := by
  have hlt : (a - map.bits).toNat < map.length.toNat := ha
  apply UInt8.toBitVec_inj.mp
  apply BitVec.eq_of_getLsbD_eq
  intro i hi
  have hbit := h (8 * (a - map.bits).toNat + i) (by unfold bitmap_t.size; omega)
  unfold Memory.bit at hbit
  rwa [show (8 * (a - map.bits).toNat + i) / 8 = (a - map.bits).toNat by omega,
    show (8 * (a - map.bits).toNat + i) % 8 = i by omega, add_ofNat_sub_toNat] at hbit

/-- Bytes outside of the buffer do not matter to the bits. -/
theorem Memory.Writes.bit {D : Set u32} (h : s.Writes D s') (hapart : Disjoint map.buffer D)
    (hk : k < map.size) : s'.bit map k = s.bit map k := by
  have hlength := map.length.toNat_lt
  unfold bitmap_t.size at hk
  unfold Memory.bit
  rw [h.ram]
  exact Set.disjoint_left.mp hapart ((mem_span_ofNat map.bits (by omega)).mpr (by omega))

end Cells

section Scan

variable {map : bitmap_t} {count : u32} {s : Memory}

theorem counter_eq_iff {next counter : Nat} (h : Scanned (s.bit map) count.toNat next counter) :
    UInt32.ofNat counter + 1 = count ↔ counter + 1 = count.toNat := by
  have hlt := h.counter_lt
  have hcount := count.toNat_lt
  rw [← UInt32.toNat_inj, UInt32.toNat_add, toNat_ofNat (by omega)]
  change (counter + 1) % 2 ^ 32 = _ ↔ _
  rw [Nat.mod_eq_of_lt (by omega)]

/-- The first loop of `bitmap_scan` ends with `EOF` behind a map without a run, and otherwise with the
start of the first. -/
theorem bitmap_scan_loop_run (hsmall : map.Small) {n next counter : Nat} (hsize : next + n = map.size)
    (h : Scanned (s.bit map) count.toNat next counter)
    (hnone : ∀ t, Fits (s.bit map) map.size count.toNat t → next < t + count.toNat) :
    ∃ r, (bitmap_scan_loop map count n (UInt32.ofNat next) (UInt32.ofNat counter)).run s = .ok r s ∧
      ((∀ t, ¬ Fits (s.bit map) map.size count.toNat t) ∧ r = EOF ∨
        ∃ start, First (s.bit map) map.size count.toNat start ∧ r = UInt32.ofNat start) := by
  induction n generalizing next counter with
  | zero =>
    refine ⟨EOF, rfl, .inl ⟨fun t hfits => ?_, rfl⟩⟩
    have hend := hnone t hfits
    have hle := hfits.1
    omega
  | succ n ih =>
    have hlt : next < map.size := by omega
    have hnext : UInt32.ofNat next + 1 = UInt32.ofNat (next + 1) := (UInt32.ofNat_add next 1).symm
    have hcounter : UInt32.ofNat counter + 1 = UInt32.ofNat (counter + 1) := (UInt32.ofNat_add counter 1).symm
    have hpos : 0 < count.toNat := Nat.lt_of_le_of_lt (Nat.zero_le _) h.counter_lt
    unfold bitmap_scan_loop
    rw [bind_of_ok (bitmap_test_run hsmall hlt s)]
    cases hbit : s.bit map next with
    | true =>
      have hne : (0 : u32) ≠ count := by
        rintro rfl
        exact absurd hpos (by decide)
      simp only [if_true, if_neg hne, hnext]
      exact ih (by omega) (h.past_used hbit) fun t hfits => hfits.not_end hpos hbit (hnone t hfits)
    | false =>
      by_cases hcount : counter + 1 = count.toNat
      · have heq := (counter_eq_iff h).mpr hcount
        have hle := h.counter_le
        simp only [Bool.false_eq_true, if_false, heq, if_true, hnext]
        refine ⟨_, rfl, .inr ⟨_, h.found hbit hcount hlt hnone, ?_⟩⟩
        rw [← hcount, UInt32.sub_eq_iff_eq_add, ← heq, hcounter, ← UInt32.ofNat_add]
        congr 1
        omega
      · have hne := mt (counter_eq_iff h).mp hcount
        rw [hcounter] at hne
        simp only [Bool.false_eq_true, if_false, if_neg hne, hnext, hcounter]
        exact ih (by omega) (h.past_free hbit hcount) fun t hfits => h.not_end hcount hfits (hnone t hfits)

/-- Bits that are set and reset one after the other, from `start` on, by a loop whose turns do not fail. -/
theorem set_bits_loop (value : Bool) (body : u32 → MemoryM Unit) {i : u32} {start n : Nat}
    (hn : start + n ≤ map.size)
    (hbody : ∀ j < n, ∀ t, s.Writes map.buffer t → (∀ k < map.size, start + j ≤ k → t.bit map k = s.bit map k) →
      (body (i + UInt32.ofNat j)).run t = .ok () (t.set_bit map (start + j) value)) :
    ∃ s', (Loop.upFrom body i n).run s = .ok () s' ∧ s.Writes map.buffer s' ∧
      ∀ k < map.size, s'.bit map k = if start ≤ k ∧ k < start + n then value else s.bit map k := by
  let Inv (j : Nat) (t : Memory) := s.Writes map.buffer t ∧
    ∀ k < map.size, t.bit map k = if start ≤ k ∧ k < start + j then value else s.bit map k
  have hturn : ∀ j < n, ∀ t, Inv (0 + j) t →
      ∃ t', (body (i + UInt32.ofNat j)).run t = .ok () t' ∧ Inv (0 + j + 1) t' := by
    rintro j hj t ⟨hwrites, hbits⟩
    rw [Nat.zero_add] at hbits ⊢
    have hlt : start + j < map.size := by omega
    refine ⟨_, hbody j hj t hwrites ?_, hwrites.trans (set_bit_writes hlt value), fun k hk => ?_⟩
    · intro k hk hle
      rw [hbits k hk, if_neg (by omega)]
    · rw [bit_set_bit hlt hk, hbits k hk]
      by_cases heq : k = start + j
      · rw [if_pos heq, if_pos (by omega)]
      · have hiff : start ≤ k ∧ k < start + (j + 1) ↔ start ≤ k ∧ k < start + j := by omega
        simp only [if_neg heq, hiff]
  have hinit : Inv 0 s := by
    refine ⟨.refl _ _, fun k _ => ?_⟩
    rw [if_neg (by omega)]
  have hloop := Loop.upFrom_returns Inv hturn hinit
  rwa [Nat.zero_add] at hloop

/-- `bitmap_scan` takes the first run of `count` bits, or says that there is none. -/
theorem bitmap_scan_run (hsmall : map.Small) (hcount : 0 < count.toNat) :
    (∀ t, ¬ Fits (s.bit map) map.size count.toNat t) ∧ (bitmap_scan map count).run s = .ok EOF s ∨
      ∃ start s', First (s.bit map) map.size count.toNat start ∧
        (bitmap_scan map count).run s = .ok (map.offset + UInt32.ofNat start) s' ∧
        s.Writes map.buffer s' ∧
        ∀ k < map.size, s'.bit map k =
          if start ≤ k ∧ k < start + count.toNat then true else s.bit map k := by
  have hlength : (map.length * 8).toNat = map.size := by
    unfold bitmap_t.Small bitmap_t.size at hsmall
    unfold bitmap_t.size
    rw [UInt32.toNat_mul, show UInt32.toNat 8 = 8 from rfl, Nat.mod_eq_of_lt (by omega), Nat.mul_comm]
  obtain ⟨r, hrun, hr⟩ := bitmap_scan_loop_run hsmall (Nat.zero_add map.size)
    (Scanned.init (s.bit map) hcount) (fun t _ => by omega)
  rw [show UInt32.ofNat 0 = 0 from rfl] at hrun
  unfold bitmap_scan
  rw [hlength, bind_of_ok hrun]
  obtain ⟨hnone, rfl⟩ | ⟨start, hfirst, rfl⟩ := hr
  · exact .inl ⟨hnone, rfl⟩
  · right
    have hend := hfirst.fits.1
    have hstart : UInt32.ofNat start ≠ EOF := by
      intro h
      have hnat := congrArg UInt32.toNat h
      unfold bitmap_t.Small at hsmall
      rw [toNat_ofNat (by omega)] at hnat
      change start = 4294967295 at hnat
      omega
    have hset : ∀ j < count.toNat, ∀ t : Memory,
        (bitmap_set map (map.offset + (UInt32.ofNat start + UInt32.ofNat j)) true).run t =
          .ok () (t.set_bit map (start + j) true) := by
      intro j hj t
      rw [← UInt32.ofNat_add]
      exact bitmap_set_run hsmall (by omega) true t
    obtain ⟨s', hloop, hwrites, hbits⟩ := set_bits_loop (s := s) true
      (fun next_bit => bitmap_set map (map.offset + next_bit) true) hend
      fun j hj t _ _ => hset j hj t
    refine ⟨start, s', hfirst, ?_, hwrites, hbits⟩
    rw [if_neg hstart, bind_of_ok hloop, UInt32.add_comm]
    rfl

/-- `bitmap_scan` is a first fit allocator. -/
theorem bitmap_scan_first_fit (hsmall : map.offset.toNat + 8 * map.length.toNat < 2 ^ 31)
    (hcount : 1 ≤ count.toNat) (s : Memory) :
    ((∃ t, Fits (s.bit map) map.size count.toNat t) →
      ∃ start r s', First (s.bit map) map.size count.toNat start ∧
        (bitmap_scan map count).run s = .ok r s' ∧ r.toNat = map.offset.toNat + start ∧
        (∀ k, start ≤ k → k < start + count.toNat → s.bit map k = false ∧ s'.bit map k = true) ∧
        (∀ k < map.size, ¬(start ≤ k ∧ k < start + count.toNat) → s'.bit map k = s.bit map k) ∧
        s.Writes map.buffer s') ∧
      ((¬∃ t, Fits (s.bit map) map.size count.toNat t) → (bitmap_scan map count).run s = .ok EOF s) := by
  constructor
  · rintro ⟨t, ht⟩
    obtain ⟨hnone, -⟩ | ⟨start, s', hfirst, hrun, hwrites, hbits⟩ := bitmap_scan_run (s := s) hsmall hcount
    · exact absurd ht (hnone t)
    · obtain ⟨hend, hfree⟩ := hfirst.fits
      have hsize : map.size = 8 * map.length.toNat := rfl
      refine ⟨start, _, s', hfirst, hrun, add_ofNat_toNat (by omega), fun k hk hk' => ?_, fun k hk hout => ?_, hwrites⟩
      · refine ⟨hfree k hk hk', ?_⟩
        rw [hbits k (by omega), if_pos ⟨hk, hk'⟩]
      · rw [hbits k hk, if_neg hout]
  · intro hnone
    obtain ⟨-, hrun⟩ | ⟨start, s', hfirst, -⟩ := bitmap_scan_run (s := s) hsmall hcount
    · exact hrun
    · exact absurd ⟨start, hfirst.fits⟩ hnone

/-- In a map of two bytes whose first three pages are used, the fourth to the sixth are taken. -/
theorem bitmap_scan_first_fit_three : ∃ r s',
    (bitmap_scan (bitmap_make KERNEL_MAP_BITS 2 256) 3).run (Memory.cold fun _ => 7) = .ok r s' ∧ r.toNat = 259 := by
  obtain ⟨hfound, -⟩ := @bitmap_scan_first_fit (bitmap_make KERNEL_MAP_BITS 2 256) 3 (by decide) (by decide)
    (Memory.cold fun _ => 7)
  have hfits : Fits ((Memory.cold fun _ => 7).bit (bitmap_make KERNEL_MAP_BITS 2 256)) 16 3 3 := by
    refine ⟨by decide, fun k hk hk' => ?_⟩
    have hk3 : k = 3 ∨ k = 4 ∨ k = 5 := by omega
    obtain rfl | rfl | rfl := hk3 <;> rfl
  obtain ⟨start, r, s', hfirst, hrun, hr, -⟩ := hfound ⟨3, hfits⟩
  refine ⟨r, s', hrun, ?_⟩
  have hle := hfirst.first 3 hfits
  have hfree := hfirst.fits.2 2
  have hused : (Memory.cold fun _ => 7).bit (bitmap_make KERNEL_MAP_BITS 2 256) 2 = true := rfl
  rw [hused] at hfree
  have hne : ¬(start ≤ 2 ∧ 2 < start + 3) := fun h => Bool.noConfusion (hfree h.1 h.2)
  have hcount : (3 : u32).toNat = 3 := rfl
  change r.toNat = 256 + start at hr
  omega

end Scan

end onix
