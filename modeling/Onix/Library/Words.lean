import Mathlib.Data.BitVec
import Mathlib.Logic.Function.Basic
import Mathlib.Tactic.Common

/-! Words of four bytes, and halves of them, the lowest byte first, in a memory of bytes. -/

namespace Words

abbrev Ram := UInt32 → UInt8

/-- The word that the four bytes from `a` on are. -/
def word (ram : Ram) (a : UInt32) : UInt32 :=
  (ram a).toUInt32 ||| (ram (a + 1)).toUInt32 <<< 8 |||
    (ram (a + 2)).toUInt32 <<< 16 ||| (ram (a + 3)).toUInt32 <<< 24

def put (ram : Ram) (a value : UInt32) : Ram :=
  Function.update (Function.update (Function.update (Function.update ram
    a value.toUInt8) (a + 1) (value >>> 8).toUInt8) (a + 2) (value >>> 16).toUInt8)
    (a + 3) (value >>> 24).toUInt8

/-- The half of a word that the two bytes from `a` on are. -/
def half (ram : Ram) (a : UInt32) : UInt16 := (ram a).toUInt16 ||| (ram (a + 1)).toUInt16 <<< 8

def put_half (ram : Ram) (a : UInt32) (value : UInt16) : Ram :=
  Function.update (Function.update ram a value.toUInt8) (a + 1) (value >>> 8).toUInt8

/-- The bytes, one behind the other from `a` on. -/
def copy (ram : Ram) (a : UInt32) : List UInt8 → Ram
  | [] => ram
  | b :: bs => copy (Function.update ram a b) (a + 1) bs

/-- `count` bytes from `src` on, moved to `dest` on one after the other. -/
def move (ram : Ram) (dest src : UInt32) : Nat → Ram
  | 0 => ram
  | count + 1 => move (Function.update ram dest (ram src)) (dest + 1) (src + 1) count

/-- `count` bytes of `value` from `a` on. -/
def fill (ram : Ram) (a : UInt32) (value : UInt8) (count : Nat) : Ram :=
  fun b => if (b - a).toNat < count then value else ram b

/-- The words stored one behind the other from `a` on. -/
def Holds (ram : Ram) : UInt32 → List UInt32 → Prop
  | _, [] => True
  | a, w :: ws => word ram a = w ∧ Holds ram (a + 4) ws

/-- Two distances from a base, one behind the other. -/
theorem add_add_ofNat (base : UInt32) (m n : Nat) :
    base + UInt32.ofNat m + UInt32.ofNat n = base + UInt32.ofNat (n + m) := by
  rw [UInt32.ofNat_add, UInt32.add_assoc, UInt32.add_comm (UInt32.ofNat m)]

/-- The low bits of an address are its place in a page of 4096 bytes. -/
theorem and_fff (a : UInt32) : a &&& 0xfff = 0 ↔ a.toNat % 4096 = 0 := by
  rw [← UInt32.toNat_inj, UInt32.toNat_and]
  exact iff_of_eq (congrArg (· = 0) (Nat.and_two_pow_sub_one_eq_mod a.toNat 12))

theorem bytes_word (value : UInt32) :
    value.toUInt8.toUInt32 ||| (value >>> 8).toUInt8.toUInt32 <<< 8 |||
      (value >>> 16).toUInt8.toUInt32 <<< 16 ||| (value >>> 24).toUInt8.toUInt32 <<< 24 = value := by
  apply UInt32.toBitVec_inj.mp
  apply BitVec.eq_of_getLsbD_eq
  intro i hi
  simp [-UInt32.toUInt32_toUInt8]
  grind

/-- What is stored as a word is read back as one. -/
@[simp] theorem word_put (ram : Ram) (a value : UInt32) : word (put ram a value) a = value := by
  have hne : ∀ k l : UInt32, k ≠ l → a + k ≠ a + l := fun k l h h' => h ((UInt32.add_right_inj a).mp h')
  have hne0 : ∀ k : UInt32, 0 ≠ k → a ≠ a + k := by
    intro k h
    have h' := hne 0 k h
    rwa [UInt32.add_zero] at h'
  unfold word put
  simp only [Function.update_self,
    Function.update_of_ne (hne0 1 (by decide)), Function.update_of_ne (hne0 2 (by decide)),
    Function.update_of_ne (hne0 3 (by decide)), Function.update_of_ne (hne 1 2 (by decide)),
    Function.update_of_ne (hne 1 3 (by decide)), Function.update_of_ne (hne 2 3 (by decide))]
  exact bytes_word value

/-- What is nearer than a word to the end of the address space, seen from behind a word. -/
theorem distance_behind {a b : UInt32} (h : (b - (a + 4)).toNat + 4 < 2 ^ 32) :
    (b - a).toNat = (b - (a + 4)).toNat + 4 := by
  have hsplit : b - a = b - (a + 4) + 4 := by grind
  have hfour : UInt32.toNat 4 = 4 := rfl
  rw [hsplit, UInt32.toNat_add, hfour, Nat.mod_eq_of_lt h]

/-- Only the four bytes of the word change. -/
theorem put_apart {ram : Ram} {a b value : UInt32} (h : 4 ≤ (b - a).toNat) : put ram a value b = ram b := by
  have hne : ∀ k : UInt32, k.toNat < 4 → b ≠ a + k := by
    rintro k hk rfl
    rw [UInt32.add_comm, UInt32.add_sub_cancel] at h
    omega
  have hne0 := hne 0 (by decide)
  rw [UInt32.add_zero] at hne0
  unfold put
  rw [Function.update_of_ne (hne 3 (by decide)), Function.update_of_ne (hne 2 (by decide)),
    Function.update_of_ne (hne 1 (by decide)), Function.update_of_ne hne0]

theorem word_congr {ram ram' : Ram} {a : UInt32} (h : ∀ k : UInt32, k.toNat < 4 → ram' (a + k) = ram (a + k)) :
    word ram' a = word ram a := by
  have h0 := h 0 (by decide)
  rw [UInt32.add_zero] at h0
  unfold word
  rw [h0, h 1 (by decide), h 2 (by decide), h 3 (by decide)]

/-- The distance from `b` on to what is `k` behind `a`, unless that is around the end. -/
theorem distance_add {a b : UInt32} (k : UInt32) (h : (a - b).toNat + k.toNat < 2 ^ 32) :
    (a + k - b).toNat = (a - b).toNat + k.toNat := by
  have hsplit : a + k - b = (a - b) + k := by grind
  rw [hsplit, UInt32.toNat_add, Nat.mod_eq_of_lt h]

/-- A word apart from the one that is stored keeps its value. -/
theorem word_put_apart {ram : Ram} {a b value : UInt32} (h : 4 ≤ (b - a).toNat)
    (h' : (b - a).toNat ≤ 2 ^ 32 - 4) : word (put ram a value) b = word ram b := by
  apply word_congr
  intro k hk
  apply put_apart
  rw [distance_add k (by omega)]
  omega

theorem distance_ne_zero {a b : UInt32} (h : b ≠ a) : (b - a).toNat ≠ 0 := by
  intro hzero
  have heq : b - a = 0 := UInt32.toNat_inj.mp hzero
  exact h (by grind)

/-- From the next byte on, the distance to another byte is one less. -/
theorem distance_next {a b : UInt32} (h : b ≠ a) : (b - (a + 1)).toNat = (b - a).toNat - 1 := by
  have hsplit : b - (a + 1) = b - a - 1 := by grind
  have hpos := distance_ne_zero h
  have hle : (1 : UInt32) ≤ b - a := by
    rw [UInt32.le_iff_toNat_le, UInt32.toNat_one]
    omega
  rw [hsplit, UInt32.toNat_sub_of_le _ _ hle, UInt32.toNat_one]

theorem copy_apart {ram : Ram} {bs : List UInt8} {a b : UInt32} (hlen : bs.length ≤ 2 ^ 32)
    (h : bs.length ≤ (b - a).toNat) : copy ram a bs b = ram b := by
  induction bs generalizing ram a with
  | nil => rfl
  | cons v bs ih =>
    rw [List.length_cons] at hlen h
    have hne : b ≠ a := by
      rintro rfl
      rw [UInt32.sub_self, UInt32.toNat_zero] at h
      omega
    have hnext := distance_next hne
    change copy (Function.update ram a v) (a + 1) bs b = ram b
    rw [ih (by omega) (by omega), Function.update_of_ne hne]

/-- What is moved between areas that have no byte in common. -/
theorem move_apply {count : Nat} (hcount : count ≤ 2 ^ 32) (ram : Ram) (dest src a : UInt32)
    (hapart : ∀ i < count, ∀ j < count, src + UInt32.ofNat i ≠ dest + UInt32.ofNat j) :
    move ram dest src count a = if (a - dest).toNat < count then ram (src + (a - dest)) else ram a := by
  induction count generalizing dest src ram with
  | zero => rfl
  | succ count ih =>
    have hnext : ∀ (p : UInt32) i, p + 1 + UInt32.ofNat i = p + UInt32.ofNat (i + 1) := fun p => add_add_ofNat p 1
    have hrest : ∀ i < count, ∀ j < count, src + 1 + UInt32.ofNat i ≠ dest + 1 + UInt32.ofNat j := by
      intro i hi j hj
      rw [hnext, hnext]
      exact hapart (i + 1) (Nat.succ_lt_succ hi) (j + 1) (Nat.succ_lt_succ hj)
    have hsrc : src + 1 + (a - (dest + 1)) = src + (a - dest) := by grind
    have hlt := (a - dest).toNat_lt
    unfold move
    rw [ih (by omega) _ _ _ hrest, hsrc]
    by_cases hfirst : a = dest
    · subst hfirst
      have hback : (a - (a + 1)).toNat = 2 ^ 32 - 1 := by
        have hsplit : a - (a + 1) = 0 - 1 := by grind
        rw [hsplit]
        rfl
      rw [hback, if_neg (by omega), Function.update_self, UInt32.sub_self, UInt32.add_zero, UInt32.toNat_zero,
        if_pos (Nat.succ_pos count)]
    · have hpos := distance_ne_zero hfirst
      have hpred := distance_next hfirst
      rw [hpred, Function.update_of_ne hfirst]
      by_cases hin : (a - dest).toNat < count + 1
      · have hold : src + (a - dest) ≠ dest := by
          have h := hapart (a - dest).toNat hin 0 (Nat.succ_pos count)
          rwa [UInt32.ofNat_toNat, show dest + UInt32.ofNat 0 = dest by simp] at h
        rw [if_pos (by omega), if_pos hin, Function.update_of_ne hold]
      · rw [if_neg (by omega), if_neg hin]

theorem Holds.congr {ram ram' : Ram} {ws : List UInt32} {a : UInt32} (hlen : 4 * ws.length ≤ 2 ^ 32)
    (hsame : ∀ b, (b - a).toNat < 4 * ws.length → ram' b = ram b) (h : Holds ram a ws) :
    Holds ram' a ws := by
  induction ws generalizing a with
  | nil => trivial
  | cons w ws ih =>
    rw [List.length_cons] at hlen hsame
    obtain ⟨hw, hws⟩ := h
    refine ⟨?_, ?_⟩
    · rw [← hw]
      apply word_congr
      intro k hk
      apply hsame
      rw [UInt32.add_comm, UInt32.add_sub_cancel]
      omega
    · apply ih (by omega) _ hws
      intro b hb
      apply hsame
      rw [distance_behind (by omega)]
      omega

/-- Each word is at its place. -/
theorem Holds.get {ram : Ram} {ws : List UInt32} {a : UInt32} (h : Holds ram a ws) {i : Nat} (hi : i < ws.length) :
    word ram (a + 4 * UInt32.ofNat i) = ws[i] := by
  induction ws generalizing a i with
  | nil => exact absurd hi (Nat.not_lt_zero i)
  | cons w ws ih =>
    obtain ⟨hw, hws⟩ := h
    cases i with
    | zero =>
      have hzero : a + 4 * UInt32.ofNat 0 = a := by simp
      rw [hzero]
      exact hw
    | succ i =>
      have hstep : a + 4 * UInt32.ofNat (i + 1) = a + 4 + 4 * UInt32.ofNat i := by
        rw [UInt32.ofNat_add]
        have hone : UInt32.ofNat 1 = 1 := rfl
        rw [hone]
        grind
      rw [hstep]
      exact ih hws (Nat.lt_of_succ_lt_succ hi)

/-- One more word in front of the others. -/
theorem Holds.put {ram : Ram} {ws : List UInt32} {a value : UInt32} (hlen : 4 * (ws.length + 1) ≤ 2 ^ 32)
    (h : Holds ram (a + 4) ws) : Holds (put ram a value) a (value :: ws) := by
  refine ⟨word_put ram a value, ?_⟩
  apply h.congr (by omega)
  intro b hb
  apply put_apart
  rw [distance_behind (by omega)]
  omega

/-- A word of them is replaced. -/
theorem Holds.set {ram : Ram} {ws : List UInt32} {a : UInt32} (value : UInt32) {i : Nat} (hi : i < ws.length)
    (hlen : 4 * ws.length ≤ 2 ^ 32) (h : Holds ram a ws) :
    Holds (Words.put ram (a + 4 * UInt32.ofNat i) value) a (ws.set i value) := by
  induction ws generalizing a i with
  | nil => exact absurd hi (Nat.not_lt_zero i)
  | cons w ws ih =>
    rw [List.length_cons] at hi hlen
    obtain ⟨hw, hws⟩ := h
    cases i with
    | zero =>
      have hzero : a + 4 * UInt32.ofNat 0 = a := by simp
      rw [hzero]
      exact Holds.put (by omega) hws
    | succ i =>
      have hstep : a + 4 * UInt32.ofNat (i + 1) = a + 4 + 4 * UInt32.ofNat i := by
        rw [UInt32.ofNat_add]
        have hone : UInt32.ofNat 1 = 1 := rfl
        rw [hone]
        grind
      rw [hstep]
      refine ⟨?_, ih (by omega) (by omega) hws⟩
      rw [← hw]
      apply word_congr
      intro k hk
      apply put_apart
      have hfar : (a + k - (a + 4 + 4 * UInt32.ofNat i)).toNat = 2 ^ 32 - 4 - 4 * i + k.toNat := by
        have hsplit : a + k - (a + 4 + 4 * UInt32.ofNat i) = k - UInt32.ofNat (4 + 4 * i) := by
          rw [UInt32.ofNat_add, UInt32.ofNat_mul]
          have hfour : UInt32.ofNat 4 = 4 := rfl
          rw [hfour]
          grind
        have hlt : 4 + 4 * i < 2 ^ 32 := by omega
        rw [hsplit, UInt32.toNat_sub, UInt32.toNat_ofNat_of_lt' hlt, Nat.mod_eq_of_lt (by omega)]
        omega
      rw [hfar]
      omega

end Words
