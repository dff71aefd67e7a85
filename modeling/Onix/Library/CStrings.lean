import Onix.Library.Words

/-! Strings of bytes that end with a zero, in a memory of bytes. -/

namespace Words

/-- The bytes from `a` on, up to the first zero. -/
def IsString (ram : Ram) : UInt32 → List UInt8 → Prop
  | a, [] => ram a = 0
  | a, b :: bs => ram a = b ∧ b ≠ 0 ∧ IsString ram (a + 1) bs

instance decidableIsString (ram : Ram) : ∀ a s, Decidable (IsString ram a s)
  | a, [] => inferInstanceAs (Decidable (ram a = 0))
  | a, b :: bs =>
    have := decidableIsString ram (a + 1) bs
    inferInstanceAs (Decidable (ram a = b ∧ b ≠ 0 ∧ IsString ram (a + 1) bs))

section IsString

variable {ram ram' : Ram} {a : UInt32} {s t : List UInt8}

theorem add_ofNat_zero (a : UInt32) : a + UInt32.ofNat 0 = a := UInt32.add_zero a

theorem add_one_ofNat (a : UInt32) (i : ℕ) : a + 1 + UInt32.ofNat i = a + UInt32.ofNat (i + 1) := add_add_ofNat a 1 i

/-- The bytes and the zero behind them, at their places. -/
theorem isString_iff : IsString ram a s ↔
    (∀ i (hi : i < s.length), ram (a + UInt32.ofNat i) = s[i] ∧ s[i] ≠ 0) ∧ ram (a + UInt32.ofNat s.length) = 0 := by
  induction s generalizing a with
  | nil =>
    have hplace : ram (a + UInt32.ofNat ([] : List UInt8).length) = ram a := congrArg ram (add_ofNat_zero a)
    rw [hplace]
    constructor
    · intro h
      exact ⟨fun i hi => absurd hi (Nat.not_lt_zero i), h⟩
    · exact And.right
  | cons b bs ih =>
    have hplace : ram (a + UInt32.ofNat (b :: bs).length) = ram (a + 1 + UInt32.ofNat bs.length) :=
      congrArg ram (add_one_ofNat a bs.length).symm
    unfold IsString
    rw [ih, hplace]
    constructor
    · rintro ⟨hb, hne, hbs, hend⟩
      refine ⟨?_, hend⟩
      rintro (- | i) hi
      · rw [add_ofNat_zero]
        exact ⟨hb, hne⟩
      · rw [← add_one_ofNat]
        exact hbs i (Nat.lt_of_succ_lt_succ hi)
    · rintro ⟨hbs, hend⟩
      obtain ⟨hb, hne⟩ := hbs 0 (Nat.succ_pos _)
      rw [add_ofNat_zero] at hb
      refine ⟨hb, hne, ?_, hend⟩
      intro i hi
      rw [add_one_ofNat]
      exact hbs (i + 1) (Nat.succ_lt_succ hi)

theorem IsString.byte_ne_zero (h : IsString ram a s) {i : ℕ} (hi : i < s.length) : ram (a + UInt32.ofNat i) ≠ 0 := by
  obtain ⟨hbyte, hne⟩ := (isString_iff.mp h).1 i hi
  rw [hbyte]
  exact hne

theorem IsString.terminator (h : IsString ram a s) : ram (a + UInt32.ofNat s.length) = 0 := (isString_iff.mp h).2

theorem IsString.unique (h : IsString ram a s) (h' : IsString ram a t) : s = t := by
  induction s generalizing a t with
  | nil =>
    cases t with
    | nil => rfl
    | cons c cs => exact absurd (h'.1.symm.trans h) h'.2.1
  | cons b bs ih =>
    cases t with
    | nil => exact absurd (h.1.symm.trans h') h.2.1
    | cons c cs => rw [← h.1, ← h'.1, ih h.2.2 h'.2.2]

/-- A string is shorter than the memory, where its zero has a place too. -/
theorem IsString.length_lt (h : IsString ram a s) : s.length < 2 ^ 32 := by
  by_contra hlong
  have hplace : UInt32.ofNat (s.length % 2 ^ 32) = UInt32.ofNat s.length := by
    apply UInt32.toNat_inj.mp
    rw [UInt32.toNat_ofNat', UInt32.toNat_ofNat', Nat.mod_mod]
  apply h.byte_ne_zero (i := s.length % 2 ^ 32) (by omega)
  rw [hplace]
  exact h.terminator

/-- What follows in a string is a string. -/
theorem IsString.drop (h : IsString ram a s) {i : ℕ} (hi : i ≤ s.length) :
    IsString ram (a + UInt32.ofNat i) (s.drop i) := by
  induction i generalizing a s with
  | zero =>
    rw [add_ofNat_zero]
    exact h
  | succ i ih =>
    cases s with
    | nil => exact absurd hi (Nat.not_succ_le_zero i)
    | cons b bs =>
      rw [← add_one_ofNat]
      exact ih h.2.2 (Nat.le_of_succ_le_succ hi)

theorem IsString.append (hs : ∀ i (hi : i < s.length), ram (a + UInt32.ofNat i) = s[i] ∧ s[i] ≠ 0)
    (ht : IsString ram (a + UInt32.ofNat s.length) t) : IsString ram a (s ++ t) := by
  induction s generalizing a with
  | nil =>
    rw [List.length_nil, add_ofNat_zero] at ht
    exact ht
  | cons b bs ih =>
    obtain ⟨hb, hne⟩ := hs 0 (Nat.succ_pos _)
    rw [add_ofNat_zero] at hb
    rw [List.length_cons, ← add_one_ofNat] at ht
    refine ⟨hb, hne, ih ?_ ht⟩
    intro i hi
    rw [add_one_ofNat]
    exact hs (i + 1) (Nat.succ_lt_succ hi)

theorem IsString.congr (h : IsString ram a s)
    (hsame : ∀ i ≤ s.length, ram' (a + UInt32.ofNat i) = ram (a + UInt32.ofNat i)) :
    IsString ram' a s := by
  obtain ⟨hbytes, hend⟩ := isString_iff.mp h
  apply isString_iff.mpr
  refine ⟨?_, ?_⟩
  · intro i hi
    rw [hsame i hi.le]
    exact hbytes i hi
  · rw [hsame s.length le_rfl]
    exact hend

/-- There is a string where there is a zero. -/
theorem exists_isString_of_zero {i : ℕ} (h : ram (a + UInt32.ofNat i) = 0) : ∃ s, IsString ram a s ∧ s.length ≤ i := by
  induction i generalizing a with
  | zero =>
    rw [add_ofNat_zero] at h
    exact ⟨[], h, le_rfl⟩
  | succ i ih =>
    by_cases hzero : ram a = 0
    · exact ⟨[], hzero, Nat.zero_le _⟩
    · rw [← add_one_ofNat] at h
      obtain ⟨s, hs, hlen⟩ := ih h
      exact ⟨ram a :: s, ⟨rfl, hzero, hs⟩, Nat.succ_le_succ hlen⟩

end IsString

section Distance

variable {a b : UInt32}

/-- A byte is where its distance says. -/
theorem add_distance (a b : UInt32) : a + UInt32.ofNat (b - a).toNat = b := by
  rw [UInt32.ofNat_toNat]
  grind

/-- The rest of the way, behind the distance. -/
theorem add_rest {n : ℕ} (h : (b - a).toNat ≤ n) : b + UInt32.ofNat (n - (b - a).toNat) = a + UInt32.ofNat n := by
  have hsplit : a + UInt32.ofNat (b - a).toNat + UInt32.ofNat (n - (b - a).toNat) = a + UInt32.ofNat n := by
    rw [add_add_ofNat, Nat.sub_add_cancel h]
  rwa [add_distance] at hsplit

theorem eq_add_iff {i : ℕ} (hi : i < 2 ^ 32) : b = a + UInt32.ofNat i ↔ (b - a).toNat = i := by
  constructor
  · rintro rfl
    rw [UInt32.add_comm, UInt32.add_sub_cancel, UInt32.toNat_ofNat_of_lt' hi]
  · rintro rfl
    exact (add_distance a b).symm

/-- Around the memory there and back. -/
theorem distance_back (h : a ≠ b) : (a - b).toNat + (b - a).toNat = 2 ^ 32 := by
  have hsplit : a - b = 0 - (b - a) := by grind
  have hpos : 0 < (b - a).toNat := by
    rw [Nat.pos_iff_ne_zero, ← UInt32.toNat_zero, Ne, UInt32.toNat_inj]
    intro hzero
    apply h
    grind
  have hlt := (b - a).toNat_lt
  rw [hsplit, UInt32.toNat_sub, UInt32.toNat_zero, Nat.mod_eq_of_lt (by omega)]
  omega

end Distance

/-- Each byte of a copy is at its place. -/
theorem copy_get {ram : Ram} {bs : List UInt8} {a : UInt32} (hlen : bs.length ≤ 2 ^ 32) {i : ℕ} (hi : i < bs.length) :
    copy ram a bs (a + UInt32.ofNat i) = bs[i] := by
  induction bs generalizing ram a i with
  | nil => exact absurd hi (Nat.not_lt_zero i)
  | cons b bs ih =>
    rw [List.length_cons] at hlen hi
    cases i with
    | zero =>
      change copy (Function.update ram a b) (a + 1) bs (a + UInt32.ofNat 0) = b
      rw [add_ofNat_zero, copy_apart (by omega), Function.update_self]
      have hlast : (a - (a + 1)).toNat = 2 ^ 32 - 1 := by
        have hsplit : a - (a + 1) = 0 - 1 := by grind
        rw [hsplit]
        rfl
      omega
    | succ i =>
      rw [← add_one_ofNat]
      exact ih (by omega) (Nat.lt_of_succ_lt_succ hi)

theorem IsString.ne_zero {ram : Ram} {a : UInt32} {s : List UInt8} (h : IsString ram a s) : ∀ c ∈ s, c ≠ 0 := by
  intro c hc
  obtain ⟨i, hi, rfl⟩ := List.mem_iff_getElem.mp hc
  exact ((isString_iff.mp h).1 i hi).2

/-- Bytes that are not zero are a string once they are copied with a zero. -/
theorem copy_isString (ram : Ram) (a : UInt32) {s : List UInt8} (hne : ∀ c ∈ s, c ≠ 0) (hlen : s.length < 2 ^ 32) :
    IsString (copy ram a (s ++ [0])) a s := by
  have hall : (s ++ [0]).length = s.length + 1 := List.length_append
  apply isString_iff.mpr
  refine ⟨?_, ?_⟩
  · intro i hi
    rw [copy_get (by omega) (by omega), List.getElem_append_left hi]
    exact ⟨rfl, hne _ (List.getElem_mem hi)⟩
  · rw [copy_get (by omega) (by omega), List.getElem_append_right le_rfl]
    simp only [Nat.sub_self, List.getElem_cons_zero]

theorem copy_append (ram : Ram) (a : UInt32) (s t : List UInt8) :
    copy ram a (s ++ t) = copy (copy ram a s) (a + UInt32.ofNat s.length) t := by
  induction s generalizing ram a with
  | nil =>
    rw [List.length_nil, add_ofNat_zero]
    rfl
  | cons b bs ih =>
    rw [List.length_cons, ← add_one_ofNat]
    exact ih (Function.update ram a b) (a + 1)

end Words
