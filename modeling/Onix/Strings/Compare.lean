import Mathlib.Data.List.Lex
import Onix.Strings.Copy

namespace onix.CString

open Words

/-- The value of a `char`, which has a sign -/
def char (c : u8) : ℤ := c.toInt8.toInt

/-- `l < r ? -1 : l > r` -/
def differ (l r : u8) : Int32 := if char l < char r then -1 else if char l > char r then 1 else 0

def strcmp : ℕ → u32 → u32 → Ram → Option Int32
  | 0, _, _, _ => none
  | turns + 1, lhs, rhs, ram =>
    if ram lhs = ram rhs ∧ ram lhs ≠ EOS ∧ ram rhs ≠ EOS then strcmp turns (lhs + 1) (rhs + 1) ram
    else some (differ (ram lhs) (ram rhs))

/-- `memcmp`, with the count down to zero -/
def memcmp : ℕ → u32 → u32 → Ram → Int32
  | 0, _, _, _ => 0
  | count + 1, lptr, rptr, ram =>
    if ram lptr = ram rptr then memcmp count (lptr + 1) (rptr + 1) ram else differ (ram lptr) (ram rptr)

/-- What an order says of two values, in the way of `strcmp` -/
def three_way {α : Type} [LinearOrder α] (a b : α) : Int32 := if a < b then -1 else if b < a then 1 else 0

/-- A string as `strcmp` compares it, its zero included -/
def key (s : List u8) : List ℤ := (s ++ [0]).map char

section ThreeWay

variable {α : Type} [LinearOrder α] {a b c : α}

theorem three_way_eq_zero : three_way a b = 0 ↔ a = b := by
  unfold three_way
  split_ifs with hlt hgt
  · exact iff_of_false (by decide) hlt.ne
  · exact iff_of_false (by decide) hgt.ne'
  · exact iff_of_true rfl (le_antisymm (not_lt.mp hgt) (not_lt.mp hlt))

theorem three_way_swap (a b : α) : three_way b a = - three_way a b := by
  rcases lt_trichotomy a b with h | h | h
  · unfold three_way
    rw [if_neg h.asymm, if_pos h, if_pos h]
    rfl
  · unfold three_way
    rw [h, if_neg (lt_irrefl b), if_neg (lt_irrefl b)]
    rfl
  · unfold three_way
    rw [if_pos h, if_neg h.asymm, if_pos h]

theorem three_way_congr {β : Type} [LinearOrder β] {d e : β} (h : a < b ↔ d < e) (h' : b < a ↔ e < d) :
    three_way a b = three_way d e := if_congr h rfl (if_congr h' rfl rfl)

theorem three_way_cons (a : α) (as bs : List α) : three_way (a :: as) (a :: bs) = three_way as bs := by
  have hcons : ∀ cs ds : List α, a :: cs < a :: ds ↔ cs < ds := fun cs ds => List.cons_lt_cons_self
  exact three_way_congr (hcons as bs) (hcons bs as)

theorem three_way_cons_ne (h : a ≠ b) (as bs : List α) : three_way (a :: as) (b :: bs) = three_way a b := by
  have hcons : ∀ {c d : α} {cs ds : List α}, c ≠ d → (c :: cs < d :: ds ↔ c < d) := by
    intro c d cs ds hne
    rw [List.cons_lt_cons_iff]
    exact or_iff_left fun heq => hne heq.1
  exact three_way_congr (hcons h) (hcons h.symm)

end ThreeWay

section Characters

theorem char_injective : Function.Injective char := by
  intro c d h
  have hsigned : c.toInt8 = d.toInt8 := Int8.toInt_inj.mp h
  have hbyte := congrArg Int8.toUInt8 hsigned
  rwa [UInt8.toUInt8_toInt8, UInt8.toUInt8_toInt8] at hbyte

theorem differ_eq (l r : u8) : differ l r = three_way (char l) (char r) := rfl

theorem key_injective : Function.Injective key := by
  intro s t h
  exact List.append_cancel_right (List.map_injective_iff.mpr char_injective h)

theorem key_cons (b : u8) (s : List u8) : key (b :: s) = char b :: key s := rfl

end Characters

section Compare

variable {ram : Ram} {lhs rhs : u32} {s t : List u8}

theorem strcmp_returns (hs : IsString ram lhs s) (ht : IsString ram rhs t) {turns : ℕ} (hturns : s.length < turns) :
    strcmp turns lhs rhs ram = some (three_way (key s) (key t)) := by
  induction turns generalizing lhs rhs s t with
  | zero => exact absurd hturns (Nat.not_lt_zero _)
  | succ turns ih =>
    unfold strcmp
    -- the first bytes of the two, which may be their zeros
    by_cases hsame : ram lhs = ram rhs
    · by_cases hzero : ram lhs = 0
      · obtain rfl := hs.unique (show IsString ram lhs [] from hzero)
        obtain rfl := ht.unique (show IsString ram rhs [] from hsame.symm.trans hzero)
        rw [if_neg fun h => h.2.1 hzero, hsame, differ_eq, three_way_eq_zero.mpr rfl, three_way_eq_zero.mpr rfl]
      · cases s with
        | nil => exact absurd hs hzero
        | cons b bs =>
          cases t with
          | nil => exact absurd (hsame.trans ht) hzero
          | cons c cs =>
            have hnext := ih hs.2.2 ht.2.2 (Nat.lt_of_succ_lt_succ hturns)
            have hbytes : b = c := by rw [← hs.1, ← ht.1, hsame]
            rw [if_pos ⟨hsame, hzero, hsame ▸ hzero⟩, hnext, key_cons, key_cons, hbytes, three_way_cons]
    · have hfirst : ∀ {a : u32} {u : List u8}, IsString ram a u → ∃ rest, key u = char (ram a) :: rest := by
        intro a u hu
        cases u with
        | nil =>
          have hzero : ram a = 0 := hu
          exact ⟨[], by rw [hzero]; rfl⟩
        | cons b bs => exact ⟨key bs, by rw [key_cons, hu.1]⟩
      obtain ⟨as, has⟩ := hfirst hs
      obtain ⟨bs, hbs⟩ := hfirst ht
      rw [if_neg fun h => hsame h.1, has, hbs, three_way_cons_ne (char_injective.ne hsame), differ_eq]

/-- The bytes that `memcmp` compares -/
def bytes (ram : Ram) (a : u32) (count : ℕ) : List u8 := (List.range count).map fun i => ram (a + UInt32.ofNat i)

theorem bytes_succ (ram : Ram) (a : u32) (count : ℕ) : bytes ram a (count + 1) = ram a :: bytes ram (a + 1) count := by
  unfold bytes
  rw [List.range_succ_eq_map, List.map_cons, List.map_map, add_ofNat_zero]
  congr 1
  apply List.map_congr_left
  intro i _
  exact congrArg ram (add_one_ofNat a i).symm

theorem memcmp_eq (count : ℕ) (lptr rptr : u32) (ram : Ram) :
    memcmp count lptr rptr ram = three_way ((bytes ram lptr count).map char) ((bytes ram rptr count).map char) := by
  induction count generalizing lptr rptr with
  | zero => exact (three_way_eq_zero.mpr rfl).symm
  | succ count ih =>
    unfold memcmp
    rw [bytes_succ, bytes_succ, List.map_cons, List.map_cons]
    split_ifs with hsame
    · rw [ih, hsame, three_way_cons]
    · rw [three_way_cons_ne (char_injective.ne hsame), differ_eq]

/-- Up to the zero of one of two strings, `memcmp` compares them as `strcmp` does. -/
theorem memcmp_strings (hs : IsString ram lhs s) (ht : IsString ram rhs t) :
    memcmp (s.length + 1) lhs rhs ram = three_way (key s) (key t) := by
  have hreturns := strcmp_returns hs ht (Nat.lt_succ_self s.length)
  suffices h : ∀ {s : List u8} {lhs rhs : u32} {c : Int32}, IsString ram lhs s →
      strcmp (s.length + 1) lhs rhs ram = some c → memcmp (s.length + 1) lhs rhs ram = c from h hs hreturns
  intro s
  induction s with
  | nil =>
    intro lhs rhs c hs hc
    have hzero : ram lhs = 0 := hs
    unfold strcmp at hc
    rw [if_neg fun h => h.2.1 hzero] at hc
    unfold memcmp
    split_ifs with hsame
    · rw [← Option.some.inj hc, hsame]
      exact (three_way_eq_zero.mpr rfl).symm
    · exact Option.some.inj hc
  | cons b bs ih =>
    intro lhs rhs c hs hc
    have hne : ram lhs ≠ 0 := by
      rw [hs.1]
      exact hs.2.1
    unfold strcmp at hc
    unfold memcmp
    by_cases hsame : ram lhs = ram rhs
    · rw [if_pos ⟨hsame, hne, hsame ▸ hne⟩] at hc
      rw [if_pos hsame]
      exact ih hs.2.2 hc
    · rw [if_neg fun h => hsame h.1] at hc
      rw [if_neg hsame]
      exact Option.some.inj hc

theorem strcmp_mono {turns turns' : ℕ} {c : Int32} (hle : turns ≤ turns') (h : strcmp turns lhs rhs ram = some c) :
    strcmp turns' lhs rhs ram = some c := by
  induction turns generalizing lhs rhs turns' with
  | zero => cases h
  | succ turns ih =>
    obtain ⟨more, rfl⟩ := Nat.exists_eq_add_of_le' hle
    change strcmp (more + turns + 1) lhs rhs ram = some c
    unfold strcmp at h ⊢
    split_ifs at h ⊢ with hgo
    · exact ih (Nat.le_add_left _ _) h
    · exact h

theorem strcmp_iff (hs : IsString ram lhs s) (ht : IsString ram rhs t) (c : Int32) :
    (∃ turns, strcmp turns lhs rhs ram = some c) ↔ c = three_way (key s) (key t) := by
  constructor
  · rintro ⟨turns, hturns⟩
    have hlong : s.length < max turns (s.length + 1) := by omega
    have hreturns := strcmp_returns hs ht hlong
    rw [strcmp_mono (Nat.le_max_left _ _) hturns] at hreturns
    exact Option.some.inj hreturns
  · rintro rfl
    exact ⟨s.length + 1, strcmp_returns hs ht (Nat.lt_succ_self _)⟩

/-- `strcmp` orders the strings as the lists of their signed characters, the zero included; no two strings
are alike to it, and `memcmp` up to the zero of the one says the same. -/
theorem strcmp_orders (hs : IsString ram lhs s) (ht : IsString ram rhs t) :
    (∀ c, (∃ turns, strcmp turns lhs rhs ram = some c) ↔ c = three_way (key s) (key t)) ∧
    (three_way (key s) (key t) = 0 ↔ s = t) ∧
    (three_way (key t) (key s) = - three_way (key s) (key t)) ∧
    memcmp (s.length + 1) lhs rhs ram = three_way (key s) (key t) ∧
    ∀ count, memcmp count lhs rhs ram = three_way ((bytes ram lhs count).map char) ((bytes ram rhs count).map char) := by
  refine ⟨strcmp_iff hs ht, ?_, three_way_swap _ _, memcmp_strings hs ht, fun count => memcmp_eq count lhs rhs ram⟩
  exact three_way_eq_zero.trans key_injective.eq_iff

/-- `"a\xff"` comes before `"a"`, its last character being less than the zero. -/
theorem strcmp_orders_signed :
    ∃ turns, strcmp turns 16 32 (copy (copy (fun _ => 0) 16 [97, 255, 0]) 32 [97, 0]) = some (-1) := by
  have hlhs : IsString (copy (copy (fun _ => 0) 16 [97, 255, 0]) 32 [97, 0]) 16 [97, 255] := by decide
  have hrhs : IsString (copy (copy (fun _ => 0) 16 [97, 255, 0]) 32 [97, 0]) 32 [97] := by decide
  exact ((strcmp_orders hlhs hrhs).1 (-1)).mpr (by decide)

end Compare

end onix.CString
