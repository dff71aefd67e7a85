import Onix.Library.CStrings
import Onix.Memory.State

namespace onix.CString

open Words

def EOS : u8 := 0

/-- The loop of `strcpy`, which is the second one of `strcat` too; `none` where the turns have not been enough. -/
def copies : ℕ → u32 → u32 → Ram → Option Ram
  | 0, _, _, _ => none
  | turns + 1, ptr, src, ram =>
    let ram := Function.update ram ptr (ram src)
    if ram src = EOS then some ram else copies turns (ptr + 1) (src + 1) ram

def strcpy (turns : ℕ) (dest src : u32) (ram : Ram) : Option (u32 × Ram) := do
  let ram ← copies turns dest src ram
  return (dest, ram)

/-- The loop of `strlen`, which is the first one of `strcat` too. -/
def skips : ℕ → u32 → Ram → Option u32
  | 0, _, _ => none
  | turns + 1, ptr, ram => if ram ptr = EOS then some ptr else skips turns (ptr + 1) ram

def strlen (turns : ℕ) (str : u32) (ram : Ram) : Option u32 := do
  let ptr ← skips turns str ram
  return ptr - str

/-- The loop of `strnlen`, with `maxlen` down to zero -/
def skips_most : ℕ → u32 → Ram → u32
  | 0, ptr, _ => ptr
  | maxlen + 1, ptr, ram => if ram ptr = EOS then ptr else skips_most maxlen (ptr + 1) ram

def strnlen (str maxlen : u32) (ram : Ram) : u32 := skips_most maxlen.toNat str ram - str

def strcat (turns : ℕ) (dest src : u32) (ram : Ram) : Option (u32 × Ram) := do
  let ptr ← skips turns dest ram
  let ram ← copies turns ptr src ram
  return (dest, ram)

/-- The loop of `strncpy`, and whether the function returns from it. -/
def strncpy_loop : ℕ → u32 → u32 → Ram → Bool × Ram
  | 0, _, _, ram => (false, ram)
  | left + 1, ptr, src, ram =>
    let ram := Function.update ram ptr (ram src)
    if ram src = EOS then (true, ram) else strncpy_loop left (ptr + 1) (src + 1) ram

def strncpy (dest src count : u32) (ram : Ram) : u32 × Ram :=
  match strncpy_loop count.toNat dest src ram with
  | (true, ram) => (dest, ram)
  | (false, ram) => (dest, Function.update ram (dest + (count - 1)) EOS)

/-- Behind the start of the string, and not behind its end. -/
def Inside (src : u32) (s : List u8) (ptr : u32) : Prop := 0 < (ptr - src).toNat ∧ (ptr - src).toNat ≤ s.length

variable {ram : Ram} {src ptr dest : u32} {s t : List u8}

/-- The byte that has been copied is still at its place. -/
@[simp] theorem update_source (ram : Ram) (ptr src : u32) : Function.update ram ptr (ram src) src = ram src := by
  by_cases h : src = ptr
  · rw [h, Function.update_self]
  · exact Function.update_of_ne h _ _

theorem next_distance (ptr src : u32) : (ptr + 1) - (src + 1) = ptr - src := by grind

section Copies

/-- Up to the zero, unless it is overwritten before it is reached. -/
theorem copies_returns (h : IsString ram src s) (hinside : ¬ Inside src s ptr) :
    copies (s.length + 1) ptr src ram = some (copy ram ptr (s ++ [0])) := by
  induction s generalizing ram src ptr with
  | nil =>
    have hzero : ram src = 0 := h
    unfold copies
    simp only [update_source]
    rw [if_pos (show ram src = EOS from hzero), hzero]
    rfl
  | cons b bs ih =>
    have hlt := h.length_lt
    rw [List.length_cons] at hlt
    obtain ⟨hb, hne, hbs⟩ := h
    have hrest : IsString (Function.update ram ptr b) (src + 1) bs := by
      apply hbs.congr
      intro i hi
      apply Function.update_of_ne
      rw [add_one_ofNat, ne_comm, Ne, eq_add_iff (by omega)]
      intro hdist
      apply hinside
      unfold Inside
      rw [hdist, List.length_cons]
      omega
    have hapart : ¬ Inside (src + 1) bs (ptr + 1) := by
      rintro ⟨hpos, hle⟩
      rw [next_distance] at hpos hle
      exact hinside ⟨hpos, hle.trans (Nat.le_succ _)⟩
    unfold copies
    simp only [update_source]
    rw [hb, if_neg (show b ≠ EOS from hne)]
    exact ih hrest hapart

/-- A zero is never reached where there is none before the place that is written first. -/
theorem copies_endless (h : ∀ i, (ptr - src).toNat = 0 ∨ i < (ptr - src).toNat → ram (src + UInt32.ofNat i) ≠ 0)
    (turns : ℕ) : copies turns ptr src ram = none := by
  induction turns generalizing ram src ptr with
  | zero => rfl
  | succ turns ih =>
    have hfirst : ram src ≠ 0 := by
      have hzero := h 0 (Nat.eq_zero_or_pos _)
      rwa [add_ofNat_zero] at hzero
    unfold copies
    simp only [update_source]
    rw [if_neg (show ram src ≠ EOS from hfirst)]
    apply ih
    intro i hi
    rw [next_distance] at hi
    rw [add_one_ofNat]
    by_cases hwritten : src + UInt32.ofNat (i + 1) = ptr
    · rw [hwritten, Function.update_self]
      exact hfirst
    · rw [Function.update_of_ne hwritten]
      apply h
      rcases hi with hi | hi
      · exact Or.inl hi
      · have hlt := (ptr - src).toNat_lt
        have hne : (ptr - src).toNat ≠ i + 1 := fun heq => hwritten ((eq_add_iff (by omega)).mpr heq).symm
        omega

theorem copies_mono {turns turns' : ℕ} {ram' : Ram} (hle : turns ≤ turns')
    (h : copies turns ptr src ram = some ram') : copies turns' ptr src ram = some ram' := by
  induction turns generalizing ram src ptr turns' with
  | zero => cases h
  | succ turns ih =>
    obtain ⟨more, rfl⟩ := Nat.exists_eq_add_of_le' hle
    change copies (more + turns + 1) ptr src ram = some ram'
    unfold copies at h ⊢
    dsimp only at h ⊢
    split_ifs at h ⊢ with hend
    · exact h
    · exact ih (Nat.le_add_left _ _) h

theorem copies_iff (ptr src : u32) (ram ram' : Ram) : (∃ turns, copies turns ptr src ram = some ram') ↔
    ∃ s, IsString ram src s ∧ ¬ Inside src s ptr ∧ ram' = copy ram ptr (s ++ [0]) := by
  constructor
  · rintro ⟨turns, hturns⟩
    by_contra hnone
    have hendless : copies turns ptr src ram = none := by
      apply copies_endless
      intro i hi hzero
      obtain ⟨s, hs, hlen⟩ := exists_isString_of_zero hzero
      have hapart : ¬ Inside src s ptr := by
        rintro ⟨hpos, hle⟩
        omega
      have hreturns := copies_mono (Nat.le_max_right turns _) (copies_returns hs hapart)
      rw [copies_mono (Nat.le_max_left turns _) hturns] at hreturns
      exact hnone ⟨s, hs, hapart, Option.some.inj hreturns⟩
    rw [hendless] at hturns
    cases hturns
  · rintro ⟨s, hs, hapart, rfl⟩
    exact ⟨s.length + 1, copies_returns hs hapart⟩

theorem skips_iff (turns : ℕ) (ptr q : u32) (ram : Ram) : skips turns ptr ram = some q ↔
    ∃ t, IsString ram ptr t ∧ t.length < turns ∧ q = ptr + UInt32.ofNat t.length := by
  induction turns generalizing ptr with
  | zero =>
    constructor
    · intro h
      cases h
    · rintro ⟨t, -, hlt, -⟩
      exact absurd hlt (Nat.not_lt_zero _)
  | succ turns ih =>
    unfold skips
    split_ifs with hzero
    · constructor
      · intro h
        refine ⟨[], hzero, Nat.succ_pos _, ?_⟩
        rw [← Option.some.inj h]
        exact (add_ofNat_zero ptr).symm
      · rintro ⟨t, ht, -, rfl⟩
        rw [ht.unique (show IsString ram ptr [] from hzero)]
        exact congrArg some (add_ofNat_zero ptr).symm
    · rw [ih]
      constructor
      · rintro ⟨t, ht, hlt, rfl⟩
        exact ⟨ram ptr :: t, ⟨rfl, hzero, ht⟩, Nat.succ_lt_succ hlt, add_one_ofNat ptr t.length⟩
      · rintro ⟨t, ht, hlt, rfl⟩
        cases t with
        | nil => exact absurd ht hzero
        | cons c cs => exact ⟨cs, ht.2.2, Nat.lt_of_succ_lt_succ hlt, (add_one_ofNat ptr cs.length).symm⟩

/-- Up to the zero, or to the end of the room -/
theorem skips_most_eq (maxlen : ℕ) (ptr : u32) (ram : Ram) :
    ∃ n ≤ maxlen, skips_most maxlen ptr ram = ptr + UInt32.ofNat n ∧ (∀ i < n, ram (ptr + UInt32.ofNat i) ≠ 0) ∧
      (n = maxlen ∨ ram (ptr + UInt32.ofNat n) = 0) := by
  induction maxlen generalizing ptr with
  | zero => exact ⟨0, le_rfl, (add_ofNat_zero ptr).symm, fun i hi => absurd hi (Nat.not_lt_zero i), Or.inl rfl⟩
  | succ maxlen ih =>
    unfold skips_most
    split_ifs with hzero
    · refine ⟨0, Nat.zero_le _, (add_ofNat_zero ptr).symm, fun i hi => absurd hi (Nat.not_lt_zero i), Or.inr ?_⟩
      rw [add_ofNat_zero]
      exact hzero
    · obtain ⟨n, hn, hskips, hbytes, hend⟩ := ih (ptr + 1)
      rw [add_one_ofNat] at hskips hend
      refine ⟨n + 1, Nat.succ_le_succ hn, hskips, ?_, hend.imp_left (congrArg Nat.succ)⟩
      rintro (- | i) hi
      · rw [add_ofNat_zero]
        exact hzero
      · rw [← add_one_ofNat]
        exact hbytes i (Nat.lt_of_succ_lt_succ hi)

theorem strnlen_eq (str maxlen : u32) (ram : Ram) :
    (∀ i < (strnlen str maxlen ram).toNat, ram (str + UInt32.ofNat i) ≠ 0) ∧ strnlen str maxlen ram ≤ maxlen ∧
      (strnlen str maxlen ram = maxlen ∨ ram (str + strnlen str maxlen ram) = 0) := by
  obtain ⟨n, hn, hskips, hbytes, hend⟩ := skips_most_eq maxlen.toNat str ram
  have hlt := maxlen.toNat_lt
  have hsize : strnlen str maxlen ram = UInt32.ofNat n := by
    unfold strnlen
    rw [hskips, UInt32.add_comm, UInt32.add_sub_cancel]
  have hnat : (UInt32.ofNat n).toNat = n := UInt32.toNat_ofNat_of_lt' (lt_of_le_of_lt hn hlt)
  rw [hsize, UInt32.le_iff_toNat_le, ← UInt32.toNat_inj, hnat]
  exact ⟨hbytes, hn, hend⟩

end Copies

section Append

/-- Where the end of one string is not within the other, the two have no byte in common, or the second is empty. -/
theorem strings_fit (ht : IsString ram dest t) (hs : IsString ram src s)
    (hinside : ¬ Inside src s (dest + UInt32.ofNat t.length)) : t.length + s.length < 2 ^ 32 := by
  have htlen := ht.length_lt
  have hslen := hs.length_lt
  by_contra hlong
  by_cases heq : src = dest
  · subst heq
    obtain rfl := hs.unique ht
    apply hinside
    have hdist : (src + UInt32.ofNat s.length - src).toNat = s.length := (eq_add_iff hslen).mp rfl
    exact ⟨by omega, by omega⟩
  have haround := distance_back heq
  by_cases hbehind : (src - dest).toNat ≤ t.length
  · -- the second string is the rest of the first
    have hrest := ht.drop hbehind
    rw [add_distance] at hrest
    obtain rfl := hs.unique hrest
    rw [List.length_drop] at hlong
    apply hinside
    unfold Inside
    rw [← add_rest hbehind, (eq_add_iff (by omega)).mp rfl, List.length_drop]
    omega
  · -- the first string is the rest of the second
    have hback : (dest - src).toNat ≤ s.length := by omega
    have hrest := hs.drop hback
    rw [add_distance] at hrest
    obtain rfl := ht.unique hrest
    rw [List.length_drop] at hlong
    apply hinside
    unfold Inside
    rw [List.length_drop, add_rest hback, (eq_add_iff hslen).mp rfl]
    omega

theorem copy_behind (ht : IsString ram dest t) (hs : IsString ram src s) (hfit : t.length + s.length < 2 ^ 32) :
    IsString (copy ram (dest + UInt32.ofNat t.length) (s ++ [0])) dest (t ++ s) := by
  have hlen : (s ++ [0]).length = s.length + 1 := List.length_append
  apply IsString.append
  · intro i hi
    have hfar : (dest + UInt32.ofNat i - (dest + UInt32.ofNat t.length)).toNat = 2 ^ 32 - (t.length - i) := by
      have hsplit : dest + UInt32.ofNat t.length = dest + UInt32.ofNat i + UInt32.ofNat (t.length - i) := by
        rw [add_add_ofNat, Nat.sub_add_cancel hi.le]
      have hnear : (dest + UInt32.ofNat t.length - (dest + UInt32.ofNat i)).toNat = t.length - i :=
        (eq_add_iff (by omega)).mp hsplit
      have hne : dest + UInt32.ofNat i ≠ dest + UInt32.ofNat t.length := by
        intro heq
        rw [heq, UInt32.sub_self, UInt32.toNat_zero] at hnear
        omega
      have haround := distance_back hne
      omega
    rw [copy_apart (by omega) (by omega)]
    exact (isString_iff.mp ht).1 i hi
  · exact copy_isString ram _ hs.ne_zero (by omega)

theorem strcpy_iff (dest src : u32) (ram : Ram) (r : u32 × Ram) : (∃ turns, strcpy turns dest src ram = some r) ↔
    ∃ s, IsString ram src s ∧ ¬ Inside src s dest ∧ r = (dest, copy ram dest (s ++ [0])) := by
  unfold strcpy
  constructor
  · rintro ⟨turns, hturns⟩
    obtain ⟨ram', hcopies, hr⟩ := Option.bind_eq_some_iff.mp hturns
    obtain ⟨s, hs, hapart, rfl⟩ := (copies_iff dest src ram ram').mp ⟨turns, hcopies⟩
    exact ⟨s, hs, hapart, (Option.some.inj hr).symm⟩
  · rintro ⟨s, hs, hapart, rfl⟩
    obtain ⟨turns, hcopies⟩ := (copies_iff dest src ram _).mpr ⟨s, hs, hapart, rfl⟩
    exact ⟨turns, Option.bind_eq_some_iff.mpr ⟨_, hcopies, rfl⟩⟩

theorem strcat_iff (dest src : u32) (ram : Ram) (r : u32 × Ram) : (∃ turns, strcat turns dest src ram = some r) ↔
    ∃ t s, IsString ram dest t ∧ IsString ram src s ∧ ¬ Inside src s (dest + UInt32.ofNat t.length) ∧
      r = (dest, copy ram (dest + UInt32.ofNat t.length) (s ++ [0])) := by
  unfold strcat
  constructor
  · rintro ⟨turns, hturns⟩
    obtain ⟨ptr, hskips, hturns⟩ := Option.bind_eq_some_iff.mp hturns
    obtain ⟨ram', hcopies, hr⟩ := Option.bind_eq_some_iff.mp hturns
    obtain ⟨t, ht, -, rfl⟩ := (skips_iff turns dest ptr ram).mp hskips
    obtain ⟨s, hs, hapart, rfl⟩ := (copies_iff _ src ram ram').mp ⟨turns, hcopies⟩
    exact ⟨t, s, ht, hs, hapart, (Option.some.inj hr).symm⟩
  · rintro ⟨t, s, ht, hs, hapart, rfl⟩
    obtain ⟨turns, hcopies⟩ := (copies_iff (dest + UInt32.ofNat t.length) src ram _).mpr ⟨s, hs, hapart, rfl⟩
    refine ⟨max turns (t.length + 1), ?_⟩
    have hskips := (skips_iff (max turns (t.length + 1)) dest _ ram).mpr ⟨t, ht, by omega, rfl⟩
    rw [hskips, Option.bind_eq_bind, Option.bind_some, copies_mono (Nat.le_max_left _ _) hcopies]
    rfl

/-- `strcpy` and `strcat` end where the zero is not overwritten on the way to it, and leave the string there. -/
theorem copied_strings (dest src : u32) (ram : Ram) :
    (∀ r, (∃ turns, strcpy turns dest src ram = some r) ↔
      ∃ s, IsString ram src s ∧ ¬ Inside src s dest ∧ IsString r.2 dest s ∧
        r = (dest, copy ram dest (s ++ [0]))) ∧
    (∀ r, (∃ turns, strcat turns dest src ram = some r) ↔
      ∃ t s, IsString ram dest t ∧ IsString ram src s ∧ ¬ Inside src s (dest + UInt32.ofNat t.length) ∧
        IsString r.2 dest (t ++ s) ∧ r = (dest, copy ram (dest + UInt32.ofNat t.length) (s ++ [0]))) ∧
    (∀ n, (∃ turns, strlen turns dest ram = some n) ↔ ∃ t, IsString ram dest t ∧ n.toNat = t.length) ∧
    ∀ maxlen, (∀ i < (strnlen dest maxlen ram).toNat, ram (dest + UInt32.ofNat i) ≠ 0) ∧
      strnlen dest maxlen ram ≤ maxlen ∧
      (strnlen dest maxlen ram = maxlen ∨ ram (dest + strnlen dest maxlen ram) = 0) := by
  refine ⟨?_, ?_, ?_, fun maxlen => strnlen_eq dest maxlen ram⟩
  · intro r
    rw [strcpy_iff]
    constructor
    · rintro ⟨s, hs, hapart, rfl⟩
      exact ⟨s, hs, hapart, copy_isString ram dest hs.ne_zero hs.length_lt, rfl⟩
    · rintro ⟨s, hs, hapart, -, rfl⟩
      exact ⟨s, hs, hapart, rfl⟩
  · intro r
    rw [strcat_iff]
    constructor
    · rintro ⟨t, s, ht, hs, hapart, rfl⟩
      exact ⟨t, s, ht, hs, hapart, copy_behind ht hs (strings_fit ht hs hapart), rfl⟩
    · rintro ⟨t, s, ht, hs, hapart, -, rfl⟩
      exact ⟨t, s, ht, hs, hapart, rfl⟩
  · intro n
    unfold strlen
    constructor
    · rintro ⟨turns, hturns⟩
      obtain ⟨ptr, hskips, hn⟩ := Option.bind_eq_some_iff.mp hturns
      obtain ⟨t, ht, -, rfl⟩ := (skips_iff turns dest ptr ram).mp hskips
      refine ⟨t, ht, ?_⟩
      rw [← Option.some.inj hn]
      exact (eq_add_iff ht.length_lt).mp rfl
    · rintro ⟨t, ht, hn⟩
      have hskips := (skips_iff (t.length + 1) dest _ ram).mpr ⟨t, ht, Nat.lt_succ_self _, rfl⟩
      refine ⟨t.length + 1, Option.bind_eq_some_iff.mpr ⟨_, hskips, congrArg some ?_⟩⟩
      apply UInt32.toNat_inj.mp
      rw [hn]
      exact (eq_add_iff ht.length_lt).mp rfl

end Append

section Bounded

/-- The byte that the loops read in a turn: behind the place that they write first, they read what they have written. -/
def stream (ram : Ram) (dest src : u32) (i : ℕ) : u8 := ram (src + UInt32.ofNat (i % (dest - src).toNat))

@[simp] theorem stream_zero (ram : Ram) (dest src : u32) : stream ram dest src 0 = ram src := by
  unfold stream
  rw [Nat.zero_mod, add_ofNat_zero]

theorem stream_next (ram : Ram) (ptr src : u32) (i : ℕ) :
    stream (Function.update ram ptr (ram src)) (ptr + 1) (src + 1) i = stream ram ptr src (i + 1) := by
  unfold stream
  rw [next_distance, add_one_ofNat]
  have hlt := (ptr - src).toNat_lt
  by_cases hself : (ptr - src).toNat = 0
  · have hsame : ptr = src := by
      rw [← add_distance src ptr, hself]
      exact add_ofNat_zero src
    rw [hself, Nat.mod_zero, Nat.mod_zero, hsame, Function.update_eq_self]
  have hmod := Nat.mod_lt i (Nat.pos_of_ne_zero hself)
  by_cases hlast : i % (ptr - src).toNat + 1 = (ptr - src).toNat
  · have hturn : (i + 1) % (ptr - src).toNat = 0 := by
      rw [← Nat.mod_add_mod, hlast, Nat.mod_self]
    rw [hturn, hlast, add_distance, Function.update_self, add_ofNat_zero]
  · have hnext : (i + 1) % (ptr - src).toNat = i % (ptr - src).toNat + 1 := by
      rw [← Nat.mod_add_mod, Nat.mod_eq_of_lt (by omega)]
    rw [hnext]
    apply Function.update_of_ne
    rw [ne_comm, Ne, eq_add_iff (by omega)]
    exact fun h => hlast h.symm

/-- The loop copies up to a zero, or as many bytes as it is told. -/
theorem strncpy_loop_eq (left : ℕ) (ptr src : u32) (ram : Ram) :
    ∃ bs : List u8, (∀ i (hi : i < bs.length), bs[i] = stream ram ptr src i ∧ bs[i] ≠ 0) ∧
      (bs.length < left ∧ stream ram ptr src bs.length = 0 ∧
          strncpy_loop left ptr src ram = (true, copy ram ptr (bs ++ [0])) ∨
        bs.length = left ∧ strncpy_loop left ptr src ram = (false, copy ram ptr bs)) := by
  induction left generalizing ptr src ram with
  | zero => exact ⟨[], fun i hi => absurd hi (Nat.not_lt_zero i), Or.inr ⟨rfl, rfl⟩⟩
  | succ left ih =>
    unfold strncpy_loop
    simp only [update_source]
    by_cases hzero : ram src = EOS
    · refine ⟨[], fun i hi => absurd hi (Nat.not_lt_zero i), Or.inl ⟨Nat.succ_pos _, ?_, ?_⟩⟩
      · exact (stream_zero ram ptr src).trans hzero
      · rw [if_pos hzero, hzero]
        rfl
    · obtain ⟨bs, hbs, hend⟩ := ih (ptr + 1) (src + 1) (Function.update ram ptr (ram src))
      simp only [stream_next] at hbs hend
      rw [if_neg hzero]
      refine ⟨ram src :: bs, ?_, ?_⟩
      · rintro (- | i) hi
        · exact ⟨(stream_zero ram ptr src).symm, hzero⟩
        · exact hbs i (Nat.lt_of_succ_lt_succ hi)
      · rw [List.length_cons]
        rcases hend with ⟨hlt, hlast, hloop⟩ | ⟨hall, hloop⟩
        · exact Or.inl ⟨Nat.succ_lt_succ hlt, hlast, hloop⟩
        · exact Or.inr ⟨congrArg Nat.succ hall, hloop⟩

/-- The last byte that has been copied, overwritten with a zero -/
theorem update_last (ram : Ram) (dest : u32) {bs : List u8} {n : ℕ} (hlen : bs.length = n + 1) :
    Function.update (copy ram dest bs) (dest + UInt32.ofNat n) 0 = copy ram dest (bs.take n ++ [0]) := by
  have hsplit : bs.take n ++ [bs[n]] = bs := by
    rw [List.take_append_getElem, ← hlen, List.take_length]
  have hfront : (bs.take n).length = n := by
    rw [List.length_take]
    omega
  conv_lhs => rw [← hsplit]
  rw [copy_append, copy_append, hfront]
  exact Function.update_idem _ _ _

theorem pred_toNat {count : u32} (h : count ≠ 0) : (count - 1).toNat + 1 = count.toNat := by
  have hle : (1 : u32) ≤ count := by
    rw [UInt32.le_iff_toNat_le, UInt32.toNat_one]
    exact Nat.pos_of_ne_zero fun hzero => h (UInt32.toNat_inj.mp hzero)
  have hcount := UInt32.le_iff_toNat_le.mp hle
  rw [UInt32.toNat_one] at hcount
  rw [UInt32.toNat_sub_of_le _ _ hle, UInt32.toNat_one]
  omega

/-- With room for a byte, `strncpy` leaves a string in the room, cut short where it does not fit. -/
theorem strncpy_bounded {count : u32} (hcount : count ≠ 0) (dest src : u32) (ram : Ram) :
    ∃ bs : List u8, bs.length < count.toNat ∧ (∀ i (hi : i < bs.length), bs[i] = stream ram dest src i ∧ bs[i] ≠ 0) ∧
      (stream ram dest src bs.length = 0 ∨ bs.length + 1 = count.toNat) ∧
      strncpy dest src count ram = (dest, copy ram dest (bs ++ [0])) := by
  have hpred := pred_toNat hcount
  obtain ⟨bs, hbs, ⟨hlt, hlast, hloop⟩ | ⟨hall, hloop⟩⟩ := strncpy_loop_eq count.toNat dest src ram
  · refine ⟨bs, hlt, hbs, Or.inl hlast, ?_⟩
    unfold strncpy
    rw [hloop]
  · have hlen : bs.length = (count - 1).toNat + 1 := hall.trans hpred.symm
    have hfront : (bs.take (count - 1).toNat).length = (count - 1).toNat := by
      rw [List.length_take]
      omega
    refine ⟨bs.take (count - 1).toNat, by omega, ?_, Or.inr (by omega), ?_⟩
    · intro i hi
      rw [List.getElem_take]
      exact hbs i (by omega)
    · have hplace : dest + (count - 1) = dest + UInt32.ofNat (count - 1).toNat := by rw [UInt32.ofNat_toNat]
      unfold strncpy
      rw [hloop, hplace]
      exact congrArg (Prod.mk dest) (update_last ram dest hlen)

theorem stream_eq {d : ℕ} (h : (dest - src).toNat = 0 ∨ d < (dest - src).toNat) :
    stream ram dest src d = ram (src + UInt32.ofNat d) := by
  unfold stream
  rcases h with h | h
  · rw [h, Nat.mod_zero]
  · rw [Nat.mod_eq_of_lt h]

theorem strncpy_zero (dest src : u32) (ram : Ram) :
    strncpy dest src 0 ram = (dest, Function.update ram (dest - 1) 0) := by
  have hplace : dest + (0 - 1) = dest - 1 := by grind
  unfold strncpy
  rw [hplace]
  rfl

/-- What `strncpy` copies of a string that it does not overwrite on the way -/
theorem strncpy_of_string {count : u32} (hcount : count ≠ 0) (hs : IsString ram src s)
    (hapart : ¬ Inside src (s.take (count - 1).toNat) dest) :
    strncpy dest src count ram = (dest, copy ram dest (s.take (count - 1).toNat ++ [0])) := by
  obtain ⟨bs, hlt, hbs, hend, heq⟩ := strncpy_bounded hcount dest src ram
  have hpred := pred_toNat hcount
  have hbytes := isString_iff.mp hs
  have hfar : ∀ i ≤ min (count - 1).toNat s.length, (dest - src).toNat = 0 ∨ i < (dest - src).toNat := by
    intro i hi
    by_contra hnear
    apply hapart
    unfold Inside
    rw [List.length_take]
    omega
  have hlen : bs.length = min (count - 1).toNat s.length := by
    have hle : bs.length ≤ s.length := by
      by_contra hlong
      have hstop := (hbs s.length (by omega)).1
      rw [stream_eq (hfar _ (by omega)), hbytes.2] at hstop
      exact (hbs s.length (by omega)).2 hstop
    rcases hend with hzero | hfull
    · by_contra hne
      have hbyte := (hbytes.1 bs.length (by omega))
      rw [stream_eq (hfar _ (by omega)), hbyte.1] at hzero
      exact hbyte.2 hzero
    · omega
  have hsame : bs = s.take (count - 1).toNat := by
    apply List.ext_getElem
    · rw [List.length_take, hlen]
    · intro i hi hi'
      rw [(hbs i hi).1, stream_eq (hfar _ (by omega)), List.getElem_take]
      exact (hbytes.1 i (by omega)).1
  rw [heq, hsame]

/-- `strncpy` keeps to the room it is given, with a string in it, unless there is none: then the byte
before the room becomes zero. -/
theorem strncpy_exact (dest src count : u32) (ram : Ram) :
    (count ≠ 0 → ∃ bs : List u8, bs.length < count.toNat ∧
      (∀ i (hi : i < bs.length), bs[i] = stream ram dest src i) ∧
      (stream ram dest src bs.length = 0 ∨ bs.length + 1 = count.toNat) ∧
      IsString (strncpy dest src count ram).2 dest bs ∧
      strncpy dest src count ram = (dest, copy ram dest (bs ++ [0]))) ∧
    (∀ s, count ≠ 0 → IsString ram src s → ¬ Inside src (s.take (count - 1).toNat) dest →
      strncpy dest src count ram = (dest, copy ram dest (s.take (count - 1).toNat ++ [0]))) ∧
    ((∀ a, count.toNat ≤ (a - dest).toNat → (strncpy dest src count ram).2 a = ram a) ↔
      count ≠ 0 ∨ ram (dest - 1) = 0) := by
  refine ⟨?_, fun s hcount hs hapart => strncpy_of_string hcount hs hapart, ?_⟩
  · intro hcount
    obtain ⟨bs, hlt, hbs, hend, heq⟩ := strncpy_bounded hcount dest src ram
    have hsize := count.toNat_lt
    refine ⟨bs, hlt, fun i hi => (hbs i hi).1, hend, ?_, heq⟩
    rw [heq]
    apply copy_isString ram dest _ (by omega)
    intro c hc
    obtain ⟨i, hi, rfl⟩ := List.mem_iff_getElem.mp hc
    exact (hbs i hi).2
  · by_cases hcount : count = 0
    · subst hcount
      rw [strncpy_zero]
      constructor
      · intro h
        have hbefore : Function.update ram (dest - 1) 0 (dest - 1) = ram (dest - 1) := h (dest - 1) (Nat.zero_le _)
        rw [Function.update_self] at hbefore
        exact Or.inr hbefore.symm
      · rintro (h | h) a -
        · exact absurd rfl h
        · exact congrFun (Function.update_eq_iff.mpr ⟨h.symm, fun _ _ => rfl⟩) a
    · obtain ⟨bs, hlt, -, -, heq⟩ := strncpy_bounded hcount dest src ram
      have hlen : (bs ++ [0]).length = bs.length + 1 := List.length_append
      have hsize := count.toNat_lt
      rw [heq]
      exact ⟨fun _ => Or.inl hcount, fun _ a ha => copy_apart (by omega) (by omega)⟩

/-- Two bytes of room for `"ab"` -/
theorem strncpy_exact_cut : strncpy 32 16 2 (copy (fun _ => 0) 16 [97, 98, 0]) =
    (32, copy (copy (fun _ => 0) 16 [97, 98, 0]) 32 [97, 0]) := by
  have hs : IsString (copy (fun _ => 0) 16 [97, 98, 0]) 16 [97, 98] := by decide
  have hapart : ¬ Inside 16 [97] 32 := fun h => absurd h.2 (by decide)
  exact (strncpy_exact 32 16 2 _).2.1 [97, 98] (by decide) hs hapart

end Bounded

end onix.CString
