import Onix.Strings.Compare

namespace onix.CString

open Words

def NULL : u32 := 0

def IS_SEPARATOR (c : u8) : Bool := c = 47 ∨ c = 92

/-- The loop of `strchr` and of `strsep`, over what they look for -/
def first (hit : u8 → Bool) : ℕ → u32 → Ram → Option u32
  | 0, _, _ => none
  | turns + 1, ptr, ram =>
    if hit (ram ptr) then some ptr
    else if ram ptr = EOS then some NULL
    else first hit turns (ptr + 1) ram

/-- The loop of `strrchr` and of `strrsep` -/
def last (hit : u8 → Bool) : ℕ → u32 → u32 → Ram → Option u32
  | 0, _, _, _ => none
  | turns + 1, found, ptr, ram =>
    let found := if hit (ram ptr) then ptr else found
    if ram ptr = EOS then some found else last hit turns found (ptr + 1) ram

def strchr (turns : ℕ) (str : u32) (ch : Int32) (ram : Ram) : Option u32 := first (fun c => char c = ch.toInt) turns str ram

def strrchr (turns : ℕ) (str : u32) (ch : Int32) (ram : Ram) : Option u32 :=
  last (fun c => char c = ch.toInt) turns NULL str ram

def strsep (turns : ℕ) (str : u32) (ram : Ram) : Option u32 := first IS_SEPARATOR turns str ram

def strrsep (turns : ℕ) (str : u32) (ram : Ram) : Option u32 := last IS_SEPARATOR turns NULL str ram

/-- `memchr`; where the byte is not found, the function ends without a `return`. -/
def memchr (str : u32) (ch : Int32) : ℕ → Ram → Option u32
  | 0, _ => none
  | count + 1, ram => if char (ram str) = ch.toInt then some str else memchr (str + 1) ch count ram

/-- The place of the first hit among some bytes -/
def FirstHit (hit : u8 → Bool) (bs : List u8) (str p : u32) : Prop :=
  ∃ before c after, bs = before ++ c :: after ∧ hit c ∧ (∀ b ∈ before, ¬ hit b) ∧ p = str + UInt32.ofNat before.length

/-- The place of the last hit among some bytes -/
def LastHit (hit : u8 → Bool) (bs : List u8) (str p : u32) : Prop :=
  ∃ before c after, bs = before ++ c :: after ∧ hit c ∧ (∀ b ∈ after, ¬ hit b) ∧ p = str + UInt32.ofNat before.length

variable {hit : u8 → Bool} {ram : Ram} {str ptr p q : u32} {s bs : List u8} {b c : u8} {turns : ℕ}

section Hits

theorem FirstHit.head (hb : hit b) (bs : List u8) (str : u32) : FirstHit hit (b :: bs) str p ↔ p = str := by
  constructor
  · rintro ⟨before, c, after, heq, hc, hbefore, rfl⟩
    cases before with
    | nil => exact add_ofNat_zero str
    | cons d ds =>
      obtain ⟨rfl, -⟩ := List.cons_eq_cons.mp heq
      exact absurd hb (hbefore b List.mem_cons_self)
  · rintro rfl
    exact ⟨[], b, bs, rfl, hb, fun _ h => absurd h List.not_mem_nil, (add_ofNat_zero p).symm⟩

theorem FirstHit.tail (hb : ¬ hit b) (bs : List u8) (str : u32) :
    FirstHit hit (b :: bs) str p ↔ FirstHit hit bs (str + 1) p := by
  constructor
  · rintro ⟨before, c, after, heq, hc, hbefore, rfl⟩
    cases before with
    | nil =>
      obtain ⟨rfl, -⟩ := List.cons_eq_cons.mp heq
      exact absurd hc hb
    | cons d ds =>
      obtain ⟨rfl, hrest⟩ := List.cons_eq_cons.mp heq
      refine ⟨ds, c, after, hrest, hc, fun e he => hbefore e (List.mem_cons_of_mem _ he), ?_⟩
      exact (add_one_ofNat str ds.length).symm
  · rintro ⟨before, c, after, rfl, hc, hbefore, rfl⟩
    refine ⟨b :: before, c, after, rfl, hc, ?_, add_one_ofNat str before.length⟩
    intro e he
    rcases List.mem_cons.mp he with rfl | he
    · exact hb
    · exact hbefore e he

theorem LastHit.nil : ¬ LastHit hit [] str p := by
  rintro ⟨before, c, after, heq, -⟩
  exact absurd heq (List.append_ne_nil_of_right_ne_nil before (List.cons_ne_nil c after)).symm

/-- The last hit is the first byte, where none follows, or it is the last one of those that follow. -/
theorem LastHit.cons_iff : LastHit hit (b :: bs) str p ↔
    hit b ∧ (∀ d ∈ bs, ¬ hit d) ∧ p = str ∨ LastHit hit bs (str + 1) p := by
  constructor
  · rintro ⟨before, c, after, heq, hc, hafter, rfl⟩
    cases before with
    | nil =>
      obtain ⟨rfl, rfl⟩ := List.cons_eq_cons.mp heq
      exact Or.inl ⟨hc, hafter, add_ofNat_zero str⟩
    | cons d ds =>
      obtain ⟨rfl, hrest⟩ := List.cons_eq_cons.mp heq
      exact Or.inr ⟨ds, c, after, hrest, hc, hafter, (add_one_ofNat str ds.length).symm⟩
  · rintro (⟨hb, hbs, rfl⟩ | ⟨before, c, after, rfl, hc, hafter, rfl⟩)
    · exact ⟨[], b, bs, rfl, hb, hbs, (add_ofNat_zero p).symm⟩
    · exact ⟨b :: before, c, after, rfl, hc, hafter, add_one_ofNat str before.length⟩

end Hits

section Search

theorem first_returns (h : IsString ram str s) (hturns : s.length < turns) :
    first hit turns str ram = some p ↔
      FirstHit hit (s ++ [0]) str p ∨ (∀ c ∈ s ++ [0], ¬ hit c) ∧ p = NULL := by
  induction turns generalizing str s with
  | zero => exact absurd hturns (Nat.not_lt_zero _)
  | succ turns ih =>
    unfold first
    cases s with
    | nil =>
      have hzero : ram str = 0 := h
      rw [hzero]
      by_cases hhit : hit 0
      · rw [if_pos hhit, List.nil_append, FirstHit.head hhit, Option.some_inj]
        constructor
        · exact fun heq => Or.inl heq.symm
        · rintro (heq | ⟨hnone, -⟩)
          · exact heq.symm
          · exact absurd hhit (hnone 0 List.mem_cons_self)
      · rw [if_neg hhit, if_pos (show (0 : u8) = EOS from rfl), List.nil_append, FirstHit.tail hhit, Option.some_inj]
        constructor
        · rintro rfl
          refine Or.inr ⟨fun c hc => ?_, rfl⟩
          rw [List.mem_singleton.mp hc]
          exact hhit
        · rintro (⟨before, c, after, heq, -⟩ | ⟨-, heq⟩)
          · exact absurd heq (List.append_ne_nil_of_right_ne_nil before (List.cons_ne_nil c after)).symm
          · exact heq.symm
    | cons b bs =>
      obtain ⟨hb, hne, hbs⟩ := h
      rw [hb, List.cons_append]
      by_cases hhit : hit b
      · rw [if_pos hhit, FirstHit.head hhit, Option.some_inj]
        constructor
        · exact fun heq => Or.inl heq.symm
        · rintro (heq | ⟨hnone, -⟩)
          · exact heq.symm
          · exact absurd hhit (hnone b List.mem_cons_self)
      · rw [if_neg hhit, if_neg (show b ≠ EOS from hne), FirstHit.tail hhit, ih hbs (Nat.lt_of_succ_lt_succ hturns),
          List.forall_mem_cons]
        exact or_congr_right (and_congr_left' (and_iff_right hhit).symm)

theorem last_returns (h : IsString ram str s) (hturns : s.length < turns) :
    last hit turns q str ram = some p ↔
      LastHit hit (s ++ [0]) str p ∨ (∀ c ∈ s ++ [0], ¬ hit c) ∧ p = q := by
  induction turns generalizing str s q with
  | zero => exact absurd hturns (Nat.not_lt_zero _)
  | succ turns ih =>
    unfold last
    -- the step over a byte, whatever comes behind it
    have hstep : ∀ (bs : List u8) (found : Option u32), (found = some p ↔ LastHit hit bs (str + 1) p ∨
          (∀ c ∈ bs, ¬ hit c) ∧ p = if hit (ram str) then str else q) →
        (found = some p ↔ LastHit hit (ram str :: bs) str p ∨ (∀ c ∈ ram str :: bs, ¬ hit c) ∧ p = q) := by
      intro bs found hfound
      rw [hfound, LastHit.cons_iff, List.forall_mem_cons]
      by_cases hhit : hit (ram str)
      · rw [if_pos hhit]
        tauto
      · rw [if_neg hhit]
        tauto
    cases s with
    | nil =>
      have hzero : ram str = EOS := h
      have hempty := hstep [] (some (if hit (ram str) then str else q)) (by
        rw [Option.some_inj, or_iff_right LastHit.nil, and_iff_right fun c hc => absurd hc List.not_mem_nil]
        exact eq_comm)
      dsimp only
      rw [if_pos hzero, hempty, hzero]
      rfl
    | cons b bs =>
      obtain ⟨hb, hne, hbs⟩ := h
      have hnonempty := hstep (bs ++ [0]) _ (ih hbs (Nat.lt_of_succ_lt_succ hturns))
      dsimp only
      rw [if_neg (show ram str ≠ EOS by rw [hb]; exact hne), hnonempty, hb, List.cons_append]

/-- `memchr` finds the first hit, if there is one. -/
theorem memchr_iff (str : u32) (ch : Int32) (count : ℕ) (ram : Ram) :
    memchr str ch count ram = some p ↔ FirstHit (fun c => char c = ch.toInt) (bytes ram str count) str p := by
  induction count generalizing str with
  | zero =>
    constructor
    · intro h
      cases h
    · rintro ⟨before, c, after, heq, -⟩
      exact absurd heq (List.append_ne_nil_of_right_ne_nil before (List.cons_ne_nil c after)).symm
  | succ count ih =>
    unfold memchr
    rw [bytes_succ]
    by_cases hhit : char (ram str) = ch.toInt
    · rw [if_pos hhit, FirstHit.head (decide_eq_true hhit), Option.some_inj, eq_comm]
    · rw [if_neg hhit, FirstHit.tail (fun h => hhit (of_decide_eq_true h)), ih]

end Search

section Within

/-- A hit that is not the zero is in the string, and what follows it there is a string. -/
theorem split_within (h : IsString ram str s) {before after : List u8} (hc : c ≠ 0)
    (heq : s ++ [0] = before ++ c :: after) : ∃ rest, after = rest ++ [0] ∧ s = before ++ c :: rest ∧
      IsString ram (str + UInt32.ofNat before.length + 1) rest := by
  rcases List.eq_nil_or_concat after with rfl | ⟨rest, d, rfl⟩
  · obtain ⟨-, hlast⟩ := List.append_inj' heq rfl
    exact absurd (List.cons_eq_cons.mp hlast).1.symm hc
  · rw [List.concat_eq_append, ← List.cons_append, ← List.append_assoc] at heq
    obtain ⟨hs, hlast⟩ := List.append_inj' heq rfl
    have hrest := h.drop (i := before.length + 1) (by
      rw [hs, List.length_append, List.length_cons]
      omega)
    have hdrop : s.drop (before.length + 1) = rest := by
      rw [hs, ← List.drop_drop, List.drop_left]
      rfl
    have hplace : str + UInt32.ofNat before.length + 1 = str + UInt32.ofNat (before.length + 1) := by
      rw [Nat.add_comm]
      exact add_add_ofNat str before.length 1
    rw [hdrop, ← hplace] at hrest
    refine ⟨rest, ?_, hs, hrest⟩
    rw [List.concat_eq_append, (List.cons_eq_cons.mp hlast).1]

theorem firstHit_within (h : IsString ram str s) (hzero : ¬ hit 0) : FirstHit hit (s ++ [0]) str p ↔
    ∃ before c rest, s = before ++ c :: rest ∧ hit c ∧ (∀ b ∈ before, ¬ hit b) ∧
      p = str + UInt32.ofNat before.length ∧ IsString ram (p + 1) rest := by
  constructor
  · rintro ⟨before, c, after, heq, hc, hbefore, rfl⟩
    have hne : c ≠ 0 := fun h => hzero (h ▸ hc)
    obtain ⟨rest, -, hs, hrest⟩ := split_within h hne heq
    exact ⟨before, c, rest, hs, hc, hbefore, rfl, hrest⟩
  · rintro ⟨before, c, rest, rfl, hc, hbefore, rfl, -⟩
    exact ⟨before, c, rest ++ [0], by rw [List.append_assoc, List.cons_append], hc, hbefore, rfl⟩

theorem lastHit_within (h : IsString ram str s) (hzero : ¬ hit 0) : LastHit hit (s ++ [0]) str p ↔
    ∃ before c rest, s = before ++ c :: rest ∧ hit c ∧ (∀ b ∈ rest, ¬ hit b) ∧
      p = str + UInt32.ofNat before.length ∧ IsString ram (p + 1) rest := by
  constructor
  · rintro ⟨before, c, after, heq, hc, hafter, rfl⟩
    have hne : c ≠ 0 := fun h => hzero (h ▸ hc)
    obtain ⟨rest, rfl, hs, hrest⟩ := split_within h hne heq
    exact ⟨before, c, rest, hs, hc, fun b hb => hafter b (List.mem_append_left _ hb), rfl, hrest⟩
  · rintro ⟨before, c, rest, rfl, hc, hrest, rfl, -⟩
    refine ⟨before, c, rest ++ [0], by rw [List.append_assoc, List.cons_append], hc, ?_, rfl⟩
    intro b hb
    rcases List.mem_append.mp hb with hb | hb
    · exact hrest b hb
    · rw [List.mem_singleton.mp hb]
      exact hzero

theorem no_hit_within (hzero : ¬ hit 0) : (∀ c ∈ s ++ [0], ¬ hit c) ↔ ∀ c ∈ s, ¬ hit c := by
  rw [List.forall_mem_append]
  apply and_iff_left
  intro c hc
  rw [List.mem_singleton.mp hc]
  exact hzero

/-- The searches, over any string: the first or the last place of a character, the zero being one, and the
first or the last separator of a path with the path that follows it, which has no other for `strrsep`. -/
theorem searches_exact (h : IsString ram str s) (hturns : s.length < turns) (ch : Int32) :
    (∀ p, strchr turns str ch ram = some p ↔ FirstHit (fun c => char c = ch.toInt) (s ++ [0]) str p ∨
      (∀ c ∈ s ++ [0], char c ≠ ch.toInt) ∧ p = NULL) ∧
    (∀ p, strrchr turns str ch ram = some p ↔ LastHit (fun c => char c = ch.toInt) (s ++ [0]) str p ∨
      (∀ c ∈ s ++ [0], char c ≠ ch.toInt) ∧ p = NULL) ∧
    (∀ p, strsep turns str ram = some p ↔ (∃ before c rest, s = before ++ c :: rest ∧ IS_SEPARATOR c ∧
        (∀ b ∈ before, ¬ IS_SEPARATOR b) ∧ p = str + UInt32.ofNat before.length ∧ IsString ram (p + 1) rest) ∨
      (∀ c ∈ s, ¬ IS_SEPARATOR c) ∧ p = NULL) ∧
    (∀ p, strrsep turns str ram = some p ↔ (∃ before c rest, s = before ++ c :: rest ∧ IS_SEPARATOR c ∧
        (∀ b ∈ rest, ¬ IS_SEPARATOR b) ∧ p = str + UInt32.ofNat before.length ∧ IsString ram (p + 1) rest) ∨
      (∀ c ∈ s, ¬ IS_SEPARATOR c) ∧ p = NULL) ∧
    ∀ p count, memchr str ch count ram = some p ↔ FirstHit (fun c => char c = ch.toInt) (bytes ram str count) str p := by
  have hzero : ¬ IS_SEPARATOR 0 := by decide
  have hchar : (∀ c ∈ s ++ [0], ¬ (decide (char c = ch.toInt)) = true) ↔ ∀ c ∈ s ++ [0], char c ≠ ch.toInt := by
    simp only [decide_eq_true_eq, ne_eq]
  refine ⟨?_, ?_, ?_, ?_, fun p count => memchr_iff str ch count ram⟩
  · intro p
    exact (first_returns h hturns).trans (or_congr_right (and_congr_left' hchar))
  · intro p
    exact (last_returns h hturns).trans (or_congr_right (and_congr_left' hchar))
  · intro p
    rw [← firstHit_within h hzero, ← no_hit_within hzero]
    exact first_returns h hturns
  · intro p
    rw [← lastHit_within h hzero, ← no_hit_within hzero]
    exact last_returns h hturns

/-- `"a/b"`, of which `strrsep` finds the `/` -/
theorem searches_exact_path : strrsep 4 16 (copy (fun _ => 0) 16 [97, 47, 98, 0]) = some 17 := by
  have hs : IsString (copy (fun _ => 0) 16 [97, 47, 98, 0]) 16 [97, 47, 98] :=
    copy_isString _ 16 (s := [97, 47, 98]) (by simp) (by decide)
  refine ((searches_exact hs (by decide) 0).2.2.2.1 17).mpr
    (Or.inl ⟨[97], 47, [98], rfl, rfl, by simp [IS_SEPARATOR], rfl, ?_⟩)
  exact hs.2.2.2.2

end Within

end onix.CString
