import Onix.Format.Sizes

namespace onix.Format

open Numeral

section Strings

variable {byte : u32 → u8} {s : u32}

/-- Up to its length there is no zero byte in a string. -/
theorem strlen_from_ne_zero (turns : ℕ) : ∀ i < strlen_from byte turns s, byte (s + UInt32.ofNat i) ≠ 0 := by
  induction turns generalizing s with
  | zero =>
    intro i hi
    exact absurd hi (Nat.not_lt_zero i)
  | succ turns ih =>
    intro i hi
    unfold strlen_from at hi
    split_ifs at hi with hzero
    · exact absurd hi (Nat.not_lt_zero i)
    · cases i with
      | zero => rwa [show s + UInt32.ofNat 0 = s from UInt32.add_zero s]
      | succ i =>
        have hrest := ih (s := s + 1) i (by omega)
        rwa [UInt32.add_assoc, show (1 : u32) = UInt32.ofNat 1 from rfl, ← UInt32.ofNat_add, Nat.add_comm 1 i] at hrest

/-- The length of a string is where its first zero byte is. -/
theorem strlen_from_eq {n : ℕ} (hne : ∀ i < n, byte (s + UInt32.ofNat i) ≠ 0) (hzero : byte (s + UInt32.ofNat n) = 0) :
    ∀ turns, n < turns → strlen_from byte turns s = n := by
  induction n generalizing s with
  | zero =>
    intro turns hturns
    obtain ⟨turns, rfl⟩ : ∃ k, turns = k + 1 := ⟨turns - 1, by omega⟩
    rw [show s + UInt32.ofNat 0 = s from UInt32.add_zero s] at hzero
    unfold strlen_from
    rw [if_pos hzero]
  | succ n ih =>
    intro turns hturns
    obtain ⟨turns, rfl⟩ : ∃ k, turns = k + 1 := ⟨turns - 1, by omega⟩
    have hshift : ∀ i, s + 1 + UInt32.ofNat i = s + UInt32.ofNat (i + 1) := by
      intro i
      rw [UInt32.add_assoc, show (1 : u32) = UInt32.ofNat 1 from rfl, ← UInt32.ofNat_add, Nat.add_comm 1 i]
    have hfirst := hne 0 (Nat.succ_pos n)
    rw [show s + UInt32.ofNat 0 = s from UInt32.add_zero s] at hfirst
    have hrest := ih (s := s + 1) (by
      intro i hi
      rw [hshift]
      exact hne (i + 1) (by omega)) (by rwa [hshift]) turns (by omega)
    unfold strlen_from
    rw [if_neg hfirst, hrest]

/-- Some zero byte ends a string. -/
theorem strlen_spec (strings : Strings) (s : u32) :
    strlen strings s < 2 ^ 32 ∧ strings.byte (s + UInt32.ofNat (strlen strings s)) = 0 := by
  obtain ⟨a, ha⟩ := strings.terminated
  have hexists : ∃ n : ℕ, strings.byte (s + UInt32.ofNat n) = 0 := by
    refine ⟨(a - s).toNat, ?_⟩
    rw [UInt32.ofNat_toNat, UInt32.add_comm, UInt32.sub_add_cancel]
    exact ha
  have hlt : Nat.find hexists < 2 ^ 32 := by
    have hle := Nat.find_le (h := hexists) (n := (a - s).toNat) (by
      rw [UInt32.ofNat_toNat, UInt32.add_comm, UInt32.sub_add_cancel]
      exact ha)
    exact lt_of_le_of_lt hle (a - s).toNat_lt
  have heq : strlen strings s = Nat.find hexists :=
    strlen_from_eq (fun i hi => Nat.find_min hexists hi) (Nat.find_spec hexists) _ hlt
  rw [heq]
  exact ⟨hlt, Nat.find_spec hexists⟩

end Strings

section Nonzero

variable (flags : u32) (field_width precision : Int32)

theorem digit_ne_zero {d : ℕ} (hd : d < 36) : digit flags d ≠ 0 := by
  intro hzero
  have hvalue := digit_value_digit flags d hd
  have hnone : digit_value 0 = 36 := by decide
  rw [hzero, hnone] at hvalue
  omega

theorem zero_notMem_replicate {n : ℕ} {ch : u8} (hch : ch ≠ 0) : 0 ∉ List.replicate n ch := by
  intro h
  exact hch (List.eq_of_mem_replicate h).symm

theorem store_while_ne_zero (n : Int32) {ch : u8} (hch : ch ≠ 0) : 0 ∉ (store_while n ch).1 := by
  rw [store_while_text]
  exact zero_notMem_replicate hch

theorem store_while_pre_ne_zero (n : Int32) {ch : u8} (hch : ch ≠ 0) : 0 ∉ (store_while_pre n ch).1 := by
  unfold store_while_pre
  split_ifs
  · exact zero_notMem_replicate hch
  · exact List.not_mem_nil

theorem store_while_above_ne_zero (low n : Int32) {ch : u8} (hch : ch ≠ 0) : 0 ∉ (store_while_above low n ch).1 := by
  unfold store_while_above
  split_ifs
  · exact zero_notMem_replicate hch
  · exact List.not_mem_nil

theorem sign_ne_zero (sign : Sign) : 0 ∉ sign.bytes := by
  cases sign <;> decide

theorem number_result_ne_zero (base : u32) (size : Int32) {sign tmp : List u8} (hsign : 0 ∉ sign) (htmp : 0 ∉ tmp) :
    0 ∉ number_result base size precision flags sign tmp := by
  have hspecial : 0 ∉ special base flags := by
    have hx := digit_ne_zero flags (show 33 < 36 by omega)
    unfold special
    split_ifs
    · simp
    · simp [hx.symm]
    · simp
    · simp
  have hpad : (if flags &&& ZEROPAD ≠ 0 then 48 else 32 : u8) ≠ 0 := by
    split_ifs <;> decide
  unfold number_result
  rw [show (if flags &&& SPECIAL ≠ 0 then if base = 8 then [48] else if base = 16 then [48, digit flags 33] else []
    else []) = special base flags from rfl]
  generalize (if flags &&& ZEROPAD ≠ 0 then 48 else 32 : u8) = pad at *
  dsimp only
  simp only [List.mem_append, List.mem_reverse, not_or]
  refine ⟨⟨⟨⟨⟨⟨?_, hsign⟩, hspecial⟩, ?_⟩, store_while_above_ne_zero _ _ (by decide)⟩, htmp⟩,
    store_while_ne_zero _ (by decide)⟩
  · split_ifs
    · exact store_while_ne_zero _ (by decide)
    · exact List.not_mem_nil
  · split_ifs
    · exact store_while_ne_zero _ hpad
    · exact store_while_ne_zero _ hpad
    · exact List.not_mem_nil
    · exact List.not_mem_nil

theorem map_digit_ne_zero {base n : ℕ} (hbase : 2 ≤ base) (hbase' : base ≤ 36) :
    0 ∉ (digits base n).map (digit flags) := by
  intro hzero
  obtain ⟨d, hd, hdigit⟩ := List.mem_map.mp hzero
  exact digit_ne_zero flags (lt_of_lt_of_le (digits_lt hbase d hd) hbase') hdigit

theorem integer_ne_zero (fpu : Fpu) (word : u32) {base : u32} (hbase : 2 ≤ base.toNat) (hbase' : base.toNat ≤ 36)
    (hinteger : flags &&& DOUBLE = 0) : 0 ∉ number fpu word.toUInt64 base field_width precision flags := by
  rw [number_integer_eq flags word fpu base field_width precision hinteger, integer_tmp_eq _ hbase]
  exact number_result_ne_zero _ _ base _ (sign_ne_zero _) (map_digit_ne_zero _ hbase hbase')

theorem double_ne_zero (fpu : Fpu) (num : u64) (hdouble : flags &&& DOUBLE ≠ 0) :
    0 ∉ number fpu num 10 field_width precision flags := by
  obtain ⟨sign, hsign, -⟩ := double_sign_bytes flags fpu num
  have hten : ∀ n, 0 ∉ (digits 10 n).map (digit (masked flags)) := by
    intro n
    exact map_digit_ne_zero (masked flags) (by omega) (by omega)
  have hpoint : (0 : u8) ∉ [46] := by decide
  rw [number_double_eq fpu num flags hdouble, hsign]
  apply number_result_ne_zero _ _ 10 _ (sign_ne_zero sign)
  unfold double_digits
  dsimp only
  rw [digits_do_eq, digits_do_eq, List.mem_append, List.mem_append, not_or, not_or]
  exact ⟨⟨hten _, hpoint⟩, hten _⟩

theorem bytes_ne_zero (strings : Strings) (fpu : Fpu) (word : u32) (count : ℕ) {base : u32} {separator : u8}
    (hbase : 2 ≤ base.toNat) (hbase' : base.toNat ≤ 36) (hinteger : flags &&& DOUBLE = 0) (hseparator : separator ≠ 0) :
    0 ∉ convert_bytes strings fpu word flags field_width precision count base separator := by
  intro hzero
  obtain ⟨b, -, hb⟩ := List.mem_flatMap.mp (List.mem_of_mem_dropLast hzero)
  rw [List.mem_append, List.mem_singleton] at hb
  obtain hb | hb := hb
  · have hnumber := integer_ne_zero flags field_width precision fpu b.toUInt32 hbase hbase' hinteger
    rw [UInt8.toUInt64_toUInt32] at hnumber
    exact hnumber hb
  · exact hseparator hb.symm

theorem string_ne_zero (strings : Strings) (word : u32) :
    0 ∉ convert_s strings word flags field_width precision := by
  unfold convert_s
  dsimp only
  generalize hlen : (if 0 ≤ precision ∧ precision < Int32.ofNat (strlen strings word) then precision
    else Int32.ofNat (strlen strings word)) = len
  have hcount : len.toNatClampNeg ≤ strlen strings word := by
    have hclamp : len.toNatClampNeg = len.toInt.toNat := rfl
    have hof : (Int32.ofNat (strlen strings word)).toInt = (strlen strings word : ℤ).bmod (2 ^ 32) := Int32.toInt_ofNat'
    have hlt : precision < Int32.ofNat (strlen strings word) ↔
        precision.toInt < (Int32.ofNat (strlen strings word)).toInt := Int32.lt_iff_toInt_lt
    rw [Int.bmod_def] at hof
    rw [hclamp, ← hlen]
    split_ifs with h
    · rw [hlt] at h
      omega
    · omega
  have hbytes : 0 ∉ bytes_at strings.byte word len.toNatClampNeg := by
    intro hzero
    obtain ⟨i, hi, hbyte⟩ := List.mem_map.mp hzero
    rw [List.mem_range] at hi
    exact strlen_from_ne_zero (2 ^ 32) i (lt_of_lt_of_le hi hcount) hbyte
  simp only [List.mem_append, not_or]
  refine ⟨⟨?_, hbytes⟩, store_while_above_ne_zero _ _ (by decide)⟩
  split_ifs
  · exact store_while_above_ne_zero _ _ (by decide)
  · exact List.not_mem_nil

theorem zero_notMem_ite {p : Prop} [Decidable p] {x y : List u8 × ℕ} (hx : 0 ∉ x.1) (hy : 0 ∉ y.1) :
    0 ∉ (if p then x else y).1 := by
  split_ifs
  · exact hx
  · exact hy

/-- Only `case 'c'` stores a zero byte. -/
theorem convert_ne_zero (strings : Strings) (fpu : Fpu) (word next : u32) (hinteger : flags &&& DOUBLE = 0) {c : u8}
    (hc : ¬ (c = 'c'.toUInt8 ∧ word.toUInt8 = 0)) :
    0 ∉ (convert strings fpu word next flags field_width precision c).1 := by
  have hor : ∀ flag, flag &&& DOUBLE = 0 → (flags ||| flag) &&& DOUBLE = 0 := by
    intro flag hflag
    rw [or_and, hinteger, hflag]
    rfl
  have hnumber : ∀ base : u32, 2 ≤ base.toNat → base.toNat ≤ 36 → ∀ flag, flag &&& DOUBLE = 0 → ∀ width,
      0 ∉ number fpu word.toUInt64 base width precision (flags ||| flag) := by
    intro base hbase hbase' flag hflag width
    exact integer_ne_zero _ width precision fpu word hbase hbase' (hor flag hflag)
  have hplain : ∀ base : u32, 2 ≤ base.toNat → base.toNat ≤ 36 →
      0 ∉ number fpu word.toUInt64 base field_width precision flags := by
    intro base hbase hbase'
    exact integer_ne_zero flags field_width precision fpu word hbase hbase' hinteger
  have hm : 0 ∉ convert_bytes strings fpu word (flags ||| (SMALL ||| ZEROPAD)) 2 precision 6 16 ':'.toUInt8 :=
    bytes_ne_zero _ 2 precision strings fpu word 6 (by decide) (by decide) (hor _ (by decide)) (by decide)
  have hr : 0 ∉ convert_bytes strings fpu word (flags ||| SMALL) field_width precision 4 10 '.'.toUInt8 :=
    bytes_ne_zero _ field_width precision strings fpu word 4 (by decide) (by decide) (hor _ (by decide)) (by decide)
  unfold convert
  by_cases hcase : c = 'c'.toUInt8
  · rw [if_pos hcase]
    have hword : word.toUInt8 ≠ 0 := fun h => hc ⟨hcase, h⟩
    unfold convert_c
    simp only [List.mem_append, List.mem_singleton, not_or]
    refine ⟨⟨?_, hword.symm⟩, store_while_pre_ne_zero _ (by decide)⟩
    split_ifs
    · exact store_while_pre_ne_zero _ (by decide)
    · exact List.not_mem_nil
  · rw [if_neg hcase]
    refine zero_notMem_ite (string_ne_zero flags field_width precision strings word) ?_
    refine zero_notMem_ite (hplain 8 (by decide) (by decide)) ?_
    refine zero_notMem_ite (zero_notMem_ite (hnumber 16 (by decide) (by decide) ZEROPAD (by decide) 8)
      (hplain 16 (by decide) (by decide))) ?_
    refine zero_notMem_ite (hnumber 16 (by decide) (by decide) SMALL (by decide) field_width) ?_
    refine zero_notMem_ite (hplain 16 (by decide) (by decide)) ?_
    refine zero_notMem_ite (hnumber 10 (by decide) (by decide) SIGN (by decide) field_width) ?_
    refine zero_notMem_ite (hnumber 10 (by decide) (by decide) SIGN (by decide) field_width) ?_
    refine zero_notMem_ite (hplain 10 (by decide) (by decide)) ?_
    refine zero_notMem_ite List.not_mem_nil ?_
    refine zero_notMem_ite (double_ne_zero _ field_width precision fpu _ (or_double _)) ?_
    refine zero_notMem_ite (hplain 2 (by decide) (by decide)) ?_
    refine zero_notMem_ite hm ?_
    refine zero_notMem_ite hr ?_
    rw [List.mem_append, not_or]
    constructor
    · split_ifs <;> decide
    · split_ifs with hzero
      · rw [List.mem_singleton]
        exact fun h => hzero h.symm
      · exact List.not_mem_nil

end Nonzero

section Visible

variable (env : Env)

/-- Whether the conversion stores a character of zero. -/
def Head.EndsText (head : Head) : Prop := peek head.fmt = 'c'.toUInt8 ∧ (env.args head.ap).toUInt8 = 0

instance (head : Head) : Decidable (head.EndsText env) := inferInstanceAs (Decidable (_ ∧ _))

/-- The characters that the loop over the format stores in front of the first zero byte. -/
def visible_loop : ℕ → List u8 → ℕ → ℕ
  | 0, _, _ => 0
  | _ + 1, [], _ => 0
  | turns + 1, c :: fmt, ap =>
    if c ≠ '%'.toUInt8 then if c ≠ 0 then 1 + visible_loop turns fmt ap else 0
    else if (scan_head env fmt ap).EndsText env then
      if (scan_head env fmt ap).flags &&& LEFT = 0 then ((scan_head env fmt ap).field_width.toInt - 1).toNat else 0
    else (scan_head env fmt ap).size env + visible_loop turns (directive env fmt ap).2.1 (directive env fmt ap).2.2

/-- The characters that a reader of the text takes for the string. -/
def visible_size (fmt : List u8) : ℕ := visible_loop env fmt.length fmt 0

def visible (text : List u8) : List u8 := text.takeWhile (· != 0)

theorem visible_append {front : List u8} (hfront : 0 ∉ front) (text : List u8) :
    visible (front ++ text) = front ++ visible text := by
  apply List.takeWhile_append_of_pos
  intro c hc
  rw [bne_iff_ne]
  rintro rfl
  exact hfront hc

theorem visible_zero (text : List u8) : visible (0 :: text) = [] := rfl

/-- A character of zero ends the text behind the spaces in front of it. -/
theorem visible_character {word flags : u32} {field_width : Int32} (hword : word.toUInt8 = 0)
    (hshort : (convert_c word flags field_width).length < 1024) (text : List u8) :
    (visible (convert_c word flags field_width ++ text)).length =
      if flags &&& LEFT = 0 then (field_width.toInt - 1).toNat else 0 := by
  have hsub := sub_one_toInt field_width
  unfold convert_c at hshort ⊢
  rw [hword] at hshort ⊢
  split_ifs at hshort ⊢ with hleft
  · have hspaces : 0 ∉ (store_while_pre field_width 32).1 := store_while_pre_ne_zero _ (by decide)
    have hcount := store_while_pre_length field_width 32
    simp only [List.length_append, List.length_singleton] at hshort
    simp only [List.append_assoc, List.cons_append]
    rw [visible_append hspaces, visible_zero, List.append_nil, hcount]
    omega
  · simp only [List.nil_append, List.cons_append, visible_zero, List.length_nil]

theorem visible_loop_eq (turns : ℕ) : ∀ fmt ap, (format_loop env turns fmt ap).length < 1024 →
    (visible (format_loop env turns fmt ap)).length = visible_loop env turns fmt ap := by
  induction turns with
  | zero =>
    intro fmt ap _
    rfl
  | succ turns ih =>
    intro fmt ap hshort
    cases fmt with
    | nil => rfl
    | cons c fmt =>
      unfold format_loop visible_loop
      unfold format_loop at hshort
      by_cases hc : c ≠ '%'.toUInt8
      · rw [if_pos hc] at hshort ⊢
        rw [List.length_cons] at hshort
        rw [if_pos hc]
        by_cases hzero : c ≠ 0
        · have hfront : 0 ∉ [c] := by
            rw [List.mem_singleton]
            exact hzero.symm
          rw [if_pos hzero, ← ih fmt ap (by omega), ← List.singleton_append, visible_append hfront, List.length_append]
          rfl
        · rw [if_neg hzero, not_not.mp hzero]
          rfl
      · rw [if_neg hc] at hshort ⊢
        dsimp only at hshort ⊢
        rw [List.length_append] at hshort
        rw [if_neg hc]
        have halike := directive_alike env fmt ap
        have hdouble := scan_head_double env fmt ap
        by_cases hends : (scan_head env fmt ap).EndsText env
        · obtain ⟨hcase, hword⟩ := id hends
          have htext : (directive env fmt ap).1 =
              convert_c (env.args (scan_head env fmt ap).ap) (scan_head env fmt ap).flags
                (scan_head env fmt ap).field_width := by
            rw [directive_text]
            unfold convert
            rw [if_pos hcase]
          rw [if_pos hends, htext]
          rw [htext] at hshort
          exact visible_character hword (by omega) _
        · have hnonzero : 0 ∉ (directive env fmt ap).1 := convert_ne_zero _ _ _ _ _ _ _ hdouble hends
          rw [if_neg hends, visible_append hnonzero, List.length_append, ih _ _ (by omega), halike.eq (by omega)]

theorem visible_size_eq (fmt : List u8) (hshort : (format env fmt).length < 1024) :
    (visible (format env fmt)).length = visible_size env fmt :=
  visible_loop_eq env fmt.length fmt 0 hshort

end Visible

end onix.Format
