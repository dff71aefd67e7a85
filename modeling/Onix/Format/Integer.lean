import Onix.Format.Field
import Onix.Library.Numeral

namespace onix.Format

open Numeral

section Digits

variable (flags : u32)

theorem digit_value_digit : ∀ d < 36, digit_value (digit flags d) = d := by
  unfold digit
  by_cases hsmall : flags &&& SMALL ≠ 0
  · simp only [if_pos hsmall]
    decide
  · simp only [if_neg hsmall]
    decide

/-- The loop takes the digits off, the lowest first. -/
theorem digits_while_eq {base : u32} (hbase : 2 ≤ base.toNat) (turns : ℕ) :
    ∀ num : u32, num.toNat < base.toNat ^ turns →
      digits_while flags base turns num = (Nat.digits base.toNat num.toNat).map (digit flags) := by
  induction turns with
  | zero =>
    intro num hnum
    rw [pow_zero, Nat.lt_one_iff] at hnum
    rw [hnum, Nat.digits_zero]
    rfl
  | succ turns ih =>
    intro num hnum
    unfold digits_while
    by_cases hzero : num = 0
    · rw [if_pos hzero, hzero, UInt32.toNat_zero, Nat.digits_zero]
      rfl
    · have hpos : 0 < num.toNat := by
        by_contra hnot
        exact hzero (UInt32.toNat_inj.mp (show num.toNat = (0 : u32).toNat by rw [UInt32.toNat_zero]; omega))
      have hdiv : (num / base).toNat < base.toNat ^ turns := by
        rw [UInt32.toNat_div]
        apply Nat.div_lt_of_lt_mul
        rwa [mul_comm, ← pow_succ]
      rw [if_neg hzero, ih _ hdiv, UInt32.toNat_div, UInt32.toNat_mod, Nat.digits_def' (by omega) hpos]
      rfl

/-- `tmp` for an integer -/
def integer_tmp (base num : u32) : List u8 := if num = 0 then [48] else digits_while flags base 33 num

theorem integer_tmp_eq {base : u32} (hbase : 2 ≤ base.toNat) (num : u32) :
    integer_tmp flags base num = (digits base.toNat num.toNat).map (digit flags) := by
  unfold integer_tmp digits
  by_cases hzero : num = 0
  · rw [if_pos hzero, if_pos (by rw [hzero]; rfl)]
    rfl
  · have hne : num.toNat ≠ 0 := by
      intro h
      exact hzero (UInt32.toNat_inj.mp h)
    have hturns : num.toNat < base.toNat ^ 33 := by
      have hlt := num.toNat_lt
      have hpow : 2 ^ 33 ≤ base.toNat ^ 33 := Nat.pow_le_pow_left hbase 33
      omega
    rw [if_neg hzero, if_neg hne, digits_while_eq flags hbase 33 num hturns]

/-- A word has at most 32 digits. -/
theorem digits_word_length {base : ℕ} (hbase : 2 ≤ base) (num : u32) : (digits base num.toNat).length ≤ 32 := by
  apply digits_length_le hbase (by omega)
  have hlt := num.toNat_lt
  have hpow : 2 ^ 32 ≤ base ^ 32 := Nat.pow_le_pow_left hbase 32
  omega

theorem integer_tmp_length {base : u32} (hbase : 2 ≤ base.toNat) (num : u32) :
    (integer_tmp flags base num).length = (digits base.toNat num.toNat).length := by
  rw [integer_tmp_eq flags hbase, List.length_map]

end Digits

section Layout

/-- Where `number` fills up a field. -/
def fill (flags : u32) : Fill :=
  if flags &&& LEFT ≠ 0 then .right else if flags &&& ZEROPAD ≠ 0 then .zeros else .left

theorem and_zeropad_left (flags : u32) :
    flags &&& (ZEROPAD + LEFT) = 0 ↔ flags &&& ZEROPAD = 0 ∧ flags &&& LEFT = 0 := by
  have hor : flags &&& (ZEROPAD + LEFT) = (flags &&& ZEROPAD) ||| (flags &&& LEFT) := by
    rw [show ZEROPAD + LEFT = ZEROPAD ||| LEFT from rfl, UInt32.and_comm, or_and, UInt32.and_comm ZEROPAD,
      UInt32.and_comm LEFT]
  rw [hor]
  constructor
  · intro h
    have hbits := congrArg UInt32.toBitVec h
    rw [UInt32.toBitVec_or, show (0 : u32).toBitVec = 0#32 from rfl, BitVec.or_eq_zero_iff] at hbits
    exact ⟨UInt32.eq_of_toBitVec_eq hbits.1, UInt32.eq_of_toBitVec_eq hbits.2⟩
  · intro h
    rw [h.1, h.2]
    rfl

theorem store_while_text (n : Int32) (ch : u8) : (store_while n ch).1 = List.replicate n.toInt.toNat ch := by
  have hlength := store_while_length n ch
  unfold store_while at hlength ⊢
  split_ifs at hlength ⊢
  · rfl
  · rw [List.length_nil] at hlength
    rw [← hlength, List.replicate_zero]

/-- The first loop over a size uses it up. -/
theorem store_while_used {n : Int32} (hn : -2 ^ 31 < n.toInt) :
    (store_while n 32).2.toInt < 0 ∧ n.toInt ≤ (store_while n 32).2.toInt + 1 ∨
      0 < n.toInt ∧ (store_while n 32).2.toInt = -1 := by
  have hpos : 0 < n ↔ 0 < n.toInt := Int32.lt_iff_toInt_lt
  have hsub := sub_one_toInt n
  have hone : (-1 : Int32).toInt = -1 := rfl
  rw [store_while_left]
  split_ifs with h
  · rw [hpos] at h
    exact .inr ⟨h, hone⟩
  · rw [hpos] at h
    omega

theorem store_while_above_text {n : ℕ} {precision : Int32} (hshort : n < 2 ^ 31) (hle : n ≤ precision.toInt) :
    (store_while_above (Int32.ofNat n) precision 48).1 = List.replicate (precision.toInt.toNat - n) 48 := by
  have hi : (Int32.ofNat n).toInt = n := Int32.toInt_ofNat_of_lt hshort
  have hlt : Int32.ofNat n < precision ↔ (Int32.ofNat n).toInt < precision.toInt := Int32.lt_iff_toInt_lt
  unfold store_while_above
  split_ifs with h
  · have hcount : (precision.toInt - n).toNat = precision.toInt.toNat - n := by omega
    rw [hi, hcount]
  · rw [hlt] at h
    rw [show precision.toInt.toNat - n = 0 by omega, List.replicate_zero]

/-- One of the loops over the size fills the field up. -/
theorem number_result_lay (base : u32) {size precision : Int32} (flags : u32) (sign : List u8) {tmp : List u8}
    (hshort : tmp.length < 2 ^ 31) (hle : tmp.length ≤ precision.toInt) (hsize : -2 ^ 31 + more_loops flags ≤ size.toInt) :
    number_result base size precision flags sign tmp =
      (fill flags).lay size.toInt.toNat (sign ++ special base flags)
        (List.replicate (precision.toInt.toNat - tmp.length) 48 ++ tmp.reverse) := by
  have hand := and_zeropad_left flags
  unfold number_result fill
  unfold more_loops at hsize
  rw [show (if flags &&& SPECIAL ≠ 0 then if base = 8 then [48] else if base = 16 then [48, digit flags 33] else []
    else []) = special base flags from rfl]
  by_cases hleft : flags &&& LEFT = 0
  · by_cases hzero : flags &&& ZEROPAD = 0
    · have hboth := hand.mpr ⟨hzero, hleft⟩
      rw [if_pos hboth, if_pos hleft] at hsize
      have hused := store_while_used (n := size) (by omega)
      have hused' := store_while_used (n := (store_while size 32).2) (by omega)
      have hnone : (store_while size 32).2.toInt.toNat = 0 := by omega
      have hnone' : (store_while (store_while size 32).2 32).2.toInt.toNat = 0 := by omega
      simp only [hboth, hleft, hzero, ne_eq, not_true, if_true, if_false, store_while_text,
        store_while_above_text hshort hle, hnone, hnone', List.replicate_zero, List.append_nil, Fill.lay,
        List.append_assoc]
    · have hboth : ¬ flags &&& (ZEROPAD + LEFT) = 0 := fun h => hzero (hand.mp h).1
      rw [if_neg hboth, if_pos hleft] at hsize
      have hused := store_while_used (n := size) (by omega)
      have hleft' : (store_while size 48).2 = (store_while size 32).2 := by
        rw [store_while_left, store_while_left]
      have hnone : (store_while size 32).2.toInt.toNat = 0 := by omega
      simp only [hboth, hleft, hzero, ne_eq, not_true, not_false_eq_true, if_true, if_false, store_while_text,
        store_while_above_text hshort hle, hleft', hnone, List.replicate_zero, List.append_nil, Fill.lay,
        List.append_assoc, List.nil_append]
  · have hboth : ¬ flags &&& (ZEROPAD + LEFT) = 0 := fun h => hleft (hand.mp h).2
    simp only [hboth, hleft, ne_eq, not_false_eq_true, if_true, if_false, store_while_text,
      store_while_above_text hshort hle, List.append_nil, Fill.lay, List.append_assoc, List.nil_append]

end Layout

section Integers

variable (flags word : u32)

/-- What `number` prints in front of an integer. -/
def integer_sign : Sign :=
  if flags &&& SIGN ≠ 0 ∧ word.toInt32 < 0 then .minus
  else if flags &&& PLUS ≠ 0 then .plus else if flags &&& SPACE ≠ 0 then .space else .none

/-- The integer without its sign -/
def magnitude : u32 := if flags &&& SIGN ≠ 0 ∧ word.toInt32 < 0 then -word else word

/-- The precision, but no less than `i` -/
def number_precision (precision : Int32) (i : ℕ) : Int32 :=
  if precision < Int32.ofNat i then Int32.ofNat i else precision

theorem sign_bytes_le (sign : Sign) : sign.bytes.length ≤ 1 := by
  cases sign <;> decide

theorem special_le (base flags : u32) : (special base flags).length ≤ 2 := by
  unfold special
  split_ifs <;> simp

theorem number_integer_eq (fpu : Fpu) (base : u32) (size precision : Int32) (hinteger : flags &&& DOUBLE = 0) :
    number fpu word.toUInt64 base size precision flags =
      number_result base (size - Int32.ofNat (integer_sign flags word).bytes.length -
          Int32.ofNat (special base (masked flags)).length -
          number_precision precision (integer_tmp (masked flags) base (magnitude flags word)).length)
        (number_precision precision (integer_tmp (masked flags) base (magnitude flags word)).length) (masked flags)
        (integer_sign flags word).bytes (integer_tmp (masked flags) base (magnitude flags word)) := by
  unfold number
  extract_lets fl minus num' sign size' size'' tmp i precision'
  have hmasked : ¬ fl &&& DOUBLE ≠ 0 := by
    change ¬ masked flags &&& DOUBLE ≠ 0
    rw [masked_and (by decide), hinteger]
    exact fun h => h rfl
  have hflag : fl &&& SIGN = flags &&& SIGN := masked_and (by decide)
  have hplus : fl &&& PLUS = flags &&& PLUS := masked_and (by decide)
  have hspace : fl &&& SPACE = flags &&& SPACE := masked_and (by decide)
  have hminus : minus = true ↔ flags &&& SIGN ≠ 0 ∧ word.toInt32 < 0 := by
    change (if fl &&& DOUBLE ≠ 0 then fpu.negative word.toUInt64
      else decide (fl &&& SIGN ≠ 0 ∧ word.toUInt64.toUInt32.toInt32 < 0)) = true ↔ _
    rw [if_neg hmasked, decide_eq_true_iff, hflag, UInt32.toUInt32_toUInt64]
  have hnum : num'.toUInt32 = magnitude flags word := by
    change (if ¬minus then word.toUInt64 else if fl &&& DOUBLE ≠ 0 then fpu.neg word.toUInt64
      else (-word.toUInt64.toUInt32).toUInt64).toUInt32 = if flags &&& SIGN ≠ 0 ∧ word.toInt32 < 0 then -word else word
    rw [if_neg hmasked]
    by_cases h : flags &&& SIGN ≠ 0 ∧ word.toInt32 < 0
    · rw [if_neg (fun hnot => hnot (hminus.mpr h)), if_pos h, UInt32.toUInt32_toUInt64, UInt32.toUInt32_toUInt64]
    · rw [if_pos (fun hm => h (hminus.mp hm)), if_neg h, UInt32.toUInt32_toUInt64]
  have hsign : sign = (integer_sign flags word).bytes := by
    change (if minus then [45] else if fl &&& PLUS ≠ 0 then [43] else if fl &&& SPACE ≠ 0 then [32] else []) = _
    rw [hplus, hspace]
    unfold integer_sign
    by_cases h : flags &&& SIGN ≠ 0 ∧ word.toInt32 < 0
    · rw [if_pos (hminus.mpr h), if_pos h]
      rfl
    · rw [if_neg (fun hm => h (hminus.mp hm)), if_neg h]
      split_ifs <;> rfl
  have hsize' : size' = size - Int32.ofNat (integer_sign flags word).bytes.length := by
    change (if sign ≠ [] then size - 1 else size) = _
    rw [hsign]
    cases integer_sign flags word with
    | none =>
      rw [if_neg (fun h => h rfl)]
      exact (Int32.sub_zero size).symm
    | _ => rfl
  have hsize : size'' = size' - Int32.ofNat (special base (masked flags)).length := by
    change (if fl &&& SPECIAL ≠ 0 then if base = 16 then size' - 2 else if base = 8 then size' - 1 else size'
      else size') = _ - Int32.ofNat (if fl &&& SPECIAL ≠ 0 then if base = 8 then [48]
        else if base = 16 then [48, digit fl 33] else [] else [] : List u8).length
    by_cases hspecial : fl &&& SPECIAL ≠ 0
    · rw [if_pos hspecial, if_pos hspecial]
      by_cases hhex : base = 16
      · rw [hhex]
        rfl
      · rw [if_neg hhex, if_neg hhex]
        by_cases hoctal : base = 8
        · rw [if_pos hoctal, if_pos hoctal]
          rfl
        · rw [if_neg hoctal, if_neg hoctal]
          exact (Int32.sub_zero size').symm
    · rw [if_neg hspecial, if_neg hspecial]
      exact (Int32.sub_zero size').symm
  have htmp : tmp = integer_tmp (masked flags) base (magnitude flags word) := by
    change (if fl &&& DOUBLE ≠ 0 then _ else if num'.toUInt32 = 0 then [48] else digits_while fl base 33 num'.toUInt32) = _
    rw [if_neg hmasked, hnum]
    rfl
  have hprecision : precision' =
      number_precision precision (integer_tmp (masked flags) base (magnitude flags word)).length := by
    change (if precision < Int32.ofNat tmp.length then Int32.ofNat tmp.length else precision) = _
    rw [htmp]
    rfl
  rw [hsize, hsize', hprecision, hsign, htmp]
  rfl

end Integers

section Text

variable {flags word : u32}

theorem digit_masked (flags : u32) (index : ℕ) : digit (masked flags) index = digit flags index := by
  unfold digit
  rw [masked_and (by decide)]

theorem special_masked (base flags : u32) : special base (masked flags) = special base flags := by
  unfold special
  rw [masked_and (by decide), digit_masked]

theorem fill_masked (flags : u32) : fill (masked flags) = fill flags := by
  unfold fill
  rw [masked_and (by decide)]
  by_cases hleft : flags &&& LEFT ≠ 0
  · rw [if_pos hleft, if_pos hleft]
  · unfold masked
    rw [if_neg hleft, if_neg hleft, if_neg hleft]

theorem number_precision_toInt {i : ℕ} (hi : i < 2 ^ 31) (precision : Int32) :
    (number_precision precision i).toInt = max (i : ℤ) precision.toInt := by
  have hof : (Int32.ofNat i).toInt = i := Int32.toInt_ofNat_of_lt hi
  have hlt : precision < Int32.ofNat i ↔ precision.toInt < (Int32.ofNat i).toInt := Int32.lt_iff_toInt_lt
  unfold number_precision
  split_ifs with h
  · rw [hlt] at h
    omega
  · rw [hlt] at h
    omega

theorem small_toInt {i : ℕ} (hi : i ≤ 2) : (Int32.ofNat i).toInt = i := Int32.toInt_ofNat_of_lt (by omega)

/-- Below the 1024 of the assertion no size wraps, and the text is the sign, the prefix and the digits in a field. -/
theorem number_integer_lay (fpu : Fpu) {base : u32} (hbase : 2 ≤ base.toNat) (size precision : Int32)
    (hinteger : flags &&& DOUBLE = 0)
    (hshort : (number fpu word.toUInt64 base size precision flags).length < 1024) :
    ∃ zeros : ℕ, zeros + (digits base.toNat (magnitude flags word).toNat).length =
        max ((digits base.toNat (magnitude flags word).toNat).length : ℤ) precision.toInt ∧
      number fpu word.toUInt64 base size precision flags = (fill flags).lay
        (size.toInt - (integer_sign flags word).bytes.length - (special base flags).length -
          max ((digits base.toNat (magnitude flags word).toNat).length : ℤ) precision.toInt).toNat
        ((integer_sign flags word).bytes ++ special base flags)
        (written (digit flags) base.toNat zeros (magnitude flags word).toNat) := by
  have htmp := integer_tmp_eq (masked flags) hbase (magnitude flags word)
  rw [funext (digit_masked flags)] at htmp
  have hcount := integer_tmp_length (masked flags) hbase (magnitude flags word)
  have hword := digits_word_length hbase (magnitude flags word)
  rw [number_integer_eq flags word fpu base size precision hinteger, hcount, special_masked] at hshort ⊢
  have hprecision := number_precision_toInt (i := (digits base.toNat (magnitude flags word).toNat).length)
    (by omega) precision
  have hsign_le := sign_bytes_le (integer_sign flags word)
  have hspecial_le := special_le base flags
  have hsign := small_toInt (i := (integer_sign flags word).bytes.length) (by omega)
  have hspecial := small_toInt hspecial_le
  have hwrap := sub_sub_sub_toInt size (a := Int32.ofNat (integer_sign flags word).bytes.length)
    (b := Int32.ofNat (special base flags).length)
    (c := number_precision precision (digits base.toNat (magnitude flags word).toNat).length)
    (by omega) (by omega) (by omega)
  rw [hsign, hspecial] at hwrap
  generalize number_precision precision (digits base.toNat (magnitude flags word).toNat).length = digits_and_zeros at *
  generalize size - Int32.ofNat (integer_sign flags word).bytes.length - Int32.ofNat (special base flags).length -
    digits_and_zeros = rest at *
  have hlength := number_result_length base rest digits_and_zeros (masked flags) (integer_sign flags word).bytes
    (integer_tmp (masked flags) base (magnitude flags word)) (by omega) (by omega)
  have hloops := more_loops_le (masked flags)
  have hpads := pad_loops_cases (more_loops (masked flags)) (by omega) rest
  have hhigh := digits_and_zeros.toInt_lt
  have hlow := size.le_toInt
  -- a size that wraps leaves too many characters
  have hsize : rest.toInt = size.toInt - (integer_sign flags word).bytes.length - (special base flags).length -
      digits_and_zeros.toInt := by
    omega
  refine ⟨digits_and_zeros.toInt.toNat - (digits base.toNat (magnitude flags word).toNat).length, by omega, ?_⟩
  rw [number_result_lay base (masked flags) _ (by omega) (by omega) (by omega), hsize, special_masked, fill_masked,
    hprecision, hcount, htmp]
  rfl

end Text

section Flags

def flag_bits (fs : List Flag) : u32 := fs.foldl (fun flags flag => flags ||| flag.bit) 0

theorem or_and_ne (a b flag : u32) : (a ||| b) &&& flag ≠ 0 ↔ a &&& flag ≠ 0 ∨ b &&& flag ≠ 0 := by
  have hor : ∀ a b : u32, a ||| b = 0 ↔ a = 0 ∧ b = 0 := by
    intro a b
    rw [← UInt32.toBitVec_inj, UInt32.toBitVec_or, show (0 : u32).toBitVec = 0#32 from rfl, BitVec.or_eq_zero_iff,
      ← UInt32.toBitVec_inj, ← UInt32.toBitVec_inj]
    rfl
  rw [or_and, ne_eq, hor, not_and_or]

theorem foldl_bits_and (fs : List Flag) (flags mask : u32) :
    fs.foldl (fun flags flag => flags ||| flag.bit) flags &&& mask ≠ 0 ↔
      flags &&& mask ≠ 0 ∨ ∃ flag ∈ fs, flag.bit &&& mask ≠ 0 := by
  induction fs generalizing flags with
  | nil => simp only [List.foldl_nil, List.not_mem_nil, false_and, exists_false, or_false]
  | cons flag fs ih =>
    rw [List.foldl_cons, ih, or_and_ne, List.exists_mem_cons_iff, or_assoc]

theorem flag_bits_and (fs : List Flag) (mask : u32) :
    flag_bits fs &&& mask ≠ 0 ↔ ∃ flag ∈ fs, flag.bit &&& mask ≠ 0 := by
  have hzero : ¬ (0 : u32) &&& mask ≠ 0 := by
    rw [UInt32.zero_and]
    exact fun h => h rfl
  unfold flag_bits
  rw [foldl_bits_and]
  tauto

/-- The scanner sets a flag's own bit. -/
theorem flag_bits_bit (fs : List Flag) (flag : Flag) : flag_bits fs &&& flag.bit ≠ 0 ↔ flag ∈ fs := by
  have hbit : ∀ other : Flag, other.bit &&& flag.bit ≠ 0 ↔ other = flag := by
    intro other
    cases other <;> cases flag <;> decide
  rw [flag_bits_and]
  constructor
  · intro h
    obtain ⟨other, hmem, hother⟩ := h
    rwa [← (hbit other).mp hother]
  · intro h
    exact ⟨flag, h, (hbit flag).mpr rfl⟩

theorem flag_bits_other (fs : List Flag) {mask : u32} (hmask : ∀ flag : Flag, flag.bit &&& mask = 0) :
    flag_bits fs &&& mask = 0 := by
  by_contra h
  obtain ⟨flag, -, hflag⟩ := (flag_bits_and fs mask).mp h
  exact hflag (hmask flag)

end Flags

section Conversions

/-- The base of the conversions of integers -/
def Conversion.base : Conversion → Option ℕ
  | .b => some 2
  | .o => some 8
  | .d | .i | .u => some 10
  | .p | .x | .X => some 16
  | _ => none

/-- The integer that a conversion prints. -/
def Conversion.value (word : u32) : Conversion → ℤ
  | .d | .i => word.toInt32.toInt
  | _ => word.toNat

/-- The width that a conversion passes to `number`. -/
def Conversion.width (field_width : Int32) : Conversion → Int32
  | .p => if field_width = -1 then 8 else field_width
  | _ => field_width

/-- The flag that a conversion adds. -/
def Conversion.flag (field_width : Int32) : Conversion → u32
  | .d | .i => SIGN
  | .x => SMALL
  | .p => if field_width = -1 then ZEROPAD else 0
  | _ => 0

variable (fs : List Flag) (field_width : Int32)

/-- The sign of a value -/
def sign_of (value : ℤ) : Sign :=
  if value < 0 then .minus else if .plus ∈ fs then .plus else if .space ∈ fs then .space else .none

theorem sign_of_minus (value : ℤ) : sign_of fs value = .minus ↔ value < 0 := by
  unfold sign_of
  split_ifs with hneg
  all_goals simp only [hneg]

/-- The prefix of a conversion -/
def Conversion.radix : Conversion → List u8
  | .o => if .special ∈ fs then ['0'.toUInt8] else []
  | .x => if .special ∈ fs then ['0'.toUInt8, 'x'.toUInt8] else []
  | .p | .X => if .special ∈ fs then ['0'.toUInt8, 'X'.toUInt8] else []
  | _ => []

/-- How a conversion fills its field up. -/
def Conversion.fill (conversion : Conversion) : Fill :=
  if .minus ∈ fs then .right
  else if .zero ∈ fs ∨ conversion = .p ∧ field_width = -1 then .zeros
  else .left

theorem flag_cases (conversion : Conversion) : conversion.flag field_width = SIGN ∨
    conversion.flag field_width = SMALL ∨ conversion.flag field_width = ZEROPAD ∨ conversion.flag field_width = 0 := by
  cases conversion with
  | p =>
    unfold Conversion.flag
    split_ifs <;> simp
  | _ =>
    unfold Conversion.flag
    simp

theorem flag_or_iff (conversion : Conversion) (flag : Flag) (hflag : flag ≠ .zero) :
    (flag_bits fs ||| conversion.flag field_width) &&& flag.bit ≠ 0 ↔ flag ∈ fs := by
  have hall : ¬ conversion.flag field_width &&& flag.bit ≠ 0 := by
    obtain h | h | h | h := flag_cases field_width conversion
    all_goals
      rw [h]
      cases flag with
      | zero => exact absurd rfl hflag
      | _ => decide
  rw [or_and_ne, flag_bits_bit]
  exact or_iff_left hall

theorem flag_zero_iff (conversion : Conversion) : (flag_bits fs ||| conversion.flag field_width) &&& ZEROPAD ≠ 0 ↔
    .zero ∈ fs ∨ conversion = .p ∧ field_width = -1 := by
  have hflag : conversion.flag field_width &&& ZEROPAD ≠ 0 ↔ conversion = .p ∧ field_width = -1 := by
    cases conversion with
    | p =>
      unfold Conversion.flag
      split_ifs with hbare <;> simp +decide [hbare]
    | _ =>
      unfold Conversion.flag
      simp +decide
  rw [or_and_ne, hflag, ← flag_bits_bit fs .zero]
  rfl

theorem flag_no_bit (conversion : Conversion) {mask : u32} (hmask : ∀ flag : Flag, flag.bit &&& mask = 0) :
    (flag_bits fs ||| conversion.flag field_width) &&& mask = conversion.flag field_width &&& mask := by
  rw [or_and, flag_bits_other fs hmask, UInt32.zero_or]

/-- The sign is that of the value, and the magnitude is its absolute value. -/
theorem sign_and_magnitude (conversion : Conversion) (word : u32) :
    integer_sign (flag_bits fs ||| conversion.flag field_width) word = sign_of fs (conversion.value word) ∧
      (magnitude (flag_bits fs ||| conversion.flag field_width) word).toNat = (conversion.value word).natAbs := by
  have hplus := flag_or_iff fs field_width conversion .plus (by decide)
  have hspace := flag_or_iff fs field_width conversion .space (by decide)
  have hsign : (flag_bits fs ||| conversion.flag field_width) &&& SIGN = conversion.flag field_width &&& SIGN := by
    apply flag_no_bit
    intro flag
    cases flag <;> decide
  have hsigned : conversion.flag field_width &&& SIGN ≠ 0 ↔ conversion = .d ∨ conversion = .i := by
    cases conversion with
    | p =>
      unfold Conversion.flag
      split_ifs <;> simp +decide
    | _ =>
      unfold Conversion.flag
      simp +decide
  have hvalue : conversion.value word = if conversion = .d ∨ conversion = .i then word.toInt32.toInt else word.toNat := by
    cases conversion <;> rfl
  have htoInt : word.toInt32.toInt = (word.toNat : ℤ).bmod (2 ^ 32) := BitVec.toInt_eq_toNat_bmod word.toBitVec
  have hneg : (-word).toNat = (2 ^ 32 - word.toNat) % 2 ^ 32 := UInt32.toNat_neg word
  have hlt : word.toInt32 < 0 ↔ word.toInt32.toInt < 0 := Int32.lt_iff_toInt_lt
  have hword := word.toNat_lt
  rw [Int.bmod_def] at htoInt
  have hnegative : (flag_bits fs ||| conversion.flag field_width) &&& SIGN ≠ 0 ∧ word.toInt32 < 0 ↔
      conversion.value word < 0 := by
    rw [hsign, hsigned, hvalue, hlt]
    split_ifs with h
    · exact and_iff_right h
    · constructor
      · intro hboth
        exact absurd hboth.1 h
      · omega
  constructor
  · unfold integer_sign sign_of
    change (if _ then Sign.minus else if _ &&& Flag.plus.bit ≠ 0 then _ else if _ &&& Flag.space.bit ≠ 0 then _ else _) = _
    simp only [hnegative, hplus, hspace]
  · unfold magnitude
    by_cases hminus : conversion.value word < 0
    · rw [if_pos (hnegative.mpr hminus), hneg]
      rw [hvalue] at hminus ⊢
      split_ifs at hminus ⊢
      · omega
      · omega
    · rw [if_neg (fun h => hminus (hnegative.mp h))]
      rw [hvalue] at hminus ⊢
      split_ifs at hminus ⊢
      · omega
      · omega

theorem fill_eq (conversion : Conversion) :
    fill (flag_bits fs ||| conversion.flag field_width) = conversion.fill fs field_width := by
  have hleft := flag_or_iff fs field_width conversion .minus (by decide)
  have hzero := flag_zero_iff fs field_width conversion
  change _ &&& LEFT ≠ 0 ↔ _ at hleft
  unfold fill Conversion.fill
  simp only [hleft, hzero]

end Conversions

section RoundTrip

variable (fs : List Flag) (field_width precision : Int32)
variable {conversion : Conversion} {base : ℕ} (hbase : conversion.base = some base)
include hbase

theorem convert_integer (strings : Strings) (fpu : Fpu) (word next flags : u32) :
    (conversion.convert strings fpu word next flags field_width precision).1 =
      number fpu word.toUInt64 (UInt32.ofNat base) (conversion.width field_width) precision
        (flags ||| conversion.flag field_width) := by
  cases conversion with
  | p =>
    cases hbase
    unfold Conversion.convert Conversion.width Conversion.flag
    split_ifs with hbare
    · rfl
    · rw [UInt32.or_zero]
      rfl
  | o | X | u | b =>
    cases hbase
    unfold Conversion.flag
    rw [UInt32.or_zero]
    rfl
  | x | d | i =>
    cases hbase
    rfl
  | _ => cases hbase

theorem base_toNat : 2 ≤ base ∧ base ≤ 16 ∧ (UInt32.ofNat base).toNat = base := by
  cases conversion with
  | c | s | f | m | r | percent => cases hbase
  | _ =>
    cases hbase
    decide

theorem special_eq_radix :
    special (UInt32.ofNat base) (flag_bits fs ||| conversion.flag field_width) = conversion.radix fs := by
  have hspecial := flag_or_iff fs field_width conversion .special (by decide)
  have hsmall : (flag_bits fs ||| conversion.flag field_width) &&& SMALL ≠ 0 ↔ conversion = .x := by
    rw [flag_no_bit fs field_width conversion (by
      intro flag
      cases flag <;> decide)]
    cases conversion with
    | p =>
      unfold Conversion.flag
      split_ifs <;> simp +decide
    | _ =>
      unfold Conversion.flag
      simp +decide
  change _ &&& SPECIAL ≠ 0 ↔ _ at hspecial
  unfold special digit
  by_cases hmem : .special ∈ fs
  · rw [if_pos (hspecial.mpr hmem)]
    simp only [hsmall]
    cases conversion with
    | c | s | f | m | r | percent => cases hbase
    | _ =>
      cases hbase
      unfold Conversion.radix
      simp +decide [hmem]
  · rw [if_neg (fun h => hmem (hspecial.mp h))]
    cases conversion with
    | o | x | p | X => exact (if_neg hmem).symm
    | _ => rfl

theorem radix_of_base : Radix base (conversion.radix fs) := by
  cases conversion with
  | o =>
    cases hbase
    unfold Conversion.radix
    split_ifs
    · exact .inr (.inl ⟨rfl, rfl⟩)
    · exact .inl rfl
  | x =>
    cases hbase
    unfold Conversion.radix
    split_ifs
    · exact .inr (.inr ⟨rfl, .inl rfl⟩)
    · exact .inl rfl
  | p | X =>
    cases hbase
    unfold Conversion.radix
    split_ifs
    · exact .inr (.inr ⟨rfl, .inr rfl⟩)
    · exact .inl rfl
  | _ => exact .inl rfl

/-- An integer conversion prints the value in its field, and a reader gets it back; the digit buffer has room. -/
theorem integer_conversions_round_trip (strings : Strings) (fpu : Fpu) (word next : u32) {text tmp : List u8}
    (htext : text = (conversion.convert strings fpu word next (flag_bits fs) field_width precision).1)
    (htmp : tmp = integer_tmp (flag_bits fs ||| conversion.flag field_width) (UInt32.ofNat base)
      (magnitude (flag_bits fs ||| conversion.flag field_width) word)) :
    tmp.length ≤ 36 ∧
    (text.length < 1024 →
      read_integer base text = some (conversion.value word) ∧
      (text.length : ℤ) = max (conversion.width field_width).toInt
        ((sign_of fs (conversion.value word)).bytes.length + (conversion.radix fs).length +
          max ((digits base (conversion.value word).natAbs).length : ℤ) precision.toInt) ∧
      ∃ filled zeros : ℕ, (zeros + tmp.length : ℤ) = max (tmp.length : ℤ) precision.toInt ∧
        text = (conversion.fill fs field_width).lay filled
          ((sign_of fs (conversion.value word)).bytes ++ conversion.radix fs)
          (List.replicate zeros '0'.toUInt8 ++ tmp.reverse)) := by
  obtain ⟨htwo, hsixteen, hof⟩ := base_toNat hbase
  obtain ⟨hsign, hmagnitude⟩ := sign_and_magnitude fs field_width conversion word
  have hof' : 2 ≤ (UInt32.ofNat base).toNat := by omega
  have hspecial := special_eq_radix fs field_width hbase
  have hfill := fill_eq fs field_width conversion
  have hdouble : conversion.flag field_width &&& DOUBLE = 0 := by
    obtain h | h | h | h := flag_cases field_width conversion
    all_goals
      rw [h]
      decide
  have hinteger : (flag_bits fs ||| conversion.flag field_width) &&& DOUBLE = 0 := by
    rw [flag_no_bit, hdouble]
    intro flag
    cases flag <;> rfl
  rw [convert_integer field_width precision hbase] at htext
  generalize flag_bits fs ||| conversion.flag field_width = flags at *
  have htmp' := integer_tmp_eq flags hof' (magnitude flags word)
  rw [← htmp, hof, hmagnitude] at htmp'
  have hcount : tmp.length = (digits base (conversion.value word).natAbs).length := by
    rw [htmp', List.length_map]
  have hword := digits_word_length htwo (magnitude flags word)
  rw [hmagnitude, ← hcount] at hword
  refine ⟨by omega, ?_⟩
  intro hshort
  rw [htext] at hshort
  obtain ⟨zeros, hzeros, hlay⟩ := number_integer_lay fpu hof' (conversion.width field_width) precision hinteger hshort
  rw [hof, hmagnitude] at hlay hzeros
  rw [hsign, hspecial, hfill, ← hcount] at hlay
  rw [← hcount] at hzeros
  refine ⟨?_, ?_, ?_⟩
  · have hchar : ∀ d < base, digit_value (digit flags d) = d := by
      intro d hd
      exact digit_value_digit flags d (by omega)
    rw [htext, hlay, read_integer_lay htwo (by omega) hchar _ _ _ _ (radix_of_base fs hbase)]
    simp only [sign_of_minus]
    congr 1
    split_ifs
    · omega
    · omega
  · rw [htext, hlay, Fill.lay_length, written_length, List.length_append, ← hcount]
    omega
  · have hwritten : written (digit flags) base zeros (conversion.value word).natAbs =
        List.replicate zeros '0'.toUInt8 ++ tmp.reverse := by
      rw [htmp']
      rfl
    rw [hwritten] at hlay
    exact ⟨_, zeros, hzeros, htext.trans hlay⟩

end RoundTrip

theorem integer_conversions_round_trip_int_min : Conversion.d.base = some 10 ∧
    ("-00002147483648".toList.map Char.toUInt8).length < 1024 ∧
    read_integer 10 ("-00002147483648".toList.map Char.toUInt8) = some (-2147483648) := by
  have hbase : Conversion.d.base = some 10 := rfl
  have hshort : ("-00002147483648".toList.map Char.toUInt8).length < 1024 := by decide
  obtain ⟨-, hround⟩ := integer_conversions_round_trip [.zero, .plus] 15 (-1) hbase ⟨fun _ => 0, 0, rfl⟩
    ⟨fun _ => false, id, fun _ => 0, fun _ _ => 0⟩ 0x80000000 0
    (show "-00002147483648".toList.map Char.toUInt8 = _ by decide) rfl
  exact ⟨hbase, hshort, (hround hshort).1⟩

end onix.Format
