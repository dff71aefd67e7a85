import Onix.Format.Integer
import Onix.Library.Binary64

namespace onix.Format

open Numeral

/-- The instructions work exactly on the doubles that stand for a number below 2³² in absolute value; `denotes` says
which number the bits of a double stand for. -/
structure Fpu.Exact (fpu : Fpu) (denotes : u64 → ℚ → Prop) : Prop where
  negative : ∀ {x q}, denotes x q → (fpu.negative x = true ↔ q < 0)
  neg : ∀ {x q}, denotes x q → denotes (fpu.neg x) (-q)
  integer : ∀ {x q}, denotes x q → 0 ≤ q → q < 2 ^ 32 → (fpu.integer x).toNat = ⌊q⌋₊
  millionths : ∀ {x q}, denotes x q → 0 ≤ q → q < 2 ^ 32 →
    (fpu.millionths x (fpu.integer x)).toNat = ⌊(q - ⌊q⌋₊) * 10 ^ 6⌋₊

section Text

variable (flags : u32)

theorem digits_do_eq (num : u32) : digits_do flags 10 num = (digits 10 num.toNat).map (digit flags) := by
  have hten : 2 ≤ (10 : u32).toNat := by decide
  have hlt := num.toNat_lt
  have hdiv : (num / 10).toNat = num.toNat / 10 := UInt32.toNat_div num 10
  have hmod : (num % 10).toNat = num.toNat % 10 := UInt32.toNat_mod num 10
  have hrest := digits_while_eq flags hten 32 (num / 10) (by
    have hpow : 2 ^ 32 ≤ (10 : u32).toNat ^ 32 := Nat.pow_le_pow_left hten 32
    omega)
  unfold digits_do digits
  rw [hrest, hdiv, hmod]
  split_ifs with hzero
  · rw [hzero]
    rfl
  · have hstep : Nat.digits 10 num.toNat = num.toNat % 10 :: Nat.digits 10 (num.toNat / 10) :=
      Nat.digits_def' (by omega) (by omega)
    rw [hstep]
    rfl

/-- The digits of a double in the order they are printed -/
theorem double_digits_reverse (fpu : Fpu) (num : u64) {x : u64} (hx : x = if fpu.negative num then fpu.neg num else num) :
    (double_digits fpu num flags).reverse = written (digit flags) 10 0 (fpu.integer x).toNat ++
      46 :: written (digit flags) 10 0 (fpu.millionths x (fpu.integer x)).toNat := by
  unfold double_digits written
  dsimp only
  rw [← hx, digits_do_eq, digits_do_eq]
  simp only [List.reverse_append, List.reverse_singleton, List.replicate_zero, List.nil_append, List.singleton_append]

theorem double_sign_bytes (fpu : Fpu) (num : u64) :
    ∃ sign : Sign, double_sign fpu num flags = sign.bytes ∧ (sign = .minus ↔ fpu.negative num = true) := by
  unfold double_sign
  split_ifs with hneg
  · exact ⟨.minus, rfl, iff_of_true rfl hneg⟩
  · exact ⟨.plus, rfl, iff_of_false (fun h => Sign.noConfusion h) hneg⟩
  · exact ⟨.space, rfl, iff_of_false (fun h => Sign.noConfusion h) hneg⟩
  · exact ⟨.none, rfl, iff_of_false (fun h => Sign.noConfusion h) hneg⟩

/-- Whatever is left of the size, there are spaces at both ends and spaces or zeros behind the sign. -/
theorem number_result_field (size precision : Int32) (sign : List u8) {tmp : List u8}
    (hshort : tmp.length < 2 ^ 31) (hle : tmp.length ≤ precision.toInt) :
    ∃ a b c pad, (pad = 32 ∨ pad = 48) ∧ number_result 10 size precision flags sign tmp =
      List.replicate a 32 ++ (sign ++ (List.replicate b pad ++
        ((List.replicate (precision.toInt.toNat - tmp.length) 48 ++ tmp.reverse) ++ List.replicate c 32))) := by
  have hpad : (if flags &&& ZEROPAD ≠ 0 then 48 else 32 : u8) = 32 ∨
      (if flags &&& ZEROPAD ≠ 0 then 48 else 32 : u8) = 48 := by
    split_ifs
    · exact .inr rfl
    · exact .inl rfl
  have hspecial := special_decimal flags
  unfold special at hspecial
  unfold number_result
  rw [hspecial]
  dsimp only
  rw [store_while_above_text hshort hle]
  generalize (if flags &&& ZEROPAD ≠ 0 then 48 else 32 : u8) = pad at *
  simp only [apply_ite Prod.fst, apply_ite Prod.snd, store_while_text, List.append_nil, List.append_assoc]
  split_ifs
  · exact ⟨_, _, _, pad, hpad, rfl⟩
  · exact ⟨_, 0, _, pad, hpad, rfl⟩
  · exact ⟨0, _, _, pad, hpad, rfl⟩
  · exact ⟨0, 0, _, pad, hpad, rfl⟩

end Text

section Value

/-- `ival` -/
def whole (q : ℚ) : ℕ := ⌊|q|⌋₊

/-- `fval` -/
def millionths (q : ℚ) : ℕ := ⌊(|q| - whole q) * 10 ^ 6⌋₊

/-- The number down to its millionths -/
def to_millionths (q : ℚ) : ℚ :=
  if q < 0 then -((whole q : ℚ) + millionths q / 10 ^ 6) else (whole q : ℚ) + millionths q / 10 ^ 6

theorem whole_le (q : ℚ) : 0 ≤ |q| - whole q ∧ |q| - whole q < 1 := by
  have hle := Nat.floor_le (abs_nonneg q)
  have hlt := Nat.lt_floor_add_one |q|
  unfold whole
  constructor
  · linarith
  · linarith

theorem millionths_lt (q : ℚ) : millionths q < 10 ^ 6 := by
  obtain ⟨hnonneg, hlt⟩ := whole_le q
  unfold millionths
  rw [Nat.floor_lt (by positivity)]
  push_cast
  linarith

theorem millionths_eq_zero (q : ℚ) : millionths q = 0 ↔ |q| - whole q < 1 / 10 ^ 6 := by
  unfold millionths
  rw [Nat.floor_eq_zero, lt_div_iff₀ (by positivity)]

theorem le_millionths (q : ℚ) : 10 ^ 5 ≤ millionths q ↔ 1 / 10 ≤ |q| - whole q := by
  unfold millionths
  rw [Nat.le_floor_iff' (by positivity)]
  push_cast
  constructor
  · intro h
    linarith
  · intro h
    linarith

/-- The digits behind the point are as many as they should be. -/
theorem div_pow_digits_iff {n : ℕ} (hn : n < 10 ^ 6) :
    (n : ℚ) / 10 ^ (digits 10 n).length = n / 10 ^ 6 ↔ n = 0 ∨ 10 ^ 5 ≤ n := by
  by_cases hzero : n = 0
  · rw [hzero]
    simp
  · have hdigits : digits 10 n = Nat.digits 10 n := if_neg hzero
    have hle : (Nat.digits 10 n).length ≤ 6 := (Nat.digits_length_le_iff (by omega) n).mpr hn
    have hsix : 5 < (Nat.digits 10 n).length ↔ 10 ^ 5 ≤ n := Nat.lt_digits_length_iff (by omega) n
    have hn' : (n : ℚ) ≠ 0 := Nat.cast_ne_zero.mpr hzero
    rw [hdigits, div_eq_mul_inv, div_eq_mul_inv, mul_right_inj' hn', inv_inj,
      pow_right_inj₀ (by norm_num) (by norm_num), ← hsix]
    omega

end Value

section Reading

variable {fpu : Fpu} {denotes : u64 → ℚ → Prop} (hexact : fpu.Exact denotes) {num : u64} {q : ℚ}
  (hq : denotes num q) (hbound : |q| < 2 ^ 32)
include hexact hq hbound

theorem absolute_denotes {x : u64} (hx : x = if fpu.negative num then fpu.neg num else num) :
    (fpu.integer x).toNat = whole q ∧ (fpu.millionths x (fpu.integer x)).toNat = millionths q := by
  have habs : denotes x |q| := by
    rw [hx]
    by_cases hneg : q < 0
    · rw [if_pos ((hexact.negative hq).mpr hneg), abs_of_neg hneg]
      exact hexact.neg hq
    · rw [if_neg (fun h => hneg ((hexact.negative hq).mp h)), abs_of_nonneg (not_lt.mp hneg)]
      exact hq
  exact ⟨hexact.integer habs (abs_nonneg q) hbound, hexact.millionths habs (abs_nonneg q) hbound⟩

/-- The digits behind the point are those of the millionths without leading zeros. -/
theorem read_number_double (size : Int32) {flags : u32} (hdouble : flags &&& DOUBLE ≠ 0) :
    read_decimal (number fpu num 10 size (-1) flags) =
      some (if q < 0 then -((whole q : ℚ) + millionths q / 10 ^ (digits 10 (millionths q)).length)
        else whole q + millionths q / 10 ^ (digits 10 (millionths q)).length) := by
  obtain ⟨hwhole, hmillionths⟩ := absolute_denotes hexact hq hbound rfl
  obtain ⟨sign, hsign, hminus⟩ := double_sign_bytes flags fpu num
  have hnegative := hexact.negative hq
  have hlength := double_digits_length fpu num (masked flags)
  have hdigits := double_digits_reverse (masked flags) fpu num rfl
  have hprecision : double_precision fpu num (masked flags) (-1) =
      Int32.ofNat (double_digits fpu num (masked flags)).length := by
    have hof : (Int32.ofNat (double_digits fpu num (masked flags)).length).toInt =
        (double_digits fpu num (masked flags)).length := Int32.toInt_ofNat_of_lt (by omega)
    apply if_pos
    rw [Int32.lt_iff_toInt_lt, hof]
    change (-1 : ℤ) < _
    omega
  have hof : (Int32.ofNat (double_digits fpu num (masked flags)).length).toInt =
      (double_digits fpu num (masked flags)).length := Int32.toInt_ofNat_of_lt (by omega)
  rw [number_double_eq fpu num flags hdouble, hprecision, hsign]
  obtain ⟨a, b, c, pad, hpad, htext⟩ := number_result_field (masked flags)
    ((if sign.bytes ≠ [] then size - 1 else size) - Int32.ofNat (double_digits fpu num (masked flags)).length)
    (Int32.ofNat (double_digits fpu num (masked flags)).length) sign.bytes
    (show (double_digits fpu num (masked flags)).length < 2 ^ 31 by omega) (by omega)
  have hchar : ∀ d < 10, digit_value (digit (masked flags) d) = d := by
    intro d hd
    exact digit_value_digit (masked flags) d (by omega)
  rw [htext, hof, Int.toNat_natCast, Nat.sub_self, List.replicate_zero, List.nil_append, hdigits,
    read_decimal_field hchar sign a b c 0 _ _ hpad, hwhole, hmillionths]
  simp only [hminus, hnegative]

/-- A `%f` of any flags and width reads as the number down to its millionths, unless these have leading zeros. -/
theorem double_reads_back_iff (strings : Strings) {word next : u32} (hnum : num = word.toUInt64 ||| next.toUInt64 <<< 32)
    (fs : List Flag) (field_width : Int32) :
    read_decimal (Conversion.f.convert strings fpu word next (flag_bits fs) field_width (-1)).1 =
        some (to_millionths q) ↔
      |q| - whole q < 1 / 10 ^ 6 ∨ 1 / 10 ≤ |q| - whole q := by
  have hread := read_number_double hexact hq hbound field_width (or_double (flag_bits fs ||| SIGN))
  have hiff := div_pow_digits_iff (millionths_lt q)
  rw [millionths_eq_zero, le_millionths] at hiff
  change read_decimal (number fpu (word.toUInt64 ||| next.toUInt64 <<< 32) 10 field_width (-1)
    (flag_bits fs ||| SIGN ||| DOUBLE)) = _ ↔ _
  rw [← hnum, hread, ← hiff, Option.some_inj]
  unfold to_millionths
  split_ifs
  · rw [neg_inj, add_right_inj]
  · rw [add_right_inj]

end Reading

section Binary64

/-- A unit that computes with the numbers that doubles stand for. -/
def Fpu.binary64 : Fpu where
  negative x := Binary64.value x < 0
  neg := Binary64.neg
  integer x := UInt32.ofNat ⌊Binary64.value x⌋₊
  millionths x n := UInt32.ofNat ⌊(Binary64.value x - n.toNat) * 10 ^ 6⌋₊

theorem binary64_exact : Fpu.binary64.Exact fun x q => Binary64.Finite x ∧ Binary64.value x = q := by
  have hinteger : ∀ {x}, 0 ≤ Binary64.value x → Binary64.value x < 2 ^ 32 →
      (Fpu.binary64.integer x).toNat = ⌊Binary64.value x⌋₊ := by
    intro x hnonneg hlt
    apply UInt32.toNat_ofNat_of_lt'
    rw [Nat.floor_lt hnonneg]
    exact_mod_cast hlt
  constructor
  · intro x q hx
    rw [← hx.2]
    exact decide_eq_true_iff
  · intro x q hx
    rw [← hx.2]
    exact ⟨(Binary64.finite_neg x).mpr hx.1, Binary64.value_neg x⟩
  · intro x q hx hnonneg hlt
    rw [← hx.2] at hnonneg hlt ⊢
    exact hinteger hnonneg hlt
  · intro x q hx hnonneg hlt
    rw [← hx.2] at hnonneg hlt ⊢
    have hmillionths := millionths_lt (Binary64.value x)
    unfold millionths whole at hmillionths
    rw [abs_of_nonneg hnonneg] at hmillionths
    have hword : (Fpu.binary64.millionths x (Fpu.binary64.integer x)).toNat =
        ⌊(Binary64.value x - (Fpu.binary64.integer x).toNat) * 10 ^ 6⌋₊ := by
      apply UInt32.toNat_ofNat_of_lt'
      rw [hinteger hnonneg hlt]
      exact lt_trans hmillionths (by norm_num [UInt32.size])
    rw [hword, hinteger hnonneg hlt]

/-- The doubles from 1 up to 2 -/
theorem value_one_and {x : u64} (hexponent : Binary64.exponent x = 1023) (hpositive : ¬ Binary64.negative x) :
    Binary64.Finite x ∧ Binary64.value x = 1 + Binary64.fraction x / 2 ^ 52 := by
  constructor
  · unfold Binary64.Finite
    rw [hexponent]
    decide
  · unfold Binary64.value Binary64.magnitude
    rw [if_neg hpositive, hexponent, if_neg (by decide), show (2 : ℚ) ^ 1075 = 2 ^ 52 * 2 ^ 1023 by rw [← pow_add],
      mul_div_mul_right _ _ (by positivity), add_div, div_self (by positivity)]

theorem double_reads_back_one_and_a_half : 1 / 10 ≤ |(3 / 2 : ℚ)| - whole (3 / 2) ∧
    read_decimal (Conversion.f.convert ⟨fun _ => 0, 0, rfl⟩ Fpu.binary64 0 0x3ff80000 (flag_bits [.plus, .zero]) 12 (-1)).1 =
      some (to_millionths (3 / 2)) := by
  have hvalue : Binary64.Finite 0x3ff8000000000000 ∧ Binary64.value 0x3ff8000000000000 = 3 / 2 := by
    obtain ⟨hfinite, hvalue⟩ := value_one_and (show Binary64.exponent 0x3ff8000000000000 = 1023 by decide) (by decide)
    refine ⟨hfinite, ?_⟩
    rw [hvalue, show Binary64.fraction 0x3ff8000000000000 = 2 ^ 51 by decide]
    norm_num
  have hwhole : whole (3 / 2) = 1 := by
    unfold whole
    rw [abs_of_nonneg (by norm_num), Nat.floor_eq_iff (by norm_num)]
    norm_num
  have habs : |(3 / 2 : ℚ)| = 3 / 2 := abs_of_nonneg (by norm_num)
  have hhalf : 1 / 10 ≤ |(3 / 2 : ℚ)| - whole (3 / 2) := by
    rw [hwhole, habs]
    norm_num
  refine ⟨hhalf, ?_⟩
  rw [double_reads_back_iff binary64_exact hvalue (by rw [habs]; norm_num) _ (by decide)]
  exact .inr hhalf

/-- The double 1.0625 is printed as `1.62500`. -/
theorem double_drops_zeros : Binary64.value 0x3ff1000000000000 = 17 / 16 ∧
    read_decimal (Conversion.f.convert ⟨fun _ => 0, 0, rfl⟩ Fpu.binary64 0 0x3ff10000 (flag_bits []) (-1) (-1)).1 =
      some (13 / 8) ∧
    13 / 8 ≠ to_millionths (17 / 16) := by
  have hvalue : Binary64.Finite 0x3ff1000000000000 ∧ Binary64.value 0x3ff1000000000000 = 17 / 16 := by
    obtain ⟨hfinite, hvalue⟩ := value_one_and (show Binary64.exponent 0x3ff1000000000000 = 1023 by decide) (by decide)
    refine ⟨hfinite, ?_⟩
    rw [hvalue, show Binary64.fraction 0x3ff1000000000000 = 2 ^ 48 by decide]
    norm_num
  have habs : |(17 / 16 : ℚ)| = 17 / 16 := abs_of_nonneg (by norm_num)
  have hwhole : whole (17 / 16) = 1 := by
    unfold whole
    rw [habs, Nat.floor_eq_iff (by norm_num)]
    norm_num
  have hmillionths : millionths (17 / 16) = 62500 := by
    unfold millionths
    rw [habs, hwhole, Nat.floor_eq_iff (by norm_num)]
    norm_num
  have hdigits : (digits 10 62500).length = 5 := by
    unfold digits
    norm_num
  refine ⟨hvalue.2, ?_, ?_⟩
  · have hread := read_number_double binary64_exact hvalue (by rw [habs]; norm_num) (-1)
      (or_double (flag_bits [] ||| SIGN))
    rw [if_neg (by norm_num), hwhole, hmillionths, hdigits] at hread
    exact hread.trans (by norm_num)
  · unfold to_millionths
    rw [if_neg (by norm_num), hwhole, hmillionths]
    norm_num

end Binary64

end onix.Format
