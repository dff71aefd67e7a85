import Onix.Format.Directives

namespace onix.Format

/-- The characters that `loops` runs of `while (size-- > 0)` store. -/
def pad_loops : Nat → Int32 → Nat
  | 0, _ => 0
  | loops + 1, size => (store_while size 32).1.length + pad_loops loops (store_while size 32).2

section Padding

variable (n : Int32) (ch : u8)

theorem store_while_length : (store_while n ch).1.length = n.toInt.toNat := by
  have hpos : 0 < n ↔ 0 < n.toInt := Int32.lt_iff_toInt_lt
  unfold store_while
  split_ifs with h
  · rw [List.length_replicate]
    rfl
  · have hle : n.toInt ≤ 0 := by
      rw [hpos] at h
      omega
    rw [List.length_nil, Int.toNat_of_nonpos hle]

theorem store_while_left : (store_while n ch).2 = if 0 < n then -1 else n - 1 := by
  unfold store_while
  split_ifs <;> rfl

/-- One less, but for the least number. -/
theorem sub_one_toInt : (n - 1).toInt = n.toInt - 1 ∨ n.toInt = -2 ^ 31 ∧ (n - 1).toInt = 2 ^ 31 - 1 := by
  have hlow := n.le_toInt
  have hhigh := n.toInt_lt
  have hsub := Int32.toInt_sub n 1
  have hone : (1 : Int32).toInt = 1 := rfl
  rw [hone, Int.bmod_def] at hsub
  omega

/-- What is left of a size is negative or wraps at most once. -/
theorem sub_sub_sub_toInt {a b c : Int32} (ha : 0 ≤ a.toInt ∧ a.toInt ≤ 2) (hb : 0 ≤ b.toInt ∧ b.toInt ≤ 2)
    (hc : 0 ≤ c.toInt) :
    (n - a - b - c).toInt = n.toInt - a.toInt - b.toInt - c.toInt ∨
      n.toInt - a.toInt - b.toInt - c.toInt < -2 ^ 31 ∧
        (n - a - b - c).toInt = n.toInt - a.toInt - b.toInt - c.toInt + 2 ^ 32 := by
  have hsub : (n - a - b - c).toInt = (n.toInt - a.toInt - b.toInt - c.toInt).bmod (2 ^ 32) := by
    simp only [Int32.toInt_sub, Nat.reducePow, Int.bmod_sub_bmod]
  have hlow := n.le_toInt
  have hhigh := n.toInt_lt
  have hhigh' := c.toInt_lt
  rw [Int.bmod_def] at hsub
  omega

/-- The loops store as much as the first, or, when the size wraps, as much as there are positive numbers. -/
theorem pad_loops_cases (loops : Nat) (hloops : loops < 2 ^ 31) : ∀ size : Int32,
    -2 ^ 31 + loops ≤ size.toInt ∧ pad_loops (loops + 1) size = size.toInt.toNat ∨
      size.toInt < -2 ^ 31 + loops ∧ 2 ^ 31 - 1 ≤ pad_loops (loops + 1) size := by
  induction loops with
  | zero =>
    intro size
    have hlow := size.le_toInt
    refine .inl ⟨by omega, ?_⟩
    exact store_while_length size 32
  | succ loops ih =>
    intro size
    have hpos : 0 < size ↔ 0 < size.toInt := Int32.lt_iff_toInt_lt
    have hlow := size.le_toInt
    have hminus : (-1 : Int32).toInt = -1 := rfl
    have hstep : pad_loops (loops + 1 + 1) size =
        size.toInt.toNat + pad_loops (loops + 1) (if 0 < size then -1 else size - 1) := by
      change (store_while size 32).1.length + pad_loops (loops + 1) (store_while size 32).2 = _
      rw [store_while_length, store_while_left]
    rw [hstep]
    split_ifs with h
    · rw [hpos] at h
      have hrest := ih (by omega) (-1)
      omega
    · rw [hpos] at h
      have hrest := ih (by omega) (size - 1)
      have hsub := sub_one_toInt size
      omega

end Padding

section Digits

variable (flags base : u32)

theorem digits_while_turns (turns : Nat) (num : u32) : (digits_while flags base turns num).length ≤ turns := by
  induction turns generalizing num with
  | zero => exact le_refl _
  | succ turns ih =>
    unfold digits_while
    split_ifs
    · exact Nat.zero_le _
    · exact Nat.succ_le_succ (ih _)

end Digits

/-- The flags as `number` masks them. -/
def masked (flags : u32) : u32 := if flags &&& LEFT ≠ 0 then flags &&& ~~~ZEROPAD else flags

theorem masked_and {flags flag : u32} (hflag : ~~~ZEROPAD &&& flag = flag) : masked flags &&& flag = flags &&& flag := by
  unfold masked
  split_ifs
  · rw [UInt32.and_assoc, hflag]
  · rfl

/-- How many loops over the size are run but for the last. -/
def more_loops (flags : u32) : Nat :=
  (if flags &&& (ZEROPAD + LEFT) = 0 then 1 else 0) + (if flags &&& LEFT = 0 then 1 else 0)

theorem more_loops_le (flags : u32) : more_loops flags ≤ 2 := by
  unfold more_loops
  split_ifs <;> decide

/-- What `number` puts between the sign and the digits. -/
def special (base flags : u32) : List u8 :=
  if flags &&& SPECIAL ≠ 0 then if base = 8 then [48] else if base = 16 then [48, digit flags 33] else [] else []

theorem special_decimal (flags : u32) : special 10 flags = [] := by
  unfold special
  split_ifs <;> first | rfl | contradiction

/-- What is left of the precision goes into zeros. -/
theorem zeros_length {n : Nat} {precision : Int32} (hshort : n < 2 ^ 31) (hle : n ≤ precision.toInt) :
    (store_while_above (Int32.ofNat n) precision 48).1.length + n = precision.toInt.toNat := by
  have hi : (Int32.ofNat n).toInt = n := Int32.toInt_ofNat_of_lt hshort
  have hlt : Int32.ofNat n < precision ↔ (Int32.ofNat n).toInt < precision.toInt := Int32.lt_iff_toInt_lt
  unfold store_while_above
  split_ifs with h
  · rw [List.length_replicate]
    omega
  · rw [hlt] at h
    rw [List.length_nil]
    omega

theorem number_result_length (base : u32) (size precision : Int32) (flags : u32) (sign tmp : List u8)
    (hshort : tmp.length < 2 ^ 31) (hle : tmp.length ≤ precision.toInt) :
    (number_result base size precision flags sign tmp).length =
      sign.length + (special base flags).length + pad_loops (more_loops flags + 1) size + precision.toInt.toNat := by
  have hzeros := zeros_length hshort hle
  have hpads : ∀ size pad, (store_while size pad).1.length = (store_while size 32).1.length ∧
      (store_while size pad).2 = (store_while size 32).2 := by
    intro size pad
    rw [store_while_length, store_while_length, store_while_left, store_while_left]
    exact ⟨rfl, rfl⟩
  unfold number_result more_loops
  rw [show (if flags &&& SPECIAL ≠ 0 then if base = 8 then [48] else if base = 16 then [48, digit flags 33] else []
    else []) = special base flags from rfl]
  dsimp only
  simp only [List.length_append, List.length_reverse]
  generalize (if flags &&& ZEROPAD ≠ 0 then 48 else 32 : u8) = pad
  split_ifs
  · obtain ⟨hlength, hleft⟩ := hpads (store_while size 32).2 pad
    simp only [pad_loops, hlength, hleft]
    omega
  · simp only [pad_loops, List.length_nil]
    omega
  · obtain ⟨hlength, hleft⟩ := hpads size pad
    simp only [pad_loops, hlength, hleft, List.length_nil]
    omega
  · simp only [pad_loops, List.length_nil]
    omega

section Double

variable (fpu : Fpu) (num : u64) (flags : u32)

/-- What `number` prints before the digits of a double. -/
def double_sign : List u8 :=
  if fpu.negative num then [45] else if flags &&& PLUS ≠ 0 then [43] else if flags &&& SPACE ≠ 0 then [32] else []

/-- `tmp` for a double -/
def double_digits : List u8 :=
  let num := if fpu.negative num then fpu.neg num else num
  digits_do flags 10 (fpu.millionths num (fpu.integer num)) ++ [46] ++ digits_do flags 10 (fpu.integer num)

theorem double_digits_length : 3 ≤ (double_digits fpu num flags).length ∧ (double_digits fpu num flags).length < 100 := by
  have hdo : ∀ n, 1 ≤ (digits_do flags 10 n).length ∧ (digits_do flags 10 n).length ≤ 33 := by
    intro n
    have hturns := digits_while_turns flags 10 32 (n / 10)
    unfold digits_do
    rw [List.length_cons]
    omega
  unfold double_digits
  generalize (if fpu.negative num then fpu.neg num else num) = num
  have hmillionths := hdo (fpu.millionths num (fpu.integer num))
  have hinteger := hdo (fpu.integer num)
  simp only [List.length_append, List.length_singleton]
  omega

/-- The precision, but no less than there are digits. -/
def double_precision (precision : Int32) : Int32 :=
  if precision < Int32.ofNat (double_digits fpu num flags).length then Int32.ofNat (double_digits fpu num flags).length
  else precision

theorem number_double_eq (hdouble : flags &&& DOUBLE ≠ 0) (size precision : Int32) :
    number fpu num 10 size precision flags =
      number_result 10 ((if double_sign fpu num flags ≠ [] then size - 1 else size) -
        double_precision fpu num (masked flags) precision) (double_precision fpu num (masked flags) precision)
        (masked flags) (double_sign fpu num flags) (double_digits fpu num (masked flags)) := by
  unfold number
  extract_lets fl minus num' sign size' size'' tmp i precision'
  have hmasked : fl &&& DOUBLE ≠ 0 := by
    change masked flags &&& DOUBLE ≠ 0
    rwa [masked_and (by decide)]
  have hplus : fl &&& PLUS = flags &&& PLUS := masked_and (by decide)
  have hspace : fl &&& SPACE = flags &&& SPACE := masked_and (by decide)
  have hminus : minus = fpu.negative num := if_pos hmasked
  have hnum : num' = if fpu.negative num then fpu.neg num else num := by
    change (if ¬minus then num else if fl &&& DOUBLE ≠ 0 then fpu.neg num else _) = _
    rw [hminus, if_pos hmasked]
    split_ifs <;> rfl
  have hsign : sign = double_sign fpu num flags := by
    change (if minus then [45] else if fl &&& PLUS ≠ 0 then [43] else if fl &&& SPACE ≠ 0 then [32] else []) = _
    rw [hminus, hplus, hspace]
    rfl
  have hsize : size'' = size' := by
    change (if fl &&& SPECIAL ≠ 0 then if (10 : u32) = 16 then size' - 2 else if (10 : u32) = 8 then size' - 1 else size'
      else size') = _
    split_ifs <;> first | rfl | contradiction
  have htmp : tmp = double_digits fpu num fl := by
    change (if fl &&& DOUBLE ≠ 0 then digits_do fl 10 (fpu.millionths num' (fpu.integer num')) ++ [46] ++
      digits_do fl 10 (fpu.integer num') else _) = _
    rw [if_pos hmasked, hnum]
    rfl
  have hprecision : precision' = double_precision fpu num fl precision := by
    change (if precision < Int32.ofNat tmp.length then Int32.ofNat tmp.length else precision) = _
    rw [htmp]
    rfl
  have hsize' : size' = if double_sign fpu num flags ≠ [] then size - 1 else size := by
    change (if sign ≠ [] then size - 1 else size) = _
    rw [hsign]
  rw [hsize, hprecision, hsign, htmp, hsize']
  rfl

theorem double_sign_length : (double_sign fpu num flags).length =
    if fpu.negative num ∨ flags &&& PLUS ≠ 0 ∨ flags &&& SPACE ≠ 0 then 1 else 0 := by
  unfold double_sign
  split_ifs <;> first | rfl | tauto

theorem double_sign_le : (double_sign fpu num flags).length ≤ 1 := by
  rw [double_sign_length]
  split_ifs <;> decide

theorem sign_size_toInt (size : Int32) (sign : List u8) (hsign : sign.length ≤ 1) :
    (if sign ≠ [] then size - 1 else size).toInt = size.toInt - sign.length ∨
      size.toInt = -2 ^ 31 ∧ sign.length = 1 ∧ (if sign ≠ [] then size - 1 else size).toInt = 2 ^ 31 - 1 := by
  cases sign with
  | nil =>
    left
    rw [if_neg (fun h => h rfl), List.length_nil]
    omega
  | cons c sign =>
    have hsub := sub_one_toInt size
    rw [List.length_cons] at hsign ⊢
    rw [if_pos (List.cons_ne_nil _ _)]
    omega

/-- The length of a double, when its size does not wrap and when it does. -/
theorem number_double_length (hdouble : flags &&& DOUBLE ≠ 0) (size precision : Int32) :
    ∃ sign digits loops : Int, sign = (double_sign fpu num flags).length ∧
      digits = max precision.toInt (double_digits fpu num (masked flags)).length ∧
      loops = more_loops (masked flags) ∧
      sign + digits ≤ (number fpu num 10 size precision flags).length ∧
      (-2 ^ 31 + loops ≤ size.toInt - sign - digits →
        (number fpu num 10 size precision flags).length = max (sign + digits) size.toInt) ∧
      (digits < 1024 → size.toInt - sign - digits < -2 ^ 31 + loops →
        1024 ≤ (number fpu num 10 size precision flags).length) := by
  obtain ⟨hthree, hhundred⟩ := double_digits_length fpu num (masked flags)
  have hof : (Int32.ofNat (double_digits fpu num (masked flags)).length).toInt =
      (double_digits fpu num (masked flags)).length := Int32.toInt_ofNat_of_lt (by omega)
  have hprecision : (double_precision fpu num (masked flags) precision).toInt =
      max precision.toInt (double_digits fpu num (masked flags)).length := by
    have hlt : precision < Int32.ofNat (double_digits fpu num (masked flags)).length ↔
        precision.toInt < (Int32.ofNat (double_digits fpu num (masked flags)).length).toInt := Int32.lt_iff_toInt_lt
    unfold double_precision
    split_ifs with h
    · rw [hlt] at h
      omega
    · rw [hlt] at h
      omega
  rw [number_double_eq fpu num flags hdouble]
  generalize double_precision fpu num (masked flags) precision = digits at *
  have hsize := sign_size_toInt size (double_sign fpu num flags) (double_sign_le fpu num flags)
  generalize (if double_sign fpu num flags ≠ [] then size - 1 else size) = size' at *
  have hsub := Int32.toInt_sub size' digits
  rw [Int.bmod_def] at hsub
  have hpads := pad_loops_cases (more_loops (masked flags)) (by have := more_loops_le (masked flags); omega)
    (size' - digits)
  have hlow := size.le_toInt
  have hlow' := size'.le_toInt
  have hhigh' := size'.toInt_lt
  have hhigh := digits.toInt_lt
  have hlength := number_result_length 10 (size' - digits) digits (masked flags) (double_sign fpu num flags)
    (double_digits fpu num (masked flags)) (by omega) (by omega)
  rw [special_decimal, List.length_nil] at hlength
  refine ⟨_, _, _, rfl, rfl, rfl, ?_, ?_, ?_⟩
  · omega
  · intro hfits
    omega
  · intro hshort hwrap
    omega

end Double

section Short

/-- The flags that a `%f` passes to `number`. -/
def Directive.double_flags (d : Directive) : u32 := d.bits ||| SIGN ||| DOUBLE

/-- The width of a directive, where its argument gives none. -/
def Width.value : Width → Int32
  | .unset => -1
  | .digits first more => atoi 0 (first.succ :: more)
  | .star => 0

/-- The characters of the shortest double with the directive's flags and precision -/
def Directive.least_digits (d : Directive) : Int :=
  (if d.double_flags &&& PLUS ≠ 0 ∨ d.double_flags &&& SPACE ≠ 0 then 1 else 0) + max 3 d.precision.value.toInt

/-- The characters and the width of a double can be below the 1024 of the assertion, and the width is not so far
below zero that the size in `number` wraps. -/
def Directive.Short (d : Directive) : Prop :=
  d.least_digits < 1024 ∧ d.width.value.toInt < 1024 ∧
    -2 ^ 31 + more_loops (masked d.double_flags) + d.least_digits ≤ d.width.value.toInt

instance (d : Directive) : Decidable d.Short := inferInstanceAs (Decidable (_ ∧ _ ∧ _))

theorem or_and (a b flag : u32) : (a ||| b) &&& flag = (a &&& flag) ||| (b &&& flag) := by
  apply UInt32.eq_of_toBitVec_eq
  ext i hi
  simp only [UInt32.toBitVec_and, UInt32.toBitVec_or, BitVec.getElem_and, BitVec.getElem_or, Bool.and_or_distrib_right]

theorem or_double (flags : u32) : (flags ||| DOUBLE) &&& DOUBLE ≠ 0 := by
  have habsorb : (flags ||| DOUBLE) &&& DOUBLE = DOUBLE := by
    apply UInt32.eq_of_toBitVec_eq
    ext i hi
    rw [UInt32.toBitVec_and, UInt32.toBitVec_or, BitVec.getElem_and, BitVec.getElem_or]
    cases flags.toBitVec[i] <;> cases DOUBLE.toBitVec[i] <;> rfl
  rw [habsorb]
  decide

/-- The width changes no flag but `LEFT`. -/
theorem scan_flag (args : Nat → u32) (flags : u32) (ap : Nat) (width : Width) {flag : u32} (hflag : LEFT &&& flag = 0) :
    (width.scan args flags ap).2.1 &&& flag = flags &&& flag := by
  cases width with
  | star =>
    unfold Width.scan
    split_ifs
    · rw [or_and, hflag, UInt32.or_zero]
    · rfl
  | _ => rfl

end Short

end onix.Format
