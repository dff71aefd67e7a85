import Onix.Format.Decimal
import Onix.Format.Scanner

namespace onix.Format

open Numeral

section Alike

/-- The same number of characters, or both too many for a buffer. -/
def Alike (a b : ℕ) : Prop := a = b ∨ 1024 ≤ a ∧ 1024 ≤ b

variable {a b c d : ℕ}

theorem Alike.refl (a : ℕ) : Alike a a := .inl rfl

theorem Alike.add (hab : Alike a b) (hcd : Alike c d) : Alike (a + c) (b + d) := by
  unfold Alike at *
  omega

theorem Alike.lt_iff (hab : Alike a b) : a < 1024 ↔ b < 1024 := by
  unfold Alike at hab
  omega

theorem Alike.eq (hab : Alike a b) (ha : a < 1024) : a = b := by
  unfold Alike at hab
  omega

theorem Alike.sum {α : Type} {f g : α → ℕ} (l : List α) (h : ∀ x ∈ l, Alike (f x) (g x)) :
    Alike (l.map f).sum (l.map g).sum := by
  induction l with
  | nil => exact .refl 0
  | cons x l ih => exact (h x List.mem_cons_self).add (ih fun y hy => h y (List.mem_cons_of_mem x hy))

theorem Alike.ite {p : Prop} [Decidable p] {x y : List u8 × ℕ} (hx : Alike x.1.length a) (hy : Alike y.1.length b) :
    Alike (if p then x else y).1.length (if p then a else b) := by
  split_ifs
  · exact hx
  · exact hy

end Alike

/-- The characters of a field: the content and what it leaves of the width. A counter below `least` goes on from the
other end of the numbers. -/
def field_size (least width content : ℤ) : ℕ :=
  if min width content < least then 2 ^ 31 else (max 0 content + max 0 (width - content)).toNat

theorem field_size_cases (least width content : ℤ) :
    least ≤ min width content ∧ (field_size least width content : ℤ) = max 0 content + max 0 (width - content) ∨
      min width content < least ∧ field_size least width content = 2 ^ 31 := by
  unfold field_size
  split_ifs with h
  · exact .inr ⟨h, rfl⟩
  · exact .inl ⟨not_lt.mp h, Int.toNat_of_nonneg (by positivity)⟩

section Sizes

variable (strings : Strings) (fpu : Fpu) (word next flags : u32) (field_width precision : Int32)

/-- The characters of `case 'c'` -/
def character_size : ℕ :=
  field_size (-2 ^ 31 + 1 + if flags &&& LEFT = 0 then 1 else 0) field_width.toInt 1

/-- The characters of `case 's'` for a string of length `n` -/
def string_size (n : ℕ) : ℕ :=
  let len := Int32.ofNat n
  let len := if 0 ≤ precision ∧ precision < len then precision else len
  field_size (-2 ^ 31 + if flags &&& LEFT = 0 then 1 else 0) field_width.toInt len.toInt

/-- The characters of `number`, for a sign, a prefix and digits of these lengths -/
def number_size (sign special digits : ℕ) : ℕ :=
  let content : ℤ := sign + special + max (digits : ℤ) precision.toInt
  field_size (-2 ^ 31 + more_loops (masked flags) + content) field_width.toInt content

def integer_size (base : u32) : ℕ :=
  number_size flags field_width precision (integer_sign flags word).bytes.length (special base flags).length
    (digits base.toNat (magnitude flags word).toNat).length

def double_size (num : u64) : ℕ :=
  let x := if fpu.negative num then fpu.neg num else num
  number_size flags field_width precision (double_sign fpu num flags).length 0
    ((digits 10 (fpu.millionths x (fpu.integer x)).toNat).length + 1 + (digits 10 (fpu.integer x).toNat).length)

/-- The characters of `case 'm'` and `case 'r'` -/
def bytes_size (count : ℕ) (base : u32) : ℕ :=
  ((bytes_at strings.byte word count).map fun b => integer_size b.toUInt32 flags field_width precision base).sum +
    (count - 1)

/-- The characters that the switch stores for a conversion. -/
def conversion_size (c : u8) : ℕ :=
  if c = 'c'.toUInt8 then character_size flags field_width
  else if c = 's'.toUInt8 then string_size flags field_width precision (strlen strings word)
  else if c = 'o'.toUInt8 then integer_size word flags field_width precision 8
  else if c = 'p'.toUInt8 then
    if field_width = -1 then integer_size word (flags ||| ZEROPAD) 8 precision 16
    else integer_size word flags field_width precision 16
  else if c = 'x'.toUInt8 then integer_size word (flags ||| SMALL) field_width precision 16
  else if c = 'X'.toUInt8 then integer_size word flags field_width precision 16
  else if c = 'd'.toUInt8 then integer_size word (flags ||| SIGN) field_width precision 10
  else if c = 'i'.toUInt8 then integer_size word (flags ||| SIGN) field_width precision 10
  else if c = 'u'.toUInt8 then integer_size word flags field_width precision 10
  else if c = 'n'.toUInt8 then 0
  else if c = 'f'.toUInt8 then
    double_size fpu (flags ||| SIGN ||| DOUBLE) field_width precision (word.toUInt64 ||| next.toUInt64 <<< 32)
  else if c = 'b'.toUInt8 then integer_size word flags field_width precision 2
  else if c = 'm'.toUInt8 then bytes_size strings word (flags ||| (SMALL ||| ZEROPAD)) 2 precision 6 16
  else if c = 'r'.toUInt8 then bytes_size strings word (flags ||| SMALL) field_width precision 4 10
  else (if c ≠ '%'.toUInt8 then 1 else 0) + if c ≠ 0 then 1 else 0

end Sizes

section Characters

variable (flags : u32) (field_width : Int32)

theorem store_while_pre_length (n : Int32) (ch : u8) :
    (store_while_pre n ch).1.length = (n - 1).toInt.toNat := by
  have hpos : 0 < n - 1 ↔ 0 < (n - 1).toInt := Int32.lt_iff_toInt_lt
  unfold store_while_pre
  split_ifs with h
  · rw [List.length_replicate]
    rfl
  · rw [hpos] at h
    rw [List.length_nil]
    omega

theorem store_while_pre_left (n : Int32) (ch : u8) :
    (store_while_pre n ch).2 = if 0 < n - 1 then 0 else n - 1 := by
  unfold store_while_pre
  split_ifs <;> rfl

theorem character_alike (word : u32) :
    Alike (convert_c word flags field_width).length (character_size flags field_width) := by
  have hlow := (field_width - 1 - 1).le_toInt
  have hlow' := field_width.le_toInt
  have hhigh := (field_width - 1).toInt_lt
  have hsub := sub_one_toInt field_width
  have hsub' := sub_one_toInt (field_width - 1)
  have hpos : 0 < field_width - 1 ↔ 0 < (field_width - 1).toInt := Int32.lt_iff_toInt_lt
  have hzero : ((0 : Int32) - 1).toInt = -1 := rfl
  unfold convert_c character_size Alike
  by_cases hleft : flags &&& LEFT = 0
  · have hsize := field_size_cases (-2 ^ 31 + 1 + 1) field_width.toInt 1
    simp only [hleft, if_true, List.length_append, List.length_singleton, store_while_pre_length, store_while_pre_left,
      hpos]
    split_ifs
    all_goals omega
  · have hsize := field_size_cases (-2 ^ 31 + 1 + 0) field_width.toInt 1
    simp only [hleft, if_false, List.length_append, List.length_singleton, List.length_nil, store_while_pre_length]
    omega

theorem store_while_above_length (low n : Int32) (ch : u8) :
    (store_while_above low n ch).1.length = (n.toInt - low.toInt).toNat := by
  have hlt : low < n ↔ low.toInt < n.toInt := Int32.lt_iff_toInt_lt
  unfold store_while_above
  split_ifs with h
  · exact List.length_replicate
  · rw [hlt] at h
    rw [List.length_nil]
    omega

theorem store_while_above_left (low n : Int32) (ch : u8) :
    (store_while_above low n ch).2 = if low < n then low - 1 else n - 1 := by
  unfold store_while_above
  split_ifs <;> rfl

theorem bytes_at_length (byte : u32 → u8) (s : u32) (count : ℕ) : (bytes_at byte s count).length = count := by
  unfold bytes_at
  rw [List.length_map, List.length_range]

theorem string_alike (strings : Strings) (word : u32) (precision : Int32) :
    Alike (convert_s strings word flags field_width precision).length
      (string_size flags field_width precision (strlen strings word)) := by
  unfold convert_s string_size Alike
  dsimp only
  generalize (if 0 ≤ precision ∧ precision < Int32.ofNat (strlen strings word) then precision
    else Int32.ofNat (strlen strings word)) = len
  have hlow := (field_width - 1).le_toInt
  have hlow' := field_width.le_toInt
  have hhigh := field_width.toInt_lt
  have hleast := (len - 1).le_toInt
  have hleast' := len.le_toInt
  have hhigh' := len.toInt_lt
  have hsub := sub_one_toInt field_width
  have hsub' := sub_one_toInt len
  have hlt : len < field_width ↔ len.toInt < field_width.toInt := Int32.lt_iff_toInt_lt
  have hcount : len.toNatClampNeg = len.toInt.toNat := rfl
  by_cases hleft : flags &&& LEFT = 0
  · have hsize := field_size_cases (-2 ^ 31 + 1) field_width.toInt len.toInt
    simp only [hleft, if_true, List.length_append, store_while_above_length, store_while_above_left, bytes_at_length,
      hcount, hlt]
    split_ifs
    all_goals omega
  · have hsize := field_size_cases (-2 ^ 31 + 0) field_width.toInt len.toInt
    simp only [hleft, if_false, List.length_append, List.length_nil, store_while_above_length, bytes_at_length, hcount]
    omega

end Characters

section Numbers

variable (flags : u32) (field_width precision : Int32)

/-- The sizes of a number: what `number` makes of them. -/
theorem number_result_alike (base : u32) (sign tmp : List u8) (hsign : sign.length ≤ 1) (htmp : tmp.length < 100) :
    Alike (number_result base (field_width - Int32.ofNat sign.length - Int32.ofNat (special base (masked flags)).length -
        number_precision precision tmp.length) (number_precision precision tmp.length) (masked flags) sign tmp).length
      (number_size flags field_width precision sign.length (special base flags).length tmp.length) := by
  have hspecial_le := special_le base flags
  have hloops := more_loops_le (masked flags)
  have hprecision := number_precision_toInt (i := tmp.length) (by omega) precision
  have hsign' := small_toInt (i := sign.length) (by omega)
  have hspecial := small_toInt hspecial_le
  rw [special_masked]
  have hwrap := sub_sub_sub_toInt field_width (a := Int32.ofNat sign.length)
    (b := Int32.ofNat (special base flags).length) (c := number_precision precision tmp.length)
    (by omega) (by omega) (by omega)
  rw [hsign', hspecial] at hwrap
  have hlow := field_width.le_toInt
  have hhigh := field_width.toInt_lt
  generalize number_precision precision tmp.length = digits at *
  generalize field_width - Int32.ofNat sign.length - Int32.ofNat (special base flags).length - digits = size at *
  have hhigh' := digits.toInt_lt
  have hlength := number_result_length base size digits (masked flags) sign tmp (by omega) (by omega)
  have hpads := pad_loops_cases (more_loops (masked flags)) (by omega) size
  have hsize := field_size_cases
    (-2 ^ 31 + more_loops (masked flags) + (sign.length + (special base flags).length + digits.toInt)) field_width.toInt
    (sign.length + (special base flags).length + digits.toInt)
  rw [special_masked] at hlength
  unfold number_size
  dsimp only
  rw [← hprecision]
  generalize (number_result _ _ _ _ _ _).length = length at *
  generalize (special base flags).length = special_length at *
  generalize more_loops (masked flags) = loops at *
  generalize hcontent : (sign.length + special_length + digits.toInt : ℤ) = content at *
  unfold Alike
  omega

theorem integer_alike (fpu : Fpu) (word : u32) {base : u32} (hbase : 2 ≤ base.toNat) (hinteger : flags &&& DOUBLE = 0) :
    Alike (number fpu word.toUInt64 base field_width precision flags).length
      (integer_size word flags field_width precision base) := by
  have hcount := integer_tmp_length (masked flags) hbase (magnitude flags word)
  have hword := digits_word_length hbase (magnitude flags word)
  have halike := number_result_alike flags field_width precision base (integer_sign flags word).bytes
    (integer_tmp (masked flags) base (magnitude flags word)) (sign_bytes_le _) (by omega)
  rw [number_integer_eq flags word fpu base field_width precision hinteger]
  unfold integer_size
  rw [hcount] at halike ⊢
  exact halike

theorem double_digits_count (fpu : Fpu) (num : u64) {x : u64} (hx : x = if fpu.negative num then fpu.neg num else num) :
    (double_digits fpu num flags).length =
      (digits 10 (fpu.millionths x (fpu.integer x)).toNat).length + 1 + (digits 10 (fpu.integer x).toNat).length := by
  unfold double_digits
  dsimp only
  rw [← hx, digits_do_eq, digits_do_eq]
  simp only [List.length_append, List.length_map, List.length_singleton]

theorem double_alike (fpu : Fpu) (num : u64) (hdouble : flags &&& DOUBLE ≠ 0) :
    Alike (number fpu num 10 field_width precision flags).length (double_size fpu flags field_width precision num) := by
  have hcount := double_digits_count (masked flags) fpu num rfl
  have hlength := double_digits_length fpu num (masked flags)
  have halike := number_result_alike flags field_width precision 10 (double_sign fpu num flags)
    (double_digits fpu num (masked flags)) (double_sign_le fpu num flags) (by omega)
  have hsize : (if double_sign fpu num flags ≠ [] then field_width - 1 else field_width) =
      field_width - Int32.ofNat (double_sign fpu num flags).length := by
    unfold double_sign
    split_ifs
    any_goals contradiction
    any_goals rfl
    exact (Int32.sub_zero field_width).symm
  rw [special_decimal, special_decimal, List.length_nil, show Int32.ofNat 0 = 0 from rfl, Int32.sub_zero, hcount] at halike
  have hprecision : double_precision fpu num (masked flags) precision = number_precision precision _ :=
    congrArg (number_precision precision) hcount
  rw [number_double_eq fpu num flags hdouble, hsize, hprecision]
  exact halike

theorem bytes_alike (strings : Strings) (fpu : Fpu) (word : u32) (count : ℕ) {base : u32} (separator : u8)
    (hbase : 2 ≤ base.toNat) (hinteger : flags &&& DOUBLE = 0) :
    Alike (convert_bytes strings fpu word flags field_width precision count base separator).length
      (bytes_size strings word flags field_width precision count base) := by
  have hlength : ∀ bs : List u8, ((bs.flatMap fun b => number fpu b.toUInt64 base field_width precision flags ++
      [separator]).dropLast).length =
      (bs.map fun b => (number fpu b.toUInt64 base field_width precision flags).length).sum + (bs.length - 1) := by
    intro bs
    have hsum : (bs.map fun b => (number fpu b.toUInt64 base field_width precision flags ++ [separator]).length).sum =
        (bs.map fun b => (number fpu b.toUInt64 base field_width precision flags).length).sum + bs.length := by
      simp only [List.length_append, List.length_singleton, List.sum_map_add, List.map_const', List.sum_replicate,
        smul_eq_mul, mul_one]
    rw [List.length_dropLast, List.length_flatMap, hsum]
    cases bs with
    | nil => rfl
    | cons b bs => rfl
  unfold convert_bytes bytes_size
  rw [hlength, bytes_at_length]
  apply Alike.add _ (.refl _)
  apply Alike.sum
  intro b _
  have hbyte := integer_alike flags field_width precision fpu b.toUInt32 hbase hinteger
  rwa [UInt8.toUInt64_toUInt32] at hbyte

/-- What the switch stores is as long as the sizes say. -/
theorem conversion_alike (strings : Strings) (fpu : Fpu) (word next : u32) (hinteger : flags &&& DOUBLE = 0) (c : u8) :
    Alike (convert strings fpu word next flags field_width precision c).1.length
      (conversion_size strings fpu word next flags field_width precision c) := by
  have hor : ∀ flag, flag &&& DOUBLE = 0 → (flags ||| flag) &&& DOUBLE = 0 := by
    intro flag hflag
    rw [or_and, hinteger, hflag]
    rfl
  have hsmall := hor SMALL (by decide)
  have hsign := hor SIGN (by decide)
  have hzero := hor ZEROPAD (by decide)
  have hboth := hor (SMALL ||| ZEROPAD) (by decide)
  have hbases : 2 ≤ (8 : u32).toNat ∧ 2 ≤ (16 : u32).toNat ∧ 2 ≤ (10 : u32).toNat ∧ 2 ≤ (2 : u32).toNat := by decide
  obtain ⟨height, hsixteen, hten, htwo⟩ := hbases
  have hm := bytes_alike _ 2 precision strings fpu word 6 ':'.toUInt8 hsixteen hboth
  have hr := bytes_alike _ field_width precision strings fpu word 4 '.'.toUInt8 hten hsmall
  unfold convert conversion_size
  refine .ite (character_alike flags field_width word) ?_
  refine .ite (string_alike flags field_width strings word precision) ?_
  refine .ite (integer_alike flags field_width precision fpu word height hinteger) ?_
  refine .ite (.ite (integer_alike _ 8 precision fpu word hsixteen hzero)
    (integer_alike flags field_width precision fpu word hsixteen hinteger)) ?_
  refine .ite (integer_alike _ field_width precision fpu word hsixteen hsmall) ?_
  refine .ite (integer_alike flags field_width precision fpu word hsixteen hinteger) ?_
  refine .ite (integer_alike _ field_width precision fpu word hten hsign) ?_
  refine .ite (integer_alike _ field_width precision fpu word hten hsign) ?_
  refine .ite (integer_alike flags field_width precision fpu word hten hinteger) ?_
  refine .ite (.refl 0) ?_
  refine .ite (double_alike _ field_width precision fpu _ (or_double _)) ?_
  refine .ite (integer_alike flags field_width precision fpu word htwo hinteger) ?_
  refine .ite hm ?_
  refine .ite hr ?_
  dsimp only
  rw [List.length_append]
  split_ifs
  all_goals exact .refl _

end Numbers

section Directives

/-- A directive up to its conversion: what has been read of it, and the format and the arguments from there on. -/
structure Head where
  flags : u32
  field_width : Int32
  precision : Int32
  fmt : List u8
  ap : ℕ

variable (env : Env) (fmt : List u8) (ap : ℕ)

def scan_head : Head :=
  let (flags, fmt) := scan_flags 0 fmt
  let (field_width, flags, fmt, ap) := scan_width env.args flags fmt ap
  let (precision, fmt, ap) := scan_precision env.args fmt ap
  ⟨flags, field_width, precision, scan_qualifier fmt, ap⟩

theorem directive_text : (directive env fmt ap).1 = (convert env.strings env.fpu (env.args (scan_head env fmt ap).ap)
    (env.args ((scan_head env fmt ap).ap + 1)) (scan_head env fmt ap).flags (scan_head env fmt ap).field_width
    (scan_head env fmt ap).precision (peek (scan_head env fmt ap).fmt)).1 := by
  unfold directive directive_end scan_head
  rfl

/-- The characters of a directive -/
def Head.size (head : Head) : ℕ :=
  conversion_size env.strings env.fpu (env.args head.ap) (env.args (head.ap + 1)) head.flags head.field_width
    head.precision (peek head.fmt)

theorem scan_flags_double (flags : u32) (hflags : flags &&& DOUBLE = 0) : (scan_flags flags fmt).1 &&& DOUBLE = 0 := by
  induction fmt generalizing flags with
  | nil => exact hflags
  | cons c fmt ih =>
    cases hflag : flag_of c with
    | none =>
      rw [scan_flags_cons_of_none hflag]
      exact hflags
    | some flag =>
      have hall : flag &&& DOUBLE = 0 := by
        unfold flag_of at hflag
        split_ifs at hflag
        all_goals
          cases hflag
          decide
      rw [scan_flags_cons_of_some hflag]
      apply ih
      rw [or_and, hflags, hall]
      rfl

/-- No flag of a directive is the one that stands for a double. -/
theorem scan_head_double : (scan_head env fmt ap).flags &&& DOUBLE = 0 := by
  have hflags := scan_flags_double fmt 0 (by decide)
  change (scan_width env.args (scan_flags 0 fmt).1 (scan_flags 0 fmt).2 ap).2.1 &&& DOUBLE = 0
  unfold scan_width
  split_ifs
  · exact hflags
  · change ((scan_flags 0 fmt).1 ||| LEFT) &&& DOUBLE = 0
    rw [or_and, hflags]
    rfl
  · exact hflags
  · exact hflags

theorem directive_alike : Alike (directive env fmt ap).1.length ((scan_head env fmt ap).size env) := by
  rw [directive_text]
  exact conversion_alike _ _ _ env.strings env.fpu _ _ (scan_head_double env fmt ap) _

/-- The characters that the loop over the format stores. -/
def size_loop : ℕ → List u8 → ℕ → ℕ
  | 0, _, _ => 0
  | _ + 1, [], _ => 0
  | turns + 1, c :: fmt, ap =>
    if c ≠ '%'.toUInt8 then 1 + size_loop turns fmt ap
    else (scan_head env fmt ap).size env + size_loop turns (directive env fmt ap).2.1 (directive env fmt ap).2.2

/-- The characters of a text: one for each that is not in a directive, and those of the directives' fields. -/
def text_size : ℕ := size_loop env fmt.length fmt 0

theorem size_loop_alike (turns : ℕ) (fmt : List u8) (ap : ℕ) :
    Alike (format_loop env turns fmt ap).length (size_loop env turns fmt ap) := by
  induction turns generalizing fmt ap with
  | zero => exact .refl 0
  | succ turns ih =>
    cases fmt with
    | nil => exact .refl 0
    | cons c fmt =>
      unfold format_loop size_loop
      split_ifs
      · rw [List.length_cons, Nat.add_comm]
        exact (Alike.refl 1).add (ih fmt ap)
      · dsimp only
        rw [List.length_append]
        exact (directive_alike env fmt ap).add (ih _ _)

theorem text_size_alike : Alike (format env fmt).length (text_size env fmt) :=
  size_loop_alike env fmt.length fmt 0

end Directives

end onix.Format
