import Onix.Format.Buffer

namespace onix.Print

open Format Numeral

/-- The bytes of a string -/
def cstring (strings : Strings) (s : u32) : List u8 := bytes_at strings.byte s (strlen strings s)

/-- What `%d` prints -/
def decimal (n : ℤ) : List u8 := (if n < 0 then ['-'.toUInt8] else []) ++ written (digit 0) 10 0 n.natAbs

/-- What the formats of debug.c and assert.c are made of -/
inductive Part where
  | text (cs : List u8)
  | s
  | d

def Part.format : Part → List u8
  | .text cs => cs
  | .s => ['%'.toUInt8, 's'.toUInt8]
  | .d => ['%'.toUInt8, 'd'.toUInt8]

/-- What is to be printed as it is has no directive in it. -/
def Part.Literal : Part → Prop
  | .text cs => '%'.toUInt8 ∉ cs
  | _ => True

instance : DecidablePred Part.Literal
  | .text cs => inferInstanceAs (Decidable ('%'.toUInt8 ∉ cs))
  | .s => instDecidableTrue
  | .d => instDecidableTrue

def ascii (text : String) : List u8 := text.toList.map Char.toUInt8

/-- The text of the parts, with their arguments from a word on -/
def parts_text (env : Env) : List Part → ℕ → List u8
  | [], _ => []
  | .text cs :: parts, ap => cs ++ parts_text env parts ap
  | .s :: parts, ap => cstring env.strings (env.args ap) ++ parts_text env parts (ap + 1)
  | .d :: parts, ap => decimal (env.args ap).toInt32.toInt ++ parts_text env parts (ap + 1)

section Plain

variable (strings : Strings) (fpu : Fpu) (word : u32)

theorem convert_s_plain (hshort : strlen strings word < 2 ^ 31) :
    convert_s strings word 0 (-1) (-1) = cstring strings word := by
  have hleft : (0 : u32) &&& LEFT = 0 := rfl
  have hprecision : ¬ (0 ≤ (-1 : Int32) ∧ (-1 : Int32) < Int32.ofNat (strlen strings word)) := by
    intro h
    exact absurd h.1 (by decide)
  have hlen : (Int32.ofNat (strlen strings word)).toInt = strlen strings word := Int32.toInt_ofNat_of_lt hshort
  have hcount : (Int32.ofNat (strlen strings word)).toNatClampNeg = strlen strings word := by
    change (Int32.ofNat (strlen strings word)).toInt.toNat = _
    rw [hlen, Int.toNat_natCast]
  have hnone : ∀ n : Int32, n.toInt < 0 → store_while_above (Int32.ofNat (strlen strings word)) n 32 = ([], n - 1) := by
    intro n hn
    apply if_neg
    rw [Int32.lt_iff_toInt_lt, hlen]
    omega
  unfold convert_s cstring
  dsimp only
  rw [if_neg hprecision, if_pos hleft, hnone (-1) (by decide), hcount]
  dsimp only
  rw [hnone (-1 - 1) (by decide), List.nil_append, List.append_nil]

theorem number_plain : number fpu word.toUInt64 10 (-1) (-1) SIGN = decimal word.toInt32.toInt := by
  have hinteger : SIGN &&& DOUBLE = 0 := rfl
  have hten : 2 ≤ UInt32.toNat 10 := by decide
  have hminus : (-1 : Int32).toInt = -1 := rfl
  have hspecial : special 10 SIGN = [] := special_decimal SIGN
  have hword : (digits 10 (magnitude SIGN word).toNat).length ≤ 32 := digits_word_length (by decide) _
  have hsign_le := sign_bytes_le (integer_sign SIGN word)
  obtain ⟨hsign, hmagnitude⟩ := sign_and_magnitude [] (-1) .d word
  have hflags : flag_bits [] ||| Conversion.d.flag (-1) = SIGN := rfl
  rw [hflags] at hsign hmagnitude
  have hshort : (number fpu word.toUInt64 10 (-1) (-1) SIGN).length < 1024 := by
    apply (integer_alike SIGN (-1) (-1) fpu word hten hinteger).lt_iff.mpr
    have hloops := more_loops_le (masked SIGN)
    have hsize := field_size_cases (-2 ^ 31 + more_loops (masked SIGN) + ((integer_sign SIGN word).bytes.length +
      (special 10 SIGN).length + max ((digits (UInt32.toNat 10) (magnitude SIGN word).toNat).length : ℤ)
        (-1 : Int32).toInt)) (-1 : Int32).toInt ((integer_sign SIGN word).bytes.length +
      (special 10 SIGN).length + max ((digits (UInt32.toNat 10) (magnitude SIGN word).toNat).length : ℤ) (-1 : Int32).toInt)
    unfold integer_size number_size
    dsimp only
    have hbase : UInt32.toNat 10 = 10 := rfl
    rw [hspecial, hbase, hminus] at hsize ⊢
    rw [List.length_nil] at hsize ⊢
    omega
  obtain ⟨zeros, hzeros, hlay⟩ := number_integer_lay fpu hten (-1) (-1) hinteger hshort
  have hnone : zeros = 0 := by
    rw [hminus] at hzeros
    omega
  have hcount : ((-1 : Int32).toInt - (integer_sign SIGN word).bytes.length - (special 10 SIGN).length -
      max ((digits (UInt32.toNat 10) (magnitude SIGN word).toNat).length : ℤ) (-1 : Int32).toInt).toNat = 0 := by
    rw [hminus]
    omega
  have hfill : Format.fill SIGN = .left := rfl
  have hfront : (sign_of [] (Conversion.d.value word)).bytes = if word.toInt32.toInt < 0 then ['-'.toUInt8] else [] := by
    unfold sign_of
    rw [if_neg List.not_mem_nil, if_neg List.not_mem_nil]
    exact apply_ite Sign.bytes _ _ _
  unfold decimal
  rw [hlay, hcount, hfill, hsign, hspecial, hmagnitude, hnone, hfront, List.append_nil]
  rfl

end Plain

section Parts

variable (env : Env) (fmt : List u8) (ap : ℕ)

theorem format_from_bytes {cs : List u8} (hcs : '%'.toUInt8 ∉ cs) :
    format_from env (cs ++ fmt) ap = cs ++ format_from env fmt ap := by
  induction cs with
  | nil => rfl
  | cons c cs ih =>
    rw [List.mem_cons, not_or] at hcs
    rw [List.cons_append, format_from_text _ _ _ (Ne.symm hcs.1), ih hcs.2]
    rfl

/-- A format without directives is printed as it is. -/
theorem format_literal {cs : List u8} (hcs : '%'.toUInt8 ∉ cs) : format env cs = cs := by
  have hbytes := format_from_bytes env [] 0 hcs
  rw [List.append_nil, format_from_nil, List.append_nil] at hbytes
  exact hbytes

/-- A directive that is only a conversion -/
def bare (conversion : Conversion) : Directive := ⟨[], .unset, .unset, none, conversion⟩

theorem bare_carry_out (conversion : Conversion) : (bare conversion).carry_out env ap =
    ((conversion.convert env.strings env.fpu (env.args ap) (env.args (ap + 1)) 0 (-1) (-1)).1,
      ap + (conversion.convert env.strings env.fpu (env.args ap) (env.args (ap + 1)) 0 (-1) (-1)).2) := rfl

theorem format_from_s (hshort : strlen env.strings (env.args ap) < 2 ^ 31) :
    format_from env ('%'.toUInt8 :: 's'.toUInt8 :: fmt) ap =
      cstring env.strings (env.args ap) ++ format_from env fmt (ap + 1) := by
  have hbytes : 's'.toUInt8 :: fmt = (bare .s).bytes ++ fmt := rfl
  have hconvert : Conversion.s.convert env.strings env.fpu (env.args ap) (env.args (ap + 1)) 0 (-1) (-1) =
      (convert_s env.strings (env.args ap) 0 (-1) (-1), 1) := rfl
  rw [format_from_directive, hbytes, directive_bytes env _ (by decide), bare_carry_out, hconvert,
    convert_s_plain _ _ hshort]

theorem format_from_d : format_from env ('%'.toUInt8 :: 'd'.toUInt8 :: fmt) ap =
    decimal (env.args ap).toInt32.toInt ++ format_from env fmt (ap + 1) := by
  have hbytes : 'd'.toUInt8 :: fmt = (bare .d).bytes ++ fmt := rfl
  have hconvert : Conversion.d.convert env.strings env.fpu (env.args ap) (env.args (ap + 1)) 0 (-1) (-1) =
      (number env.fpu (env.args ap).toUInt64 10 (-1) (-1) (0 ||| SIGN), 1) := rfl
  have hsign : 0 ||| SIGN = SIGN := rfl
  rw [format_from_directive, hbytes, directive_bytes env _ (by decide), bare_carry_out, hconvert, hsign, number_plain]

/-- The strings that the parts print are no longer than an `int` counts. -/
def Readable (env : Env) : List Part → ℕ → Prop
  | [], _ => True
  | .text _ :: parts, ap => Readable env parts ap
  | .s :: parts, ap => strlen env.strings (env.args ap) < 2 ^ 31 ∧ Readable env parts (ap + 1)
  | .d :: parts, ap => Readable env parts (ap + 1)

/-- A format of parts prints the parts. -/
theorem format_parts {parts : List Part} (hparts : ∀ part ∈ parts, part.Literal)
    (hreadable : Readable env parts ap) :
    format_from env (parts.flatMap Part.format) ap = parts_text env parts ap := by
  induction parts generalizing ap with
  | nil => rfl
  | cons part parts ih =>
    obtain ⟨hpart, hrest⟩ := List.forall_mem_cons.mp hparts
    rw [List.flatMap_cons]
    cases part with
    | text cs => exact (format_from_bytes env _ ap hpart).trans (congrArg _ (ih ap hrest hreadable))
    | s => exact (format_from_s env _ ap hreadable.1).trans (congrArg _ (ih (ap + 1) hrest hreadable.2))
    | d => exact (format_from_d env _ ap).trans (congrArg _ (ih (ap + 1) hrest hreadable))

end Parts

end onix.Print
