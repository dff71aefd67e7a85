import Onix.Format.Vsprintf

namespace onix.Format

inductive Flag where
  | minus | plus | space | special | zero
  deriving DecidableEq

/-- A width that is written out starts with one of the digits from 1 to 9. -/
inductive Width where
  | unset
  | digits (first : Fin 9) (more : List (Fin 10))
  | star
  deriving DecidableEq

inductive Precision where
  | unset
  | digits (ds : List (Fin 10))
  | star
  deriving DecidableEq

inductive Qualifier where
  | h | l | L
  deriving DecidableEq

inductive Conversion where
  | c | s | o | p | x | X | d | i | u | f | b | m | r | percent
  deriving DecidableEq

/-- A complete directive. -/
structure Directive where
  flags : List Flag
  width : Width
  precision : Precision
  qualifier : Option Qualifier
  conversion : Conversion
  deriving DecidableEq

/-- A format is made of literal text and complete directives. -/
inductive Piece where
  | text (c : u8) (hc : c ≠ 0 ∧ c ≠ '%'.toUInt8)
  | directive (d : Directive)

section Bytes

def Flag.byte : Flag → u8
  | .minus => '-'.toUInt8
  | .plus => '+'.toUInt8
  | .space => ' '.toUInt8
  | .special => '#'.toUInt8
  | .zero => '0'.toUInt8

def digit_byte (d : Fin 10) : u8 := 48 + UInt8.ofNat d

def Width.bytes : Width → List u8
  | .unset => []
  | .digits first more => (first.succ :: more).map digit_byte
  | .star => ['*'.toUInt8]

def Precision.bytes : Precision → List u8
  | .unset => []
  | .digits ds => '.'.toUInt8 :: ds.map digit_byte
  | .star => ['.'.toUInt8, '*'.toUInt8]

def Qualifier.bytes : Option Qualifier → List u8
  | none => []
  | some .h => ['h'.toUInt8]
  | some .l => ['l'.toUInt8]
  | some .L => ['L'.toUInt8]

def Conversion.byte : Conversion → u8
  | .c => 'c'.toUInt8
  | .s => 's'.toUInt8
  | .o => 'o'.toUInt8
  | .p => 'p'.toUInt8
  | .x => 'x'.toUInt8
  | .X => 'X'.toUInt8
  | .d => 'd'.toUInt8
  | .i => 'i'.toUInt8
  | .u => 'u'.toUInt8
  | .f => 'f'.toUInt8
  | .b => 'b'.toUInt8
  | .m => 'm'.toUInt8
  | .r => 'r'.toUInt8
  | .percent => '%'.toUInt8

/-- What is behind the `%`. -/
def Directive.bytes (d : Directive) : List u8 :=
  d.flags.map Flag.byte ++ (d.width.bytes ++ (d.precision.bytes ++ (Qualifier.bytes d.qualifier ++ [d.conversion.byte])))

def Piece.bytes : Piece → List u8
  | .text c _ => [c]
  | .directive d => '%'.toUInt8 :: d.bytes

/-- The format string. -/
def format_bytes (f : List Piece) : List u8 := f.flatMap Piece.bytes

end Bytes

section Words

/-- The words that an argument of the conversion's type occupies. -/
def Conversion.words : Conversion → Nat
  | .f => 2
  | .percent => 0
  | _ => 1

def Directive.words (d : Directive) : Nat :=
  (if d.width = .star then 1 else 0) + (if d.precision = .star then 1 else 0) + d.conversion.words

def Piece.words : Piece → Nat
  | .text _ _ => 0
  | .directive d => d.words

/-- The words of the arguments that match a format. -/
def format_words (f : List Piece) : Nat := (f.map Piece.words).sum

end Words

section Scan

def Flag.bit : Flag → u32
  | .minus => LEFT
  | .plus => PLUS
  | .space => SPACE
  | .special => SPECIAL
  | .zero => ZEROPAD

def atoi (i : Int32) (ds : List (Fin 10)) : Int32 :=
  ds.foldl (fun i d => i * 10 + (digit_byte d).toUInt32.toInt32 - 48) i

variable {fmt : List u8}

theorem flag_of_byte (flag : Flag) : flag_of flag.byte = some flag.bit := by
  cases flag <;> rfl

theorem scan_flags_cons_of_some {flags flag : u32} {c : u8} (hflag : flag_of c = some flag) :
    scan_flags flags (c :: fmt) = scan_flags (flags ||| flag) fmt := by
  rw [scan_flags, hflag]

theorem scan_flags_cons_of_none {flags : u32} {c : u8} (hflag : flag_of c = none) :
    scan_flags flags (c :: fmt) = (flags, c :: fmt) := by
  rw [scan_flags, hflag]

theorem scan_flags_bytes (flags : u32) (fs : List Flag) (hfollow : flag_of (peek fmt) = none) :
    scan_flags flags (fs.map Flag.byte ++ fmt) = (fs.foldl (fun flags flag => flags ||| flag.bit) flags, fmt) := by
  induction fs generalizing flags with
  | nil =>
    cases fmt with
    | nil => rfl
    | cons c fmt => exact scan_flags_cons_of_none hfollow
  | cons flag fs ih =>
    rw [List.map_cons, List.cons_append, scan_flags_cons_of_some (flag_of_byte flag), ih]
    rfl

theorem is_digit_byte (d : Fin 10) : is_digit (digit_byte d) := by
  decide +revert

theorem skip_atoi_bytes (i : Int32) (ds : List (Fin 10)) (hfollow : ¬ is_digit (peek fmt)) :
    skip_atoi i (ds.map digit_byte ++ fmt) = (atoi i ds, fmt) := by
  induction ds generalizing i with
  | nil =>
    cases fmt with
    | nil => rfl
    | cons c fmt => exact if_neg hfollow
  | cons d ds ih =>
    change (if is_digit (digit_byte d) then skip_atoi _ (ds.map digit_byte ++ fmt) else _) = _
    rw [if_pos (is_digit_byte d)]
    exact ih _

/-- The bytes that may stand behind the width and the precision of a directive. -/
def conversion_bytes : List u8 := "hlLcsopxXdiufbmr%".toList.map Char.toUInt8

theorem peek_qualifier (q : Option Qualifier) (conversion : Conversion) (fmt : List u8) :
    peek (Qualifier.bytes q ++ conversion.byte :: fmt) ∈ conversion_bytes := by
  cases q with
  | none =>
    change conversion.byte ∈ conversion_bytes
    cases conversion <;> decide
  | some q =>
    have hbytes : 'h'.toUInt8 ∈ conversion_bytes ∧ 'l'.toUInt8 ∈ conversion_bytes ∧
        'L'.toUInt8 ∈ conversion_bytes := by decide
    cases q with
    | h => exact hbytes.1
    | l => exact hbytes.2.1
    | L => exact hbytes.2.2

theorem peek_precision (precision : Precision) (q : Option Qualifier) (conversion : Conversion) (fmt : List u8) :
    peek (precision.bytes ++ (Qualifier.bytes q ++ conversion.byte :: fmt)) ∈ '.'.toUInt8 :: conversion_bytes := by
  cases precision with
  | unset => exact List.mem_cons_of_mem _ (peek_qualifier q conversion fmt)
  | digits ds => exact List.mem_cons_self
  | star => exact List.mem_cons_self

theorem conversion_bytes_follow : ∀ c ∈ '.'.toUInt8 :: conversion_bytes,
    flag_of c = none ∧ ¬ is_digit c ∧ c ≠ '*'.toUInt8 := by
  intro c hc
  have hall : ('.'.toUInt8 :: conversion_bytes).all
      (fun c => decide (flag_of c = none ∧ ¬ is_digit c ∧ c ≠ '*'.toUInt8)) = true := rfl
  exact of_decide_eq_true (List.all_eq_true.mp hall c hc)

theorem conversion_bytes_dot : ∀ c ∈ conversion_bytes, c ≠ '.'.toUInt8 := by
  intro c hc
  have hall : conversion_bytes.all (fun c => decide (c ≠ '.'.toUInt8)) = true := rfl
  exact of_decide_eq_true (List.all_eq_true.mp hall c hc)

/-- What is behind the flags does not look like one. -/
theorem follow_flags (width : Width) (precision : Precision) (q : Option Qualifier) (conversion : Conversion)
    (fmt : List u8) :
    flag_of (peek (width.bytes ++ (precision.bytes ++ (Qualifier.bytes q ++ conversion.byte :: fmt)))) = none := by
  cases width with
  | unset => exact (conversion_bytes_follow _ (peek_precision precision q conversion fmt)).1
  | digits first more =>
    change flag_of (digit_byte first.succ) = none
    decide +revert
  | star => rfl

/-- `field_width` and the flags, and the arguments behind the width. -/
def Width.scan (args : Nat → u32) (flags : u32) (ap : Nat) : Width → Int32 × u32 × Nat
  | .unset => (-1, flags, ap)
  | .digits first more => (atoi 0 (first.succ :: more), flags, ap)
  | .star =>
    if (args ap).toInt32 < 0 then (-(args ap).toInt32, flags ||| LEFT, ap + 1)
    else ((args ap).toInt32, flags, ap + 1)

theorem scan_width_bytes (args : Nat → u32) (flags : u32) (ap : Nat) (width : Width)
    (hdigit : ¬ is_digit (peek fmt)) (hstar : peek fmt ≠ '*'.toUInt8) :
    scan_width args flags (width.bytes ++ fmt) ap =
      ((width.scan args flags ap).1, (width.scan args flags ap).2.1, fmt, (width.scan args flags ap).2.2) := by
  cases width with
  | unset =>
    change scan_width args flags fmt ap = _
    unfold scan_width
    rw [if_neg hdigit, if_neg hstar]
    rfl
  | digits first more =>
    have hfirst : is_digit (peek ((first.succ :: more).map digit_byte ++ fmt)) := is_digit_byte first.succ
    unfold scan_width Width.bytes
    rw [if_pos hfirst, skip_atoi_bytes 0 _ hdigit]
    rfl
  | star =>
    have hnot : ¬ is_digit '*'.toUInt8 := by decide
    change (if is_digit '*'.toUInt8 then _ else if '*'.toUInt8 = '*'.toUInt8 then
      (if (args ap).toInt32 < 0 then (-(args ap).toInt32, flags ||| LEFT, fmt, ap + 1)
        else ((args ap).toInt32, flags, fmt, ap + 1)) else _) = _
    rw [if_neg hnot, if_pos rfl]
    unfold Width.scan
    by_cases hneg : (args ap).toInt32 < 0
    · simp only [if_pos hneg]
    · simp only [if_neg hneg]

/-- What the precision is set to, unless it is the source's `*`. -/
def Precision.value : Precision → Int32
  | .unset => -1
  | .digits [] => 0
  | .digits (d :: ds) => if atoi 0 (d :: ds) < 0 then 0 else atoi 0 (d :: ds)
  | .star => -1

theorem scan_precision_dot (args : Nat → u32) (ap : Nat) (fmt : List u8) :
    scan_precision args ('.'.toUInt8 :: fmt) ap =
      (if (scan_precision_value args fmt ap).1 < 0 then 0 else (scan_precision_value args fmt ap).1,
        (scan_precision_value args fmt ap).2) :=
  if_pos rfl

theorem scan_precision_bytes (args : Nat → u32) (ap : Nat) {precision : Precision} (hne : precision ≠ .star)
    (hdigit : ¬ is_digit (peek fmt)) (hstar : peek fmt ≠ '*'.toUInt8) (hdot : peek fmt ≠ '.'.toUInt8) :
    scan_precision args (precision.bytes ++ fmt) ap = (precision.value, fmt, ap) := by
  cases precision with
  | unset => exact if_neg hdot
  | digits ds =>
    cases ds with
    | nil =>
      have hvalue : scan_precision_value args fmt ap = (-1, fmt, ap) := by
        unfold scan_precision_value
        rw [if_neg hdigit, if_neg hstar]
      change scan_precision args ('.'.toUInt8 :: fmt) ap = _
      rw [scan_precision_dot, hvalue]
      rfl
    | cons d ds =>
      have hfirst : is_digit (peek ((d :: ds).map digit_byte ++ fmt)) := is_digit_byte d
      have hvalue : scan_precision_value args ((d :: ds).map digit_byte ++ fmt) ap =
          (atoi 0 (d :: ds), fmt, ap) := by
        unfold scan_precision_value
        rw [if_pos hfirst, skip_atoi_bytes 0 _ hdigit]
      change scan_precision args ('.'.toUInt8 :: ((d :: ds).map digit_byte ++ fmt)) ap = _
      rw [scan_precision_dot, hvalue]
      rfl
  | star => exact absurd rfl hne

theorem scan_qualifier_bytes (q : Option Qualifier) (conversion : Conversion) :
    scan_qualifier (Qualifier.bytes q ++ conversion.byte :: fmt) = conversion.byte :: fmt := by
  have hbyte : ¬ (conversion.byte = 'h'.toUInt8 ∨ conversion.byte = 'l'.toUInt8 ∨ conversion.byte = 'L'.toUInt8) := by
    cases conversion <;> decide
  cases q with
  | none => exact if_neg hbyte
  | some q => cases q with
    | h => exact if_pos (.inl rfl)
    | l => exact if_pos (.inr (.inl rfl))
    | L => exact if_pos (.inr (.inr rfl))

/-- What a conversion stores, and the words it takes. -/
def Conversion.convert (strings : Strings) (fpu : Fpu) (word next flags : u32) (field_width precision : Int32) :
    Conversion → List u8 × Nat
  | .c => (convert_c word flags field_width, 1)
  | .s => (convert_s strings word flags field_width precision, 1)
  | .o => (number fpu word.toUInt64 8 field_width precision flags, 1)
  | .p => (if field_width = -1 then number fpu word.toUInt64 16 8 precision (flags ||| ZEROPAD)
    else number fpu word.toUInt64 16 field_width precision flags, 1)
  | .x => (number fpu word.toUInt64 16 field_width precision (flags ||| SMALL), 1)
  | .X => (number fpu word.toUInt64 16 field_width precision flags, 1)
  | .d | .i => (number fpu word.toUInt64 10 field_width precision (flags ||| SIGN), 1)
  | .u => (number fpu word.toUInt64 10 field_width precision flags, 1)
  | .f => (number fpu (word.toUInt64 ||| next.toUInt64 <<< 32) 10 field_width precision (flags ||| SIGN ||| DOUBLE), 1)
  | .b => (number fpu word.toUInt64 2 field_width precision flags, 1)
  | .m => (convert_bytes strings fpu word (flags ||| (SMALL ||| ZEROPAD)) 2 precision 6 16 ':'.toUInt8, 1)
  | .r => (convert_bytes strings fpu word (flags ||| SMALL) field_width precision 4 10 '.'.toUInt8, 1)
  | .percent => (['%'.toUInt8], 0)

/-- The switch finds the conversion by its byte. -/
theorem convert_byte (strings : Strings) (fpu : Fpu) (word next flags : u32) (field_width precision : Int32)
    (conversion : Conversion) : convert strings fpu word next flags field_width precision conversion.byte =
      conversion.convert strings fpu word next flags field_width precision := by
  cases conversion with
  | p =>
    by_cases hunset : field_width = -1
    · simp +decide only [convert, Conversion.byte, Conversion.convert, va_arg, hunset, if_true, if_false]
    · simp +decide only [convert, Conversion.byte, Conversion.convert, va_arg, hunset, if_true, if_false]
  | _ => simp +decide only [convert, Conversion.byte, Conversion.convert, va_arg, if_true, if_false]; try rfl

def Directive.bits (d : Directive) : u32 := d.flags.foldl (fun flags flag => flags ||| flag.bit) 0

/-- The directive as it is carried out, but for a precision of `*`; the arguments behind it. -/
def Directive.carry_out (d : Directive) (env : Env) (ap : Nat) : List u8 × Nat :=
  let (field_width, flags, ap) := d.width.scan env.args d.bits ap
  let (text, words) := d.conversion.convert env.strings env.fpu (env.args ap) (env.args (ap + 1)) flags field_width
    d.precision.value
  (text, ap + words)

theorem directive_end_cons (env : Env) (flags : u32) (field_width precision : Int32) (c : u8) (ap : Nat) :
    directive_end env flags field_width precision (c :: fmt) ap =
      ((convert env.strings env.fpu (env.args ap) (env.args (ap + 1)) flags field_width precision c).1, fmt,
        ap + (convert env.strings env.fpu (env.args ap) (env.args (ap + 1)) flags field_width precision c).2) :=
  rfl

/-- The scanner takes a directive from the format and nothing of what is behind it. -/
theorem directive_bytes (env : Env) (d : Directive) (hne : d.precision ≠ .star) (ap : Nat) :
    directive env (d.bytes ++ fmt) ap = ((d.carry_out env ap).1, fmt, (d.carry_out env ap).2) := by
  obtain ⟨flags, width, precision, q, conversion⟩ := d
  have hflags := follow_flags width precision q conversion fmt
  obtain ⟨-, hdigit, hstar⟩ := conversion_bytes_follow _ (peek_precision precision q conversion fmt)
  obtain ⟨-, hdigit', hstar'⟩ := conversion_bytes_follow _ (List.mem_cons_of_mem _ (peek_qualifier q conversion fmt))
  have hdot := conversion_bytes_dot _ (peek_qualifier q conversion fmt)
  unfold directive Directive.bytes Directive.carry_out Directive.bits
  simp only [List.append_assoc, List.cons_append, List.nil_append]
  rw [scan_flags_bytes 0 flags hflags]
  dsimp only
  rw [scan_width_bytes _ _ _ width hdigit hstar]
  dsimp only
  rw [scan_precision_bytes _ _ hne hdigit' hstar' hdot]
  dsimp only
  rw [scan_qualifier_bytes, directive_end_cons, convert_byte]

end Scan

end onix.Format
