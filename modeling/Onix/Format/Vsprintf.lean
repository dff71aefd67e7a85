import Onix.Format.Number

namespace onix.Format

/-- The memory that pointers point into, none of it in the buffer that is being written; the format ends in it
with a zero byte. -/
structure Strings where
  byte : u32 → u8
  terminated : ∃ a, byte a = 0

/-- What `vsprintf` is called in: the memory, the floating-point unit, and the words of the stack from
the first variable argument on. -/
structure Env where
  strings : Strings
  fpu : Fpu
  args : Nat → u32

/-- `strlen` with as many turns as there are addresses. -/
def strlen_from (byte : u32 → u8) : Nat → u32 → Nat
  | 0, _ => 0
  | turns + 1, s => if byte s = 0 then 0 else strlen_from byte turns (s + 1) + 1

def strlen (strings : Strings) (s : u32) : Nat := strlen_from strings.byte (2 ^ 32) s

/-- `count` bytes from `s` on -/
def bytes_at (byte : u32 → u8) (s : u32) (count : Nat) : List u8 :=
  (List.range count).map fun i => byte (s + UInt32.ofNat i)

/-- The words that `va_arg` moves on by, which are those of a pointer, whatever the type. -/
def va_arg : Nat := 1

def is_digit (c : u8) : Prop := 48 ≤ c ∧ c ≤ 57

instance (c : u8) : Decidable (is_digit c) := inferInstanceAs (Decidable (48 ≤ c ∧ c ≤ 57))

/-- `skip_atoi`, with what it has read so far in `i` -/
def skip_atoi (i : Int32) : List u8 → Int32 × List u8
  | [] => (i, [])
  | c :: fmt => if is_digit c then skip_atoi (i * 10 + c.toUInt32.toInt32 - 48) fmt else (i, c :: fmt)

/-- `*fmt` -/
def peek : List u8 → u8
  | [] => 0
  | c :: _ => c

/-- The flag that a character of the format stands for. -/
def flag_of (c : u8) : Option u32 :=
  if c = '-'.toUInt8 then some LEFT
  else if c = '+'.toUInt8 then some PLUS
  else if c = ' '.toUInt8 then some SPACE
  else if c = '#'.toUInt8 then some SPECIAL
  else if c = '0'.toUInt8 then some ZEROPAD
  else none

/-- From `repeat` on; the flags and the format behind them. -/
def scan_flags (flags : u32) : List u8 → u32 × List u8
  | [] => (flags, [])
  | c :: fmt =>
    match flag_of c with
    | some flag => scan_flags (flags ||| flag) fmt
    | none => (flags, c :: fmt)

/-- `field_width`, the flags, the format and the arguments behind it. -/
def scan_width (args : Nat → u32) (flags : u32) (fmt : List u8) (ap : Nat) : Int32 × u32 × List u8 × Nat :=
  if is_digit (peek fmt) then ((skip_atoi 0 fmt).1, flags, (skip_atoi 0 fmt).2, ap)
  else if peek fmt = '*'.toUInt8 then
    if (args ap).toInt32 < 0 then (-(args ap).toInt32, flags ||| LEFT, fmt.tail, ap + va_arg)
    else ((args ap).toInt32, flags, fmt.tail, ap + va_arg)
  else (-1, flags, fmt, ap)

/-- What is behind the dot; over a `*` the source does not move on. -/
def scan_precision_value (args : Nat → u32) (fmt : List u8) (ap : Nat) : Int32 × List u8 × Nat :=
  if is_digit (peek fmt) then ((skip_atoi 0 fmt).1, (skip_atoi 0 fmt).2, ap)
  else if peek fmt = '*'.toUInt8 then ((args ap).toInt32, fmt, ap + va_arg)
  else (-1, fmt, ap)

/-- `precision`, the format and the arguments behind it. -/
def scan_precision (args : Nat → u32) (fmt : List u8) (ap : Nat) : Int32 × List u8 × Nat :=
  if peek fmt = '.'.toUInt8 then
    let scanned := scan_precision_value args fmt.tail ap
    (if scanned.1 < 0 then 0 else scanned.1, scanned.2)
  else (-1, fmt, ap)

def scan_qualifier (fmt : List u8) : List u8 :=
  if peek fmt = 'h'.toUInt8 ∨ peek fmt = 'l'.toUInt8 ∨ peek fmt = 'L'.toUInt8 then fmt.tail else fmt

section Conversions

variable (strings : Strings) (fpu : Fpu) (word next flags : u32) (field_width precision : Int32)

/-- `case 'c'` -/
def convert_c : List u8 :=
  let (spaces, field_width) :=
    if flags &&& LEFT = 0 then store_while_pre field_width 32 else ([], field_width)
  spaces ++ [word.toUInt8] ++ (store_while_pre field_width 32).1

/-- `case 's'` -/
def convert_s : List u8 :=
  let len := Int32.ofNat (strlen strings word)
  let len := if 0 ≤ precision ∧ precision < len then precision else len
  let (spaces, field_width) :=
    if flags &&& LEFT = 0 then store_while_above len field_width 32 else ([], field_width)
  spaces ++ bytes_at strings.byte word len.toNatClampNeg ++ (store_while_above len field_width 32).1

/-- `case 'm'` and `case 'r'`: the bytes at a pointer, each with a separator behind it, but not the last. -/
def convert_bytes (count : Nat) (base : u32) (separator : u8) : List u8 :=
  ((bytes_at strings.byte word count).flatMap fun b =>
    number fpu b.toUInt64 base field_width precision flags ++ [separator]).dropLast

/-- The switch on the conversion, which is zero at the end of the format, with the next two words of the
arguments; what is stored, and by how many words the arguments move on. What `case 'n'` stores through
its pointer is left out. -/
def convert (c : u8) : List u8 × Nat :=
  let num := word.toUInt64
  if c = 'c'.toUInt8 then (convert_c word flags field_width, va_arg)
  else if c = 's'.toUInt8 then (convert_s strings word flags field_width precision, va_arg)
  else if c = 'o'.toUInt8 then (number fpu num 8 field_width precision flags, va_arg)
  else if c = 'p'.toUInt8 then
    if field_width = -1 then (number fpu num 16 8 precision (flags ||| ZEROPAD), va_arg)
    else (number fpu num 16 field_width precision flags, va_arg)
  else if c = 'x'.toUInt8 then (number fpu num 16 field_width precision (flags ||| SMALL), va_arg)
  else if c = 'X'.toUInt8 then (number fpu num 16 field_width precision flags, va_arg)
  else if c = 'd'.toUInt8 then (number fpu num 10 field_width precision (flags ||| SIGN), va_arg)
  else if c = 'i'.toUInt8 then (number fpu num 10 field_width precision (flags ||| SIGN), va_arg)
  else if c = 'u'.toUInt8 then (number fpu num 10 field_width precision flags, va_arg)
  else if c = 'n'.toUInt8 then ([], va_arg)
  else if c = 'f'.toUInt8 then
    (number fpu (num ||| next.toUInt64 <<< 32) 10 field_width precision (flags ||| SIGN ||| DOUBLE), va_arg)
  else if c = 'b'.toUInt8 then (number fpu num 2 field_width precision flags, va_arg)
  else if c = 'm'.toUInt8 then
    (convert_bytes strings fpu word (flags ||| (SMALL ||| ZEROPAD)) 2 precision 6 16 ':'.toUInt8, va_arg)
  else if c = 'r'.toUInt8 then
    (convert_bytes strings fpu word (flags ||| SMALL) field_width precision 4 10 '.'.toUInt8, va_arg)
  else ((if c ≠ '%'.toUInt8 then ['%'.toUInt8] else []) ++ (if c ≠ 0 then [c] else []), 0)

end Conversions

/-- The end of a directive: the conversion, and `++fmt`. -/
def directive_end (env : Env) (flags : u32) (field_width precision : Int32) (fmt : List u8) (ap : Nat) :
    List u8 × List u8 × Nat :=
  let (text, words) :=
    convert env.strings env.fpu (env.args ap) (env.args (ap + 1)) flags field_width precision (peek fmt)
  (text, fmt.tail, ap + words)

/-- From behind a `%`: what is stored, the format and the arguments behind the directive. -/
def directive (env : Env) (fmt : List u8) (ap : Nat) : List u8 × List u8 × Nat :=
  let (flags, fmt) := scan_flags 0 fmt
  let (field_width, flags, fmt, ap) := scan_width env.args flags fmt ap
  let (precision, fmt, ap) := scan_precision env.args fmt ap
  directive_end env flags field_width precision (scan_qualifier fmt) ap

/-- The loop over the format; every turn moves on in it. -/
def format_loop (env : Env) : Nat → List u8 → Nat → List u8
  | 0, _, _ => []
  | _ + 1, [], _ => []
  | turns + 1, c :: fmt, ap =>
    if c ≠ '%'.toUInt8 then c :: format_loop env turns fmt ap
    else
      let (text, fmt, ap) := directive env fmt ap
      text ++ format_loop env turns fmt ap

/-- The text that is stored into the buffer, but for the zero byte at its end. -/
def format (env : Env) (fmt : List u8) : List u8 := format_loop env fmt.length fmt 0

/-- The text and the length that is returned, unless the assertion fails. -/
def vsprintf (env : Env) (fmt : List u8) : Option (List u8 × Int32) :=
  let text := format env fmt
  let i := Int32.ofNat text.length
  if i < 1024 then some (text, i) else none

end onix.Format
