import Onix.Memory.State

namespace onix.Format

def ZEROPAD : u32 := 0x01
def SIGN : u32 := 0x02
def PLUS : u32 := 0x04
def SPACE : u32 := 0x08
def LEFT : u32 := 0x10
def SPECIAL : u32 := 0x20
def SMALL : u32 := 0x40
def DOUBLE : u32 := 0x80

/-- What the floating-point instructions make of the bits of a double. -/
structure Fpu where
  /-- `x < 0` -/
  negative : u64 → Bool
  /-- `-x` -/
  neg : u64 → u64
  /-- `(u32)x` -/
  integer : u64 → u32
  /-- `(u32)((x - n) * 1000000)` -/
  millionths : u64 → u32 → u32

/-- `while (n-- > 0) *str++ = ch;` and what is left in `n` -/
def store_while (n : Int32) (ch : u8) : List u8 × Int32 :=
  if 0 < n then (List.replicate n.toNatClampNeg ch, -1) else ([], n - 1)

/-- `while (--n > 0) *str++ = ch;` -/
def store_while_pre (n : Int32) (ch : u8) : List u8 × Int32 :=
  if 0 < n - 1 then (List.replicate (n - 1).toNatClampNeg ch, 0) else ([], n - 1)

/-- `while (low < n--) *str++ = ch;` -/
def store_while_above (low n : Int32) (ch : u8) : List u8 × Int32 :=
  if low < n then (List.replicate (n.toInt - low.toInt).toNat ch, low - 1) else ([], n - 1)

/-- `digits[index]` -/
def digit (flags : u32) (index : Nat) : u8 :=
  if index < 10 then 48 + UInt8.ofNat index
  else if flags &&& SMALL ≠ 0 then 87 + UInt8.ofNat index else 55 + UInt8.ofNat index

/-- The digits that `while (num != 0)` stores, the lowest first; `turns` are more than it takes. -/
def digits_while (flags base : u32) : Nat → u32 → List u8
  | 0, _ => []
  | turns + 1, num =>
    if num = 0 then []
    else digit flags (num % base).toNat :: digits_while flags base turns (num / base)

/-- `do … while (num)` -/
def digits_do (flags base num : u32) : List u8 :=
  digit flags (num % base).toNat :: digits_while flags base 32 (num / base)

/-- The end of `number`, where the result is formed: `sign`, the digits in `tmp`, the lowest first, and what is left
of the size. -/
def number_result (base : u32) (size precision : Int32) (flags : u32) (sign tmp : List u8) : List u8 :=
  let pad : u8 := if flags &&& ZEROPAD ≠ 0 then 48 else 32
  let (spaces, size) := if flags &&& (ZEROPAD + LEFT) = 0 then store_while size 32 else ([], size)
  let special : List u8 :=
    if flags &&& SPECIAL ≠ 0 then if base = 8 then [48] else if base = 16 then [48, digit flags 33] else [] else []
  let (pads, size) := if flags &&& LEFT = 0 then store_while size pad else ([], size)
  let (zeros, _) := store_while_above (Int32.ofNat tmp.length) precision 48
  let (behind, _) := store_while size 32
  spaces ++ sign ++ special ++ pads ++ zeros ++ tmp.reverse ++ behind

/-- `number`, with the eight bytes that `num` points to, of which an integer takes the first four. -/
def number (fpu : Fpu) (num : u64) (base : u32) (size precision : Int32) (flags : u32) : List u8 :=
  let flags := if flags &&& LEFT ≠ 0 then flags &&& ~~~ZEROPAD else flags
  let minus := if flags &&& DOUBLE ≠ 0 then fpu.negative num else flags &&& SIGN ≠ 0 ∧ num.toUInt32.toInt32 < 0
  let num := if ¬minus then num else if flags &&& DOUBLE ≠ 0 then fpu.neg num else (-num.toUInt32).toUInt64
  let sign : List u8 :=
    if minus then [45] else if flags &&& PLUS ≠ 0 then [43] else if flags &&& SPACE ≠ 0 then [32] else []
  let size := if sign ≠ [] then size - 1 else size
  let size :=
    if flags &&& SPECIAL ≠ 0 then if base = 16 then size - 2 else if base = 8 then size - 1 else size else size
  let tmp :=
    if flags &&& DOUBLE ≠ 0 then
      digits_do flags base (fpu.millionths num (fpu.integer num)) ++ [46] ++ digits_do flags base (fpu.integer num)
    else if num.toUInt32 = 0 then [48]
    else digits_while flags base 33 num.toUInt32
  let i := Int32.ofNat tmp.length
  let precision := if precision < i then i else precision
  number_result base (size - precision) precision flags sign tmp

end onix.Format
