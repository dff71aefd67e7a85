import Mathlib.Tactic
import Mathlib.Data.Nat.Digits.Lemmas
import Mathlib.Data.List.DropRight

/-! Signed numerals in ASCII: their digits, the fields they are laid out in, and how they are read back. -/

namespace Numeral

section Digits

/-- The digits of a number, the lowest first; zero has one. -/
def digits (base n : ℕ) : List ℕ := if n = 0 then [0] else Nat.digits base n

variable {base n : ℕ}

theorem ofDigits_digits : Nat.ofDigits base (digits base n) = n := by
  unfold digits
  split_ifs with h
  · rw [Nat.ofDigits_singleton, h]
  · exact Nat.ofDigits_digits base n

theorem digits_lt (hbase : 2 ≤ base) : ∀ d ∈ digits base n, d < base := by
  intro d hd
  unfold digits at hd
  split_ifs at hd with h
  · rw [List.mem_singleton] at hd
    omega
  · exact Nat.digits_lt_base hbase hd

theorem digits_length_pos (base n : ℕ) : 0 < (digits base n).length := by
  unfold digits
  split_ifs with h
  · exact Nat.one_pos
  · exact List.length_pos_of_ne_nil (Nat.digits_ne_nil_iff_ne_zero.mpr h)

theorem digits_length_le {k : ℕ} (hbase : 2 ≤ base) (hk : 0 < k) (hn : n < base ^ k) : (digits base n).length ≤ k := by
  unfold digits
  split_ifs with h
  · exact hk
  · exact (Nat.digits_length_le_iff hbase n).mpr hn

end Digits

section Reading

/-- What a character counts as a digit, in either case; 36 when it is none. -/
def digit_value (c : UInt8) : ℕ :=
  if 48 ≤ c ∧ c ≤ 57 then c.toNat - 48
  else if 65 ≤ c ∧ c ≤ 90 then c.toNat - 55
  else if 97 ≤ c ∧ c ≤ 122 then c.toNat - 87
  else 36

/-- A natural number, the highest digit first. -/
def read_digits (base : ℕ) (text : List UInt8) : Option ℕ :=
  if text ≠ [] ∧ text.all (fun c => digit_value c < base) then some (Nat.ofDigits base (text.reverse.map digit_value))
  else none

/-- The text behind `0x` or `0X` in base 16 -/
def behind_radix (base : ℕ) : List UInt8 → List UInt8
  | zero :: x :: text => if base = 16 ∧ zero = 48 ∧ (x = 120 ∨ x = 88) then text else zero :: x :: text
  | text => text

/-- A text without the spaces at its ends -/
def trim (text : List UInt8) : List UInt8 := (text.dropWhile (· == 32)).rdropWhile (· == 32)

/-- Whether the sign is a minus, and what is behind the sign. -/
def read_sign : List UInt8 → Bool × List UInt8
  | [] => (false, [])
  | c :: text => if c = 45 then (true, text) else if c = 43 then (false, text) else (false, c :: text)

/-- A field that holds a number with a sign or without; `read` takes what is left without sign and spaces. -/
def read_signed {α : Type} [Neg α] (read : List UInt8 → Option α) (text : List UInt8) : Option α :=
  let (minus, rest) := read_sign (trim text)
  (read (trim rest)).map fun n => if minus then -n else n

def read_integer (base : ℕ) (text : List UInt8) : Option ℤ :=
  read_signed (fun text => (read_digits base (behind_radix base text)).map fun n => (n : ℤ)) text

/-- Digits, a point and digits -/
def read_fraction (text : List UInt8) : Option ℚ := do
  let whole ← read_digits 10 (text.takeWhile (· != 46))
  let part ← read_digits 10 (text.dropWhile (· != 46)).tail
  return whole + part / 10 ^ (text.dropWhile (· != 46)).tail.length

def read_decimal (text : List UInt8) : Option ℚ := read_signed read_fraction text

end Reading

section Written

variable {base n : ℕ} {char : ℕ → UInt8}

/-- The characters that `char` makes of the digits, with zeros in front. -/
def written (char : ℕ → UInt8) (base zeros n : ℕ) : List UInt8 :=
  List.replicate zeros 48 ++ ((digits base n).map char).reverse

theorem written_length (char : ℕ → UInt8) (base zeros n : ℕ) :
    (written char base zeros n).length = zeros + (digits base n).length := by
  unfold written
  rw [List.length_append, List.length_replicate, List.length_reverse, List.length_map]

theorem written_ne_nil (char : ℕ → UInt8) (base zeros n : ℕ) : written char base zeros n ≠ [] := by
  have hpos := digits_length_pos base n
  have hlength := written_length char base zeros n
  intro hnil
  rw [hnil, List.length_nil] at hlength
  omega

theorem replicate_append_written (more zeros : ℕ) :
    List.replicate more 48 ++ written char base zeros n = written char base (more + zeros) n := by
  unfold written
  rw [← List.append_assoc, List.replicate_append_replicate]

theorem written_digit_value (hbase : 2 ≤ base) (hchar : ∀ d < base, digit_value (char d) = d) (zeros : ℕ) :
    ∀ c ∈ written char base zeros n, digit_value c < base := by
  intro c hc
  unfold written at hc
  rw [List.mem_append, List.mem_reverse, List.mem_map] at hc
  obtain hc | ⟨d, hd, rfl⟩ := hc
  · have hzero : digit_value 48 = 0 := by decide
    rw [List.eq_of_mem_replicate hc, hzero]
    omega
  · have hlt := digits_lt hbase d hd
    rw [hchar d hlt]
    exact hlt

theorem written_values (hbase : 2 ≤ base) (hchar : ∀ d < base, digit_value (char d) = d) (zeros : ℕ) :
    (written char base zeros n).reverse.map digit_value = digits base n ++ List.replicate zeros 0 := by
  have hmap : (digits base n).map (digit_value ∘ char) = digits base n := by
    conv_rhs => rw [← List.map_id (digits base n)]
    apply List.map_congr_left
    intro d hd
    exact hchar d (digits_lt hbase d hd)
  have hzero : digit_value 48 = 0 := by decide
  unfold written
  rw [List.reverse_append, List.reverse_reverse, List.reverse_replicate, List.map_append, List.map_map, hmap,
    List.map_replicate, hzero]

/-- Leading zeros do not count. -/
theorem read_digits_written (hbase : 2 ≤ base) (hchar : ∀ d < base, digit_value (char d) = d) (zeros : ℕ) :
    read_digits base (written char base zeros n) = some n := by
  have hall : (written char base zeros n).all (fun c => digit_value c < base) = true := by
    rw [List.all_eq_true]
    intro c hc
    exact decide_eq_true (written_digit_value hbase hchar zeros c hc)
  unfold read_digits
  rw [if_pos ⟨written_ne_nil char base zeros n, hall⟩,
    written_values hbase hchar zeros, Nat.ofDigits_append_replicate_zero, ofDigits_digits]

end Written

section Fields

/-- Neither a space nor a sign -/
def Plain (c : UInt8) : Prop := c ≠ 32 ∧ c ≠ 43 ∧ c ≠ 45

theorem Plain.of_digit_value {c : UInt8} (h : digit_value c < 36) : Plain c := by
  refine ⟨?_, ?_, ?_⟩
  all_goals
    rintro rfl
    revert h
    decide

/-- The spaces around a text go. -/
theorem trim_field (a b : ℕ) {text : List UInt8} (hne : text ≠ []) (hhead : text.head hne ≠ 32)
    (hlast : text.getLast hne ≠ 32) : trim (List.replicate a 32 ++ (text ++ List.replicate b 32)) = text := by
  have hblank : ∀ count, ∀ c ∈ List.replicate count (32 : UInt8), (c == 32) = true := by
    intro count c hc
    rw [List.eq_of_mem_replicate hc]
    rfl
  have hfront : (text ++ List.replicate b 32).dropWhile (· == 32) = text ++ List.replicate b 32 := by
    obtain ⟨c, rest, rfl⟩ := List.exists_cons_of_ne_nil hne
    rw [List.cons_append, List.dropWhile_cons_of_neg]
    rw [beq_iff_eq]
    exact hhead
  have hback : text.rdropWhile (· == 32) = text := by
    rw [List.rdropWhile_eq_self_iff]
    intro _
    rw [beq_iff_eq]
    exact hlast
  unfold trim
  rw [List.dropWhile_append_of_pos (hblank a), hfront]
  unfold List.rdropWhile
  rw [List.reverse_append, List.reverse_replicate, List.dropWhile_append_of_pos (hblank b)]
  exact hback

/-- What may stand in front of a number. -/
inductive Sign where
  | none | space | plus | minus
  deriving DecidableEq

def Sign.bytes : Sign → List UInt8
  | .none => []
  | .space => [32]
  | .plus => [43]
  | .minus => [45]

/-- The characters that fill a field up: spaces in front, zeros between the sign and the number, or spaces behind. -/
inductive Fill where
  | left | zeros | right
  deriving DecidableEq

def Fill.lay (count : ℕ) (front body : List UInt8) : Fill → List UInt8
  | .left => List.replicate count 32 ++ (front ++ body)
  | .zeros => front ++ (List.replicate count 48 ++ body)
  | .right => front ++ (body ++ List.replicate count 32)

theorem Fill.lay_length (count : ℕ) (front body : List UInt8) (fill : Fill) :
    (fill.lay count front body).length = count + front.length + body.length := by
  cases fill with
  | _ =>
    unfold Fill.lay
    simp only [List.length_append, List.length_replicate]
    omega

variable {α : Type} [Neg α] (read : List UInt8 → Option α) {body : List UInt8}

/-- A field reads as the number in it, wherever there are spaces around the sign and the number. -/
theorem read_signed_field (sign : Sign) (a b c : ℕ) (hne : body ≠ []) (hplain : ∀ c ∈ body, Plain c) :
    read_signed read (List.replicate a 32 ++ (sign.bytes ++ (List.replicate b 32 ++ (body ++ List.replicate c 32)))) =
      (read body).map fun n => if sign = .minus then -n else n := by
  have hhead := (hplain _ (List.head_mem hne)).1
  have hlast := (hplain _ (List.getLast_mem hne)).1
  have hbody : ∀ a, trim (List.replicate a 32 ++ (body ++ List.replicate c 32)) = body := by
    intro a
    exact trim_field a c hne hhead hlast
  have hrest : ∀ b, trim (List.replicate b 32 ++ body) = body := by
    intro b
    have hfield := trim_field b 0 hne hhead hlast
    rwa [List.replicate_zero, List.append_nil] at hfield
  have hself : trim body = body := hrest 0
  -- without a sign in front, the first character of the number is no sign
  have hunsigned : read_sign body = (false, body) := by
    obtain ⟨first, rest, rfl⟩ := List.exists_cons_of_ne_nil hne
    obtain ⟨-, hplus, hminus⟩ := hplain first List.mem_cons_self
    dsimp only [read_sign]
    rw [if_neg hminus, if_neg hplus]
  have hsigned : ∀ mark : UInt8, mark ≠ 32 → trim (List.replicate a 32 ++ ([mark] ++ (List.replicate b 32 ++
      (body ++ List.replicate c 32)))) = mark :: (List.replicate b 32 ++ body) := by
    intro mark hmark
    have hne' : mark :: (List.replicate b 32 ++ body) ≠ [] := List.cons_ne_nil _ _
    have hlast' : (mark :: (List.replicate b 32 ++ body)).getLast hne' ≠ 32 := by
      rw [List.getLast_cons (List.append_ne_nil_of_right_ne_nil _ hne), List.getLast_append_of_ne_nil _ hne]
      exact hlast
    have hfield := trim_field a c hne' hmark hlast'
    simp only [List.cons_append, List.nil_append, List.append_assoc] at hfield ⊢
    exact hfield
  unfold read_signed
  cases sign with
  | none =>
    unfold Sign.bytes
    rw [List.nil_append, ← List.append_assoc, List.replicate_append_replicate, hbody, hunsigned]
    dsimp only
    rw [hself]
    rfl
  | space =>
    unfold Sign.bytes
    rw [show ([32] : List UInt8) = List.replicate 1 32 from rfl, ← List.append_assoc, List.replicate_append_replicate,
      ← List.append_assoc, List.replicate_append_replicate, hbody, hunsigned]
    dsimp only
    rw [hself]
    rfl
  | plus =>
    unfold Sign.bytes
    rw [hsigned 43 (by decide)]
    dsimp only [read_sign]
    rw [if_neg (by decide), if_pos rfl]
    dsimp only
    rw [hrest]
    rfl
  | minus =>
    unfold Sign.bytes
    rw [hsigned 45 (by decide)]
    dsimp only [read_sign]
    rw [if_pos rfl]
    dsimp only
    rw [hrest]
    rfl

end Fields

section Integers

variable {base n : ℕ} {char : ℕ → UInt8}

/-- Digits are no prefix. -/
theorem behind_radix_of_digits {text : List UInt8} (hdigits : ∀ c ∈ text, digit_value c < base) :
    behind_radix base text = text := by
  unfold behind_radix
  split
  · rename_i zero x text
    rw [if_neg]
    rintro ⟨rfl, rfl, rfl | rfl⟩
    · have hx := hdigits 120 (by simp)
      revert hx
      decide
    · have hx := hdigits 88 (by simp)
      revert hx
      decide
  · rfl

/-- What may stand between the sign and the digits: nothing, a zero in base 8, `0x` or `0X` in base 16. -/
def Radix (base : ℕ) (front : List UInt8) : Prop :=
  front = [] ∨ base = 8 ∧ front = [48] ∨ base = 16 ∧ (front = [48, 120] ∨ front = [48, 88])

theorem Radix.digit_value {front : List UInt8} (hfront : Radix base front) : ∀ c ∈ front, digit_value c < 36 := by
  intro c hc
  obtain rfl | ⟨-, rfl⟩ | ⟨-, rfl | rfl⟩ := hfront
  · exact absurd hc List.not_mem_nil
  · rw [List.mem_singleton.mp hc]
    decide
  all_goals
    rw [List.mem_cons, List.mem_singleton] at hc
    obtain rfl | rfl := hc
    all_goals decide

/-- The number in a field. -/
theorem read_integer_lay (hbase : 2 ≤ base) (hbase' : base ≤ 36) (hchar : ∀ d < base, digit_value (char d) = d)
    (fill : Fill) (count zeros : ℕ) (sign : Sign) {front : List UInt8} (hfront : Radix base front) :
    read_integer base (fill.lay count (sign.bytes ++ front) (written char base zeros n)) =
      some (if sign = .minus then -(n : ℤ) else n) := by
  -- the prefix and the digits behind it
  have hread : ∀ zeros, (read_digits base (behind_radix base (front ++ written char base zeros n))) = some n := by
    intro zeros
    have hdigits : ∀ zeros, ∀ c ∈ written char base zeros n, digit_value c < base := written_digit_value hbase hchar
    obtain rfl | ⟨-, rfl⟩ | ⟨rfl, rfl | rfl⟩ := hfront
    · rw [List.nil_append, behind_radix_of_digits (hdigits zeros), read_digits_written hbase hchar]
    · rw [show ([48] : List UInt8) = List.replicate 1 48 from rfl, replicate_append_written,
        behind_radix_of_digits (hdigits (1 + zeros)), read_digits_written hbase hchar]
    · exact read_digits_written hbase hchar zeros
    · exact read_digits_written hbase hchar zeros
  have hplain : ∀ zeros, ∀ c ∈ front ++ written char base zeros n, Plain c := by
    intro zeros c hc
    apply Plain.of_digit_value
    rw [List.mem_append] at hc
    obtain hc | hc := hc
    · exact hfront.digit_value c hc
    · exact lt_of_lt_of_le (written_digit_value hbase hchar zeros c hc) hbase'
  have hne : ∀ zeros, front ++ written char base zeros n ≠ [] := by
    intro zeros
    exact List.append_ne_nil_of_right_ne_nil _ (written_ne_nil char base zeros n)
  have hfield : ∀ a zeros c, read_integer base (List.replicate a 32 ++ (sign.bytes ++ (List.replicate 0 32 ++
      ((front ++ written char base zeros n) ++ List.replicate c 32)))) = some (if sign = .minus then -(n : ℤ) else n) := by
    intro a zeros c
    unfold read_integer
    rw [read_signed_field _ sign a 0 c (hne zeros) (hplain zeros), hread]
    rfl
  cases fill with
  | left =>
    have hleft := hfield count zeros 0
    simp only [List.replicate_zero, List.nil_append, List.append_nil] at hleft
    dsimp only [Fill.lay]
    rw [List.append_assoc]
    exact hleft
  | zeros =>
    have hzeros := hfield 0 (count + zeros) 0
    simp only [List.replicate_zero, List.nil_append, List.append_nil] at hzeros
    dsimp only [Fill.lay]
    rw [replicate_append_written, List.append_assoc]
    exact hzeros
  | right =>
    have hright := hfield 0 zeros count
    simp only [List.replicate_zero, List.nil_append] at hright
    dsimp only [Fill.lay]
    rw [List.append_assoc, ← List.append_assoc front]
    exact hright

end Integers

section Decimals

variable {char : ℕ → UInt8}

/-- The digits behind the point count by their number. -/
theorem read_fraction_written (hchar : ∀ d < 10, digit_value (char d) = d) (zeros whole part : ℕ) :
    read_fraction (written char 10 zeros whole ++ 46 :: written char 10 0 part) =
      some ((whole : ℚ) + part / 10 ^ (digits 10 part).length) := by
  have hten : 2 ≤ 10 := by omega
  have hdigits : ∀ c ∈ written char 10 zeros whole, (c != 46) = true := by
    intro c hc
    have hvalue := written_digit_value hten hchar zeros c hc
    rw [bne_iff_ne]
    rintro rfl
    revert hvalue
    decide
  have htake : (written char 10 zeros whole ++ 46 :: written char 10 0 part).takeWhile (· != 46) =
      written char 10 zeros whole := by
    rw [List.takeWhile_append_of_pos hdigits]
    exact List.append_nil _
  have hdrop : (written char 10 zeros whole ++ 46 :: written char 10 0 part).dropWhile (· != 46) =
      46 :: written char 10 0 part := by
    rw [List.dropWhile_append_of_pos hdigits]
    rfl
  unfold read_fraction
  rw [htake, hdrop, List.tail_cons, read_digits_written hten hchar, read_digits_written hten hchar, written_length,
    Nat.zero_add]
  rfl

/-- A point and digits on both sides in a field, with spaces or zeros between the sign and the digits. -/
theorem read_decimal_field (hchar : ∀ d < 10, digit_value (char d) = d) (sign : Sign) (a b c zeros whole part : ℕ)
    {pad : UInt8} (hpad : pad = 32 ∨ pad = 48) :
    read_decimal (List.replicate a 32 ++ (sign.bytes ++ (List.replicate b pad ++
      ((written char 10 zeros whole ++ 46 :: written char 10 0 part) ++ List.replicate c 32)))) =
      some (if sign = .minus then -((whole : ℚ) + part / 10 ^ (digits 10 part).length)
        else whole + part / 10 ^ (digits 10 part).length) := by
  have hplain : ∀ zeros, ∀ c ∈ written char 10 zeros whole ++ 46 :: written char 10 0 part, Plain c := by
    intro zeros c hc
    rw [List.mem_append, List.mem_cons] at hc
    obtain hc | rfl | hc := hc
    · have hvalue := written_digit_value (by omega) hchar zeros c hc
      exact Plain.of_digit_value (by omega)
    · exact ⟨by decide, by decide, by decide⟩
    · have hvalue := written_digit_value (by omega) hchar 0 c hc
      exact Plain.of_digit_value (by omega)
  have hne : ∀ zeros, written char 10 zeros whole ++ 46 :: written char 10 0 part ≠ [] := by
    intro zeros
    exact List.append_ne_nil_of_left_ne_nil (written_ne_nil char 10 zeros whole) _
  have hfield : ∀ b zeros, read_decimal (List.replicate a 32 ++ (sign.bytes ++ (List.replicate b 32 ++
      ((written char 10 zeros whole ++ 46 :: written char 10 0 part) ++ List.replicate c 32)))) =
      some (if sign = .minus then -((whole : ℚ) + part / 10 ^ (digits 10 part).length)
        else whole + part / 10 ^ (digits 10 part).length) := by
    intro b zeros
    unfold read_decimal
    rw [read_signed_field _ sign a b c (hne zeros) (hplain zeros), read_fraction_written hchar]
    rfl
  obtain rfl | rfl := hpad
  · exact hfield b zeros
  · have hzeros := hfield 0 (b + zeros)
    rw [← replicate_append_written, List.replicate_zero, List.nil_append, List.append_assoc, List.append_assoc] at hzeros
    rw [List.append_assoc]
    exact hzeros

end Decimals

end Numeral
