import Mathlib.Data.List.GetD
import Onix.Format.Scanner

namespace onix.Format

/-- The words of a call's arguments on the stack, and what is behind them. -/
def laid (ws : List u32) (rest : Nat → u32) : Nat → u32 := fun i => ws.getD i (rest (i - ws.length))

section Laid

variable (a b : List u32) (rest rest' : Nat → u32)

theorem laid_front {i : Nat} (hi : i < a.length) : laid a rest i = laid a rest' i := by
  unfold laid
  rw [List.getD_eq_getElem _ _ hi, List.getD_eq_getElem _ _ hi]

theorem laid_behind (i : Nat) : laid a rest (a.length + i) = rest i := by
  unfold laid
  rw [List.getD_eq_default _ _ (Nat.le_add_right _ _), Nat.add_sub_cancel_left]

theorem laid_append : laid (a ++ b) rest = laid a (laid b rest) := by
  funext i
  by_cases hi : i < a.length
  · unfold laid
    rw [List.getD_append _ _ _ _ hi, List.getD_eq_getElem _ _ hi, List.getD_eq_getElem _ _ hi]
  · obtain ⟨j, rfl⟩ := Nat.exists_eq_add_of_le (Nat.le_of_not_lt hi)
    rw [laid_behind]
    unfold laid
    rw [List.getD_append_right _ _ _ _ (Nat.le_add_right _ _), List.length_append, Nat.add_sub_cancel_left,
      Nat.add_sub_add_left]

end Laid

/-- The directives that take the words of their arguments: not `%f`, and no precision of `*`. -/
def Directive.Regular (d : Directive) : Prop := d.conversion ≠ .f ∧ d.precision ≠ .star

section Regular

variable {strings : Strings} {fpu : Fpu} {word word' next next' flags : u32} {field_width precision : Int32}

theorem Conversion.convert_words (conversion : Conversion) :
    (conversion.convert strings fpu word next flags field_width precision).2 =
      if conversion = .percent then 0 else 1 := by
  cases conversion <;> rfl

/-- A conversion depends on no more words than its argument has. -/
theorem Conversion.convert_local {conversion : Conversion} (hword : conversion ≠ .percent → word' = word)
    (hnext : conversion = .f → next' = next) :
    conversion.convert strings fpu word' next' flags field_width precision =
      conversion.convert strings fpu word next flags field_width precision := by
  by_cases hpercent : conversion = .percent
  · subst hpercent
    rfl
  · rw [hword hpercent]
    cases conversion with
    | f => rw [hnext rfl]
    | _ => rfl

theorem Width.scan_words (args : Nat → u32) (ap : Nat) (width : Width) :
    (width.scan args flags ap).2.2 = ap + if width = .star then 1 else 0 := by
  cases width with
  | star =>
    change (if (args ap).toInt32 < 0 then (-(args ap).toInt32, flags ||| LEFT, ap + 1)
      else ((args ap).toInt32, flags, ap + 1)).2.2 = ap + 1
    split <;> rfl
  | _ => rfl

theorem Width.scan_local {args args' : Nat → u32} {ap : Nat} {width : Width}
    (hargs : width = .star → args' ap = args ap) : width.scan args' flags ap = width.scan args flags ap := by
  cases width with
  | star =>
    unfold Width.scan
    rw [hargs rfl]
  | _ => rfl

variable {d : Directive} {env : Env} {ap : Nat}

theorem Directive.carry_out_words (env : Env) (ap : Nat) (hne : d.precision ≠ .star) :
    (d.carry_out env ap).2 + (if d.conversion = .f then 1 else 0) = ap + d.words := by
  have hwidth : (d.width.scan env.args d.bits ap).2.2 = ap + if d.width = .star then 1 else 0 :=
    Width.scan_words env.args ap d.width
  have hconvert : (d.carry_out env ap).2 = ap + (if d.width = .star then 1 else 0) +
      if d.conversion = .percent then 0 else 1 := by
    unfold carry_out
    dsimp only
    rw [Conversion.convert_words, hwidth]
  have hwords : (if d.conversion = .percent then 0 else 1) + (if d.conversion = .f then 1 else 0) =
      d.conversion.words := by
    cases d.conversion <;> rfl
  unfold words
  rw [hconvert, if_neg hne]
  omega

/-- A directive depends on no more words than its arguments have. -/
theorem Directive.carry_out_local (env : Env) (ap : Nat) (hne : d.precision ≠ .star) {args : Nat → u32}
    (hargs : ∀ i < d.words, args (ap + i) = env.args (ap + i)) :
    d.carry_out { env with args := args } ap = d.carry_out env ap := by
  have hwords : d.words = (if d.width = .star then 1 else 0) + d.conversion.words := by
    unfold words
    rw [if_neg hne, Nat.add_zero]
  have hwidth : ∀ flags, d.width.scan args flags ap = d.width.scan env.args flags ap := by
    intro flags
    apply Width.scan_local
    intro hw
    apply hargs 0
    rw [hwords, if_pos hw]
    omega
  have hword : d.conversion ≠ .percent → args (ap + if d.width = .star then 1 else 0) =
      env.args (ap + if d.width = .star then 1 else 0) := by
    intro hp
    apply hargs
    have hone : 1 ≤ d.conversion.words := by
      cases hconv : d.conversion <;> first | exact absurd hconv hp | decide
    omega
  have hnext : d.conversion = .f → args ((ap + if d.width = .star then 1 else 0) + 1) =
      env.args ((ap + if d.width = .star then 1 else 0) + 1) := by
    intro hf
    rw [Nat.add_assoc]
    apply hargs
    have htwo : d.conversion.words = 2 := by rw [hf]; rfl
    omega
  unfold carry_out
  dsimp only
  rw [hwidth, Width.scan_words]
  have hconvert := fun flags field_width => @Conversion.convert_local env.strings env.fpu _ _ _ _ flags field_width
    d.precision.value d.conversion hword hnext
  rw [hconvert]

end Regular

/-- What is stored for a piece, and the arguments behind it. -/
def Piece.carry_out (env : Env) (ap : Nat) : Piece → List u8 × Nat
  | .text c _ => ([c], ap)
  | .directive d => d.carry_out env ap

/-- What is stored for the pieces, one after the other. -/
def carry_out_all (env : Env) (ap : Nat) : List Piece → List u8
  | [] => []
  | p :: f => (p.carry_out env ap).1 ++ carry_out_all env (p.carry_out env ap).2 f

section Pieces

variable {f : List Piece} (hf : ∀ d, .directive d ∈ f → d.Regular) {env : Env} {ap : Nat}
include hf

/-- A regular format is carried out piece by piece, and the arguments move on by its words. -/
theorem format_from_regular (env : Env) (ap : Nat) (fmt : List u8) : format_from env (format_bytes f ++ fmt) ap =
    carry_out_all env ap f ++ format_from env fmt (ap + format_words f) := by
  induction f generalizing ap with
  | nil => rfl
  | cons p f ih =>
    have hregular : ∀ d, .directive d ∈ f → d.Regular := fun d hd => hf d (List.mem_cons_of_mem _ hd)
    cases p with
    | text c hc =>
      have hwords : format_words (.text c hc :: f) = format_words f := Nat.zero_add _
      change format_from env (c :: (format_bytes f ++ fmt)) ap = c :: carry_out_all env ap f ++ _
      rw [format_from_text _ _ _ hc.2, ih hregular, hwords]
      rfl
    | directive d =>
      obtain ⟨hconversion, hstar⟩ := hf d List.mem_cons_self
      have hnext := Directive.carry_out_words env ap hstar
      rw [if_neg hconversion, Nat.add_zero] at hnext
      have hwords : format_words (.directive d :: f) = d.words + format_words f := rfl
      change format_from env ('%'.toUInt8 :: (d.bytes ++ format_bytes f ++ fmt)) ap =
        (d.carry_out env ap).1 ++ carry_out_all env (d.carry_out env ap).2 f ++ _
      rw [List.append_assoc, format_from_directive, directive_bytes env d hstar]
      dsimp only
      rw [ih hregular, hnext, hwords, Nat.add_assoc, List.append_assoc]

/-- A regular format depends on no more words than it takes. -/
theorem carry_out_all_local (env : Env) (ap : Nat) {args : Nat → u32}
    (hargs : ∀ i < format_words f, args (ap + i) = env.args (ap + i)) :
    carry_out_all { env with args := args } ap f = carry_out_all env ap f := by
  induction f generalizing ap with
  | nil => rfl
  | cons p f ih =>
    have hregular : ∀ d, .directive d ∈ f → d.Regular := fun d hd => hf d (List.mem_cons_of_mem _ hd)
    cases p with
    | text c hc =>
      have hwords : format_words (.text c hc :: f) = format_words f := Nat.zero_add _
      rw [hwords] at hargs
      exact congrArg (List.cons c) (ih hregular ap hargs)
    | directive d =>
      obtain ⟨hconversion, hstar⟩ := hf d List.mem_cons_self
      have hwords : format_words (.directive d :: f) = d.words + format_words f := rfl
      rw [hwords] at hargs
      have hnext := Directive.carry_out_words env ap hstar
      rw [if_neg hconversion, Nat.add_zero] at hnext
      have hsame := Directive.carry_out_local env ap hstar fun i hi => hargs i (by omega)
      change (d.carry_out _ ap).1 ++ carry_out_all _ (d.carry_out _ ap).2 f =
        (d.carry_out env ap).1 ++ carry_out_all env (d.carry_out env ap).2 f
      rw [hsame, hnext]
      apply congrArg
      apply ih hregular
      intro i hi
      have harg := hargs (d.words + i) (by omega)
      rwa [← Nat.add_assoc] at harg

end Pieces

end onix.Format
