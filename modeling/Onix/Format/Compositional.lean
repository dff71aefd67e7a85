import Onix.Format.Compose
import Onix.Format.Field

namespace onix.Format

/-- A call with the words of its arguments, whatever is behind them. -/
def call (strings : Strings) (fpu : Fpu) (f : List Piece) (ws : List u32) (rest : Nat → u32) :
    Option (List u8 × Int32) :=
  vsprintf ⟨strings, fpu, laid ws rest⟩ (format_bytes f)

/-- Whatever format follows, the call prints what calls with the two formats print one after the other. -/
def Compositional (f : List Piece) : Prop :=
  ∀ (strings : Strings) (fpu : Fpu) (g : List Piece) (a b : List u32) (rest rest' : Nat → u32),
    a.length = format_words f → b.length = format_words g →
    ∀ t m u n, call strings fpu f a rest' = some (t, m) → call strings fpu g b rest = some (u, n) →
      t.length + u.length < 1024 → call strings fpu (f ++ g) (a ++ b) rest = some (t ++ u, m + n)

section Call

variable {strings : Strings} {fpu : Fpu} {f : List Piece} {ws : List u32} {rest : Nat → u32} {t : List u8} {m : Int32}

theorem short_iff {n : Nat} (hn : n < 2 ^ 31) : Int32.ofNat n < 1024 ↔ n < 1024 :=
  Int32.ofNat_lt_iff_lt hn (by decide)

theorem call_text (h : call strings fpu f ws rest = some (t, m)) :
    format ⟨strings, fpu, laid ws rest⟩ (format_bytes f) = t ∧ m = Int32.ofNat t.length := by
  unfold call vsprintf at h
  dsimp only at h
  split_ifs at h with hlt
  cases h
  exact ⟨rfl, rfl⟩

theorem call_eq (htext : format ⟨strings, fpu, laid ws rest⟩ (format_bytes f) = t) (hlt : t.length < 1024) :
    call strings fpu f ws rest = some (t, Int32.ofNat t.length) := by
  have hshort := (short_iff (n := t.length) (by omega)).mpr hlt
  unfold call vsprintf
  dsimp only
  rw [htext, if_pos hshort]

end Call

/-- A format of regular directives leaves nothing for the next one but its own arguments. -/
theorem compositional_of_regular {f : List Piece} (hf : ∀ d, .directive d ∈ f → d.Regular) : Compositional f := by
  intro strings fpu g a b rest rest' ha hb t m u n hcallf hcallg hlt
  obtain ⟨hft, rfl⟩ := call_text hcallf
  obtain ⟨hgt, rfl⟩ := call_text hcallg
  have hbytes : format_bytes (f ++ g) = format_bytes f ++ format_bytes g := List.flatMap_append
  have hfirst : carry_out_all ⟨strings, fpu, laid (a ++ b) rest⟩ 0 f = t := by
    have halone := format_from_regular hf ⟨strings, fpu, laid a rest'⟩ 0 []
    rw [List.append_nil, format_from_nil, List.append_nil] at halone
    rw [← hft]
    refine Eq.trans ?_ halone.symm
    apply carry_out_all_local hf ⟨strings, fpu, laid a rest'⟩ 0
    intro i hi
    rw [laid_append]
    exact laid_front _ _ _ (by omega)
  have hsecond : format_from ⟨strings, fpu, laid (a ++ b) rest⟩ (format_bytes g) (0 + format_words f) = u := by
    have hbehind : Env.behind ⟨strings, fpu, laid (a ++ b) rest⟩ a.length = ⟨strings, fpu, laid b rest⟩ := by
      unfold Env.behind
      rw [laid_append]
      exact congrArg (Env.mk strings fpu) (funext fun i => laid_behind a _ i)
    rw [Nat.zero_add, ← ha, ← Nat.add_zero a.length, format_from_behind, hbehind]
    exact hgt
  have htext : format ⟨strings, fpu, laid (a ++ b) rest⟩ (format_bytes (f ++ g)) = t ++ u := by
    rw [hbytes]
    change format_from _ (format_bytes f ++ format_bytes g) 0 = _
    rw [format_from_regular hf, hfirst, hsecond]
  have hcall := call_eq htext (by rw [List.length_append]; exact hlt)
  rwa [List.length_append, Int32.ofNat_add] at hcall

/-- Some arguments make the text of the directive short enough for a buffer. -/
def Directive.Fits (d : Directive) : Prop :=
  ∃ strings fpu args, (format ⟨strings, fpu, args⟩ (format_bytes [.directive d])).length < 1024

/-- A memory of empty strings. -/
def Strings.zero : Strings := ⟨fun _ => 0, 0, rfl⟩

def Fpu.zero : Fpu := ⟨fun _ => false, id, fun _ => 0, fun _ _ => 0⟩

theorem scan_precision_star (args : Nat → u32) (ap : Nat) (fmt : List u8) : ∃ precision,
    scan_precision args (Precision.star.bytes ++ fmt) ap = (precision, '*'.toUInt8 :: fmt, ap + 1) := by
  have hnot : ¬ is_digit (peek ('*'.toUInt8 :: fmt)) := by
    change ¬ is_digit '*'.toUInt8
    decide
  have hvalue : scan_precision_value args ('*'.toUInt8 :: fmt) ap =
      ((args ap).toInt32, '*'.toUInt8 :: fmt, ap + 1) := by
    unfold scan_precision_value
    rw [if_neg hnot]
    exact if_pos rfl
  change ∃ precision, scan_precision args ('.'.toUInt8 :: '*'.toUInt8 :: fmt) ap = _
  rw [scan_precision_dot, hvalue]
  exact ⟨_, rfl⟩

/-- No conversion has the byte `*`. -/
theorem convert_star (strings : Strings) (fpu : Fpu) (word next flags : u32) (field_width precision : Int32) :
    convert strings fpu word next flags field_width precision '*'.toUInt8 =
      (['%'.toUInt8, '*'.toUInt8], 0) := by
  simp +decide only [convert, if_true, if_false]

section Star

variable {d : Directive} (hstar : d.precision = .star) {env : Env} {ap : Nat} {fmt : List u8}
include hstar

/-- A precision of `*` ends the directive, and its conversion is taken for text. -/
theorem directive_star : directive env (d.bytes ++ fmt) ap = (['%'.toUInt8, '*'.toUInt8],
    Qualifier.bytes d.qualifier ++ d.conversion.byte :: fmt, ap + (if d.width = .star then 1 else 0) + 1) := by
  obtain ⟨flags, width, precision, q, conversion⟩ := d
  dsimp only at hstar
  subst hstar
  have hflags := follow_flags width .star q conversion fmt
  obtain ⟨-, hdigit, hwidth⟩ := conversion_bytes_follow _ (peek_precision .star q conversion fmt)
  obtain ⟨precision, hprecision⟩ := scan_precision_star env.args (ap + if width = .star then 1 else 0)
    (Qualifier.bytes q ++ conversion.byte :: fmt)
  have hqualifier : scan_qualifier ('*'.toUInt8 :: (Qualifier.bytes q ++ conversion.byte :: fmt)) =
      '*'.toUInt8 :: (Qualifier.bytes q ++ conversion.byte :: fmt) := by
    apply if_neg
    change ¬ ('*'.toUInt8 = 'h'.toUInt8 ∨ '*'.toUInt8 = 'l'.toUInt8 ∨ '*'.toUInt8 = 'L'.toUInt8)
    decide
  unfold directive Directive.bytes
  simp only [List.append_assoc, List.cons_append, List.nil_append]
  rw [scan_flags_bytes 0 flags hflags]
  dsimp only
  rw [scan_width_bytes _ _ _ width hdigit hwidth, Width.scan_words]
  dsimp only
  rw [hprecision]
  dsimp only
  rw [hqualifier, directive_end_cons, convert_star]
  rfl

end Star

section Probes

/-- `%c` -/
def probe_char : Directive := ⟨[], .unset, .unset, none, .c⟩

/-- `%s` and `%*s` -/
def probe_string (width : Width) : Directive := ⟨[], width, .unset, none, .s⟩

theorem probe_char_carry_out (env : Env) (ap : Nat) :
    probe_char.carry_out env ap = ([(env.args ap).toUInt8], ap + 1) := by
  have hfront : store_while_pre (-1) 32 = ([], -2) := rfl
  have hbehind : store_while_pre (-2) 32 = ([], -3) := rfl
  have hleft : (0 : u32) &&& LEFT = 0 := rfl
  simp only [Directive.carry_out, Directive.bits, probe_char, Width.scan, Conversion.convert, convert_c,
    List.foldl_nil, if_pos hleft, hfront, hbehind, List.nil_append, List.append_nil]

theorem strlen_zero (s : u32) : strlen Strings.zero s = 0 := by
  have hturns : ∀ turns, strlen_from Strings.zero.byte turns s = 0 := by
    intro turns
    cases turns with
    | zero => rfl
    | succ turns => exact if_pos rfl
  exact hturns _

/-- An empty string is printed as the spaces of its field. -/
def field_spaces (field_width : Int32) : List u8 :=
  (store_while_above 0 field_width 32).1 ++ (store_while_above 0 (store_while_above 0 field_width 32).2 32).1

theorem convert_s_zero (word : u32) (field_width : Int32) :
    convert_s Strings.zero word 0 field_width (-1) = field_spaces field_width := by
  have hlen : (if 0 ≤ (-1 : Int32) ∧ -1 < Int32.ofNat 0 then -1 else Int32.ofNat 0) = 0 := rfl
  have hleft : (0 : u32) &&& LEFT = 0 := rfl
  unfold convert_s
  rw [strlen_zero]
  dsimp only
  rw [hlen, if_pos hleft]
  exact congrArg (· ++ _) (List.append_nil _)

theorem probe_string_carry_out (fpu : Fpu) {args : Nat → u32} {ap ap' : Nat} {width : Width} {field_width : Int32}
    (hscan : width.scan args 0 ap = (field_width, 0, ap')) :
    (probe_string width).carry_out ⟨Strings.zero, fpu, args⟩ ap = (field_spaces field_width, ap' + 1) := by
  have hvalue : Precision.unset.value = -1 := rfl
  unfold Directive.carry_out Directive.bits probe_string
  dsimp only [List.foldl_nil]
  rw [hscan, hvalue]
  dsimp only [Conversion.convert]
  exact congrArg (Prod.mk · (ap' + 1)) (convert_s_zero (args ap') field_width)

theorem format_bytes_directive (d : Directive) (g : List Piece) :
    format_bytes (.directive d :: g) = '%'.toUInt8 :: (d.bytes ++ format_bytes g) :=
  List.flatMap_cons

/-- What a directive at the end of a format makes. -/
theorem format_from_last (env : Env) {d : Directive} (hne : d.precision ≠ .star) (ap : Nat) :
    format_from env (format_bytes [.directive d]) ap = (d.carry_out env ap).1 := by
  rw [format_bytes_directive, format_from_directive, directive_bytes env d hne]
  exact List.append_nil _

theorem format_from_probe_char (env : Env) (ap : Nat) :
    format_from env (format_bytes [.directive probe_char]) ap = [(env.args ap).toUInt8] := by
  rw [format_from_last env (by decide), probe_char_carry_out]

/-- Two empty strings, the second in a field of a width of its own. -/
def probe_strings : List Piece := [.directive (probe_string .unset), .directive (probe_string .star)]

/-- The text of the two strings is as long as the field. -/
theorem format_from_probe_strings (fpu : Fpu) (args : Nat → u32) (ap : Nat)
    (hword : args (ap + 1) = 0 ∨ args (ap + 1) = 1) :
    format_from ⟨Strings.zero, fpu, args⟩ (format_bytes probe_strings) ap =
      List.replicate (args (ap + 1)).toNat 32 := by
  have hpos : ¬ (args (ap + 1)).toInt32 < 0 := by
    obtain hword | hword := hword
    · rw [hword]
      decide
    · rw [hword]
      decide
  have hunset : (probe_string .unset).carry_out ⟨Strings.zero, fpu, args⟩ ap = (field_spaces (-1), ap + 1) :=
    probe_string_carry_out fpu rfl
  have hscan : Width.star.scan args 0 (ap + 1) = ((args (ap + 1)).toInt32, 0, ap + 1 + 1) := if_neg hpos
  have hstar := probe_string_carry_out fpu hscan
  unfold probe_strings
  rw [format_bytes_directive, format_from_directive, directive_bytes _ _ (by decide), hunset]
  dsimp only
  rw [format_from_last _ (by decide), hstar]
  obtain hword | hword := hword
  · rw [hword]
    rfl
  · rw [hword]
    rfl

end Probes

section Irregular

variable {f g : List Piece} {t u : List u8}

/-- A format is not compositional when another text is printed than the two calls print. -/
theorem not_compositional (fpu : Fpu) (a b : List u32) (ha : a.length = format_words f) (hb : b.length = format_words g)
    (hf : format ⟨Strings.zero, fpu, laid a fun _ => 0⟩ (format_bytes f) = t)
    (hg : format ⟨Strings.zero, fpu, laid b fun _ => 0⟩ (format_bytes g) = u) (hlt : t.length + u.length < 1024)
    (hne : format ⟨Strings.zero, fpu, laid (a ++ b) fun _ => 0⟩ (format_bytes (f ++ g)) ≠ t ++ u) :
    ¬ Compositional f := by
  intro hcomp
  have hcall := hcomp _ fpu g a b _ _ ha hb _ _ _ _ (call_eq hf (by omega)) (call_eq hg (by omega)) hlt
  exact hne (call_text hcall).1

variable {env : Env} {ap : Nat} {fmt : List u8}

theorem format_from_qualifier (q : Option Qualifier) :
    format_from env (Qualifier.bytes q ++ fmt) ap = Qualifier.bytes q ++ format_from env fmt ap := by
  cases q with
  | none => rfl
  | some q => cases q <;> exact format_from_text _ _ _ (by decide)

theorem conversion_byte_ne {conversion : Conversion} (hne : conversion ≠ .percent) :
    conversion.byte ≠ '%'.toUInt8 := by
  cases conversion <;> first | exact absurd rfl hne | decide

theorem laid_zeros {n i : Nat} (hi : i < n) (b : List u32) (rest : Nat → u32) :
    laid (List.replicate n 0 ++ b) rest i = 0 := by
  rw [laid_append]
  unfold laid
  rw [List.getD_eq_getElem _ _ (by rwa [List.length_replicate]), List.getElem_replicate]

/-- The arguments that a directive with a precision of `*` takes. -/
def Directive.starred_words (d : Directive) : Nat := (if d.width = .star then 1 else 0) + 1

/-- What is printed for a directive with a precision of `*` -/
def Directive.starred_text (d : Directive) : List u8 :=
  ['%'.toUInt8, '*'.toUInt8] ++ (Qualifier.bytes d.qualifier ++ [d.conversion.byte])

theorem starred_text_length (d : Directive) : d.starred_text.length ≤ 4 := by
  have hqualifier : (Qualifier.bytes d.qualifier).length ≤ 1 := by
    cases d.qualifier with
    | none => decide
    | some q => cases q <;> decide
  simp only [Directive.starred_text, List.length_append, List.length_cons, List.length_nil]
  omega

variable {d : Directive} (hstar : d.precision = .star)
include hstar

theorem format_starred (g : List Piece) : format env (format_bytes (.directive d :: g)) =
    ['%'.toUInt8, '*'.toUInt8] ++ (Qualifier.bytes d.qualifier ++
      format_from env (d.conversion.byte :: format_bytes g) d.starred_words) := by
  change format_from env (format_bytes (.directive d :: g)) 0 = _
  rw [format_bytes_directive, format_from_directive, directive_star hstar]
  dsimp only
  rw [format_from_qualifier, Nat.zero_add]
  rfl

theorem format_starred_ne (hconv : d.conversion ≠ .percent) (g : List Piece) :
    format env (format_bytes (.directive d :: g)) =
      d.starred_text ++ format_from env (format_bytes g) d.starred_words := by
  rw [format_starred hstar, format_from_text _ _ _ (conversion_byte_ne hconv)]
  unfold Directive.starred_text
  rw [List.append_assoc, List.append_assoc]
  rfl

/-- A `%` at the end of the format is printed, too. -/
theorem format_starred_alone : format env (format_bytes [.directive d]) = d.starred_text := by
  by_cases hconv : d.conversion = .percent
  · have hlast : format_from env ['%'.toUInt8] d.starred_words = ['%'.toUInt8] := rfl
    unfold Directive.starred_text
    rw [format_starred hstar, hconv]
    exact congrArg (fun l => _ ++ (_ ++ l)) hlast
  · rw [format_starred_ne hstar hconv]
    exact List.append_nil _

/-- The words of the conversion are left to the next directive. -/
theorem starred_not_compositional (hconv : d.conversion ≠ .percent) : ¬ Compositional [.directive d] := by
  have htaken : d.starred_words < d.words := by
    have hone : 1 ≤ d.conversion.words := by
      cases hc : d.conversion <;> first | exact absurd hc hconv | decide
    unfold Directive.starred_words Directive.words
    rw [if_pos hstar]
    omega
  have hlength := starred_text_length d
  have hwords : format_words [.directive d] = d.words := rfl
  apply not_compositional Fpu.zero (List.replicate d.words 0) [1] (g := [.directive probe_char])
    List.length_replicate rfl (format_starred_alone hstar) (format_from_probe_char _ 0)
  · rw [List.length_singleton]
    omega
  · rw [List.singleton_append, format_starred_ne hstar hconv, format_from_probe_char]
    dsimp only
    rw [laid_zeros htaken]
    intro heq
    have hlast := List.append_cancel_left heq
    exact absurd hlast (by decide)

/-- The `%` that is left starts a directive of what is behind it. -/
theorem starred_percent_not_compositional (hconv : d.conversion = .percent) : ¬ Compositional [.directive d] := by
  have hlength := starred_text_length d
  apply not_compositional Fpu.zero (List.replicate d.words 0) [] (g := [.text 'c'.toUInt8 (by decide)])
    List.length_replicate rfl (format_starred_alone hstar) (u := ['c'.toUInt8]) rfl
  · rw [List.length_singleton]
    omega
  · have hchar : ∀ env, format_from env ('%'.toUInt8 :: format_bytes [.text 'c'.toUInt8 (by decide)]) d.starred_words =
        [(env.args d.starred_words).toUInt8] := fun env => format_from_probe_char env _
    rw [List.singleton_append, format_starred hstar, hconv]
    change _ ++ (_ ++ format_from _ ('%'.toUInt8 :: format_bytes [.text 'c'.toUInt8 (by decide)]) _) ≠ _
    rw [hchar]
    intro heq
    have hlengths := congrArg List.length heq
    simp only [Directive.starred_text, List.length_append, List.length_cons, List.length_nil] at hlengths
    omega

omit hstar

theorem laid_map_range (args : Nat → u32) {n i : Nat} (hi : i < n) (b : List u32) (rest : Nat → u32) :
    laid ((List.range n).map args ++ b) rest i = args i := by
  rw [laid_append]
  unfold laid
  rw [List.getD_eq_getElem _ _ (by rwa [List.length_map, List.length_range]), List.getElem_map, List.getElem_range]

/-- The second word of the double is left to the next directive. -/
theorem double_not_compositional (hconv : d.conversion = .f) (hne : d.precision ≠ .star) (hfits : d.Fits) :
    ¬ Compositional [.directive d] := by
  obtain ⟨strings, fpu, args, hlt⟩ := hfits
  have htext : ∀ args', (∀ i < d.words, args' i = args i) →
      d.carry_out ⟨Strings.zero, fpu, args'⟩ 0 = d.carry_out ⟨strings, fpu, args⟩ 0 := by
    intro args' hargs
    have hlocal := Directive.carry_out_local ⟨Strings.zero, fpu, args⟩ 0 hne
      (by simpa only [Nat.zero_add] using hargs)
    have hstrings : d.carry_out ⟨Strings.zero, fpu, args⟩ 0 = d.carry_out ⟨strings, fpu, args⟩ 0 := by
      unfold Directive.carry_out
      rw [hconv]
      rfl
    exact hlocal.trans hstrings
  have hwords := Directive.carry_out_words ⟨strings, fpu, args⟩ 0 hne
  rw [if_pos hconv, Nat.zero_add] at hwords
  change (format_from _ _ 0).length < 1024 at hlt
  rw [format_from_last _ hne] at hlt
  have hlength : ((List.range d.words).map args).length = d.words := by
    rw [List.length_map, List.length_range]
  apply not_compositional fpu ((List.range d.words).map args) [1, 0, 0] (f := [.directive d]) (g := probe_strings)
    (t := (d.carry_out ⟨strings, fpu, args⟩ 0).1) (u := []) hlength rfl
  · change format_from _ _ 0 = _
    rw [format_from_last _ hne, htext]
    intro i hi
    rw [← List.append_nil (List.map args _), laid_map_range args hi]
  · exact format_from_probe_strings fpu _ 0 (.inl rfl)
  · exact hlt
  · have hnext : laid ((List.range d.words).map args ++ [1, 0, 0]) (fun _ => 0)
        ((d.carry_out ⟨strings, fpu, args⟩ 0).2 + 1) = 1 := by
      rw [hwords, laid_append]
      have hbehind := laid_behind ((List.range d.words).map args) (laid [1, 0, 0] fun _ => 0) 0
      rwa [hlength, Nat.add_zero] at hbehind
    have hfollowing := format_from_probe_strings fpu (laid ((List.range d.words).map args ++ [1, 0, 0]) fun _ => 0)
      (d.carry_out ⟨strings, fpu, args⟩ 0).2 (.inr hnext)
    rw [List.singleton_append]
    change format_from _ (format_bytes (.directive d :: probe_strings)) 0 ≠ _
    rw [format_bytes_directive, format_from_directive, directive_bytes _ _ hne,
      htext _ fun i hi => laid_map_range args hi _ _]
    dsimp only
    rw [hfollowing, hnext]
    intro heq
    have hspace := List.append_cancel_left heq
    exact absurd hspace (by decide)

end Irregular

/-- A text that is never short stays in every format that is carried out piece by piece. -/
theorem length_of_not_fits {env : Env} {ap : Nat} {f : List Piece} {d : Directive}
    (hf : ∀ d, .directive d ∈ f → d.precision ≠ .star) (hd : .directive d ∈ f) (hfits : ¬ d.Fits) :
    1024 ≤ (format_from env (format_bytes f) ap).length := by
  induction f generalizing ap with
  | nil => exact absurd hd List.not_mem_nil
  | cons p f ih =>
    have hrest : ∀ d, .directive d ∈ f → d.precision ≠ .star := fun d hd => hf d (List.mem_cons_of_mem _ hd)
    cases p with
    | text c hc =>
      have hmem : .directive d ∈ f := by
        cases hd with
        | tail _ hmem => exact hmem
      change 1024 ≤ (format_from env (c :: format_bytes f) ap).length
      rw [format_from_text _ _ _ hc.2, List.length_cons]
      exact Nat.le_succ_of_le (ih hrest hmem)
    | directive d' =>
      have hne := hf d' List.mem_cons_self
      rw [format_bytes_directive, format_from_directive, directive_bytes _ _ hne, List.length_append]
      dsimp only
      cases hd with
      | head =>
        have hlong : ¬ (format_from (env.behind ap) (format_bytes [.directive d]) 0).length < 1024 :=
          fun hlt => hfits ⟨_, _, _, hlt⟩
        rw [← format_from_behind, Nat.add_zero, format_from_last _ hne] at hlong
        omega
      | tail _ hmem =>
        have hlong : 1024 ≤ (format_from env (format_bytes f) (d'.carry_out env ap).2).length := ih hrest hmem
        omega

section Double

variable {d : Directive} (hconv : d.conversion = .f)
include hconv

theorem carry_out_double (env : Env) (ap : Nat) : ∃ num,
    (d.carry_out env ap).1 = number env.fpu num 10
      (d.width.scan env.args d.bits ap).1 d.precision.value
      ((d.width.scan env.args d.bits ap).2.1 ||| SIGN ||| DOUBLE) := by
  unfold Directive.carry_out
  rw [hconv]
  exact ⟨_, rfl⟩

/-- A double fits if its directive says so. -/
theorem fits_of_short (hne : d.precision ≠ .star) (hshort : d.Short) : d.Fits := by
  obtain ⟨hdigits, hwidth, hwrap⟩ := hshort
  have hscan : d.width.scan (fun _ => 0) d.bits 0 =
      (d.width.value, d.bits,
        if d.width = .star then 1 else 0) := by
    cases d.width <;> rfl
  refine ⟨Strings.zero, Fpu.zero, fun _ => 0, ?_⟩
  change (format_from _ _ 0).length < 1024
  obtain ⟨num, htext⟩ := carry_out_double hconv ⟨Strings.zero, Fpu.zero, fun _ => 0⟩ 0
  rw [format_from_last _ hne, htext]
  dsimp only
  rw [hscan]
  change (number _ num 10 d.width.value _ d.double_flags).length < 1024
  have hzero : ∀ flags, digits_do flags 10 0 = [48] := by
    intro flags
    unfold digits_do digits_while
    rw [if_pos (by decide)]
    rfl
  have hthree : (double_digits Fpu.zero num (masked d.double_flags)).length = 3 := by
    change (digits_do _ 10 0 ++ [46] ++ digits_do _ 10 0).length = 3
    rw [hzero]
    rfl
  obtain ⟨sign, digits, loops, rfl, rfl, rfl, -, hlength, -⟩ :=
    number_double_length Fpu.zero num d.double_flags (or_double _) d.width.value d.precision.value
  rw [double_sign_length, hthree] at hlength
  have hnonneg : Fpu.zero.negative num = false := rfl
  simp only [hnonneg, Bool.false_eq_true, false_or, Nat.cast_ofNat] at hlength
  have hleast : d.least_digits = ((if d.double_flags &&& PLUS ≠ 0 ∨ d.double_flags &&& SPACE ≠ 0 then 1 else 0 : Nat) : Int) +
      max d.precision.value.toInt 3 := by
    unfold Directive.least_digits
    rw [max_comm, Nat.cast_ite]
    rfl
  rw [sub_sub, ← hleast] at hlength
  have hfield := hlength (by omega)
  have hmax : max d.least_digits d.width.value.toInt < 1024 := max_lt hdigits hwidth
  omega

omit hconv in
theorem sign_least (p q : Prop) [Decidable p] [Decidable q] :
    (if q then 1 else 0 : Int) ≤ ((if p ∨ q then 1 else 0 : Nat) : Int) := by
  split_ifs <;> first | decide | tauto

omit hconv in
theorem scan_value (args : Nat → u32) (hstar : d.width ≠ .star) :
    d.width.scan args d.bits 0 = (d.width.value, d.bits, 0) := by
  cases hwidth : d.width with
  | star => exact absurd hwidth hstar
  | _ => rfl

/-- Only a double whose directive says so fits. -/
theorem short_of_fits (hne : d.precision ≠ .star) (hfits : d.Fits) : d.Short := by
  obtain ⟨strings, fpu, args, hlt⟩ := hfits
  change (format_from _ _ 0).length < 1024 at hlt
  obtain ⟨num, htext⟩ := carry_out_double hconv ⟨strings, fpu, args⟩ 0
  rw [format_from_last _ hne, htext] at hlt
  dsimp only at hlt
  have hsame : ∀ flag, LEFT &&& flag = 0 →
      ((d.width.scan args d.bits 0).2.1 ||| SIGN ||| DOUBLE) &&& flag = d.double_flags &&& flag := by
    intro flag hleft
    unfold Directive.double_flags
    rw [or_and, or_and, scan_flag _ _ _ _ hleft, ← or_and, ← or_and]
  have hscan := scan_value (d := d) args
  generalize d.width.scan args d.bits 0 = scanned at hlt hsame hscan
  obtain ⟨field_width, flags, ap⟩ := scanned
  dsimp only at hlt hsame
  obtain ⟨sign, digits, loops, hsign, hdigits, hloops, hle, hlength, hwrap⟩ :=
    number_double_length fpu num (flags ||| SIGN ||| DOUBLE) (or_double _) field_width d.precision.value
  rw [double_sign_length, hsame PLUS (by decide), hsame SPACE (by decide)] at hsign
  obtain ⟨hthree, -⟩ := double_digits_length fpu num (masked (flags ||| SIGN ||| DOUBLE))
  have hleast : d.least_digits ≤ sign + digits := by
    have hsigns := sign_least (fpu.negative num) (d.double_flags &&& PLUS ≠ 0 ∨ d.double_flags &&& SPACE ≠ 0)
    unfold Directive.least_digits
    omega
  have hsign_le : 0 ≤ sign ∧ sign ≤ 1 := by
    rw [hsign]
    split_ifs <;> decide
  have hloops_le := more_loops_le (masked (flags ||| SIGN ||| DOUBLE))
  have hloops_le' := more_loops_le (masked d.double_flags)
  by_cases hstar : d.width = .star
  · have hzero : d.width.value.toInt = 0 := by
      rw [hstar]
      rfl
    unfold Directive.Short
    omega
  · obtain ⟨rfl, rfl⟩ : field_width = d.width.value ∧ flags = d.bits := by
      have heq := hscan hstar
      rw [Prod.mk.injEq, Prod.mk.injEq] at heq
      exact ⟨heq.1, heq.2.1⟩
    change loops = more_loops (masked d.double_flags) at hloops
    refine ⟨by omega, ?_, ?_⟩
    · by_contra hwide
      have hfield := hlength (by omega)
      have hmax := le_max_right (sign + digits) d.width.value.toInt
      omega
    · by_contra hnarrow
      have hlong := hwrap (by omega) (by omega)
      omega

end Double

/-- Formats of a set of directives are compositional if and only if none of its directives has a precision of `*`,
and no `%f` can be short. -/
theorem vsprintf_compositional_iff (D : Set Directive) :
    (∀ f : List Piece, (∀ d, .directive d ∈ f → d ∈ D) → Compositional f) ↔
      ∀ d ∈ D, d.precision ≠ .star ∧ ¬ (d.conversion = .f ∧ d.Short) := by
  constructor
  · intro hall d hd
    have hcomp : Compositional [.directive d] := by
      apply hall
      intro d' hd'
      obtain rfl : d' = d := by simpa using hd'
      exact hd
    have hne : d.precision ≠ .star := by
      intro hstar
      by_cases hconv : d.conversion = .percent
      · exact starred_percent_not_compositional hstar hconv hcomp
      · exact starred_not_compositional hstar hconv hcomp
    refine ⟨hne, ?_⟩
    rintro ⟨hconv, hshort⟩
    exact double_not_compositional hconv hne (fits_of_short hconv hne hshort) hcomp
  · intro hD f hf
    have hstar : ∀ d, .directive d ∈ f → d.precision ≠ .star := fun d hd => (hD d (hf d hd)).1
    by_cases hdouble : ∃ d, .directive d ∈ f ∧ d.conversion = .f
    · obtain ⟨d, hd, hconv⟩ := hdouble
      have hfits : ¬ d.Fits := fun hfits => (hD d (hf d hd)).2 ⟨hconv, short_of_fits hconv (hstar d hd) hfits⟩
      intro strings fpu g a b rest rest' ha hb t m u n hcallf hcallg hlt
      obtain ⟨rfl, -⟩ := call_text hcallf
      have hlong : 1024 ≤ (format ⟨strings, fpu, laid a rest'⟩ (format_bytes f)).length :=
        length_of_not_fits hstar hd hfits
      omega
    · push Not at hdouble
      exact compositional_of_regular fun d hd => ⟨hdouble d hd, hstar d hd⟩

/-- `%f` behind nothing and in front of a `%c`: the second word of the zero is printed for the `a`. -/
theorem double_leaves_word :
    let f : List Piece := [.directive ⟨[], .unset, .unset, none, .f⟩]
    let g : List Piece := [.directive ⟨[], .unset, .unset, none, .c⟩]
    call Strings.zero Fpu.zero f [0, 0] (fun _ => 0) = some ([48, 46, 48], 3) ∧
      call Strings.zero Fpu.zero g ['a'.toNat.toUInt32] (fun _ => 0) = some (['a'.toUInt8], 1) ∧
      call Strings.zero Fpu.zero (f ++ g) ([0, 0] ++ ['a'.toNat.toUInt32]) (fun _ => 0) = some ([48, 46, 48, 0], 4) ∧
      ¬ ∀ f, Compositional f := by
  intro f g
  have hf : call Strings.zero Fpu.zero f [0, 0] (fun _ => 0) = some ([48, 46, 48], 3) := by decide
  have hg : call Strings.zero Fpu.zero g ['a'.toNat.toUInt32] (fun _ => 0) = some (['a'.toUInt8], 1) := by decide
  have hfg : call Strings.zero Fpu.zero (f ++ g) ([0, 0] ++ ['a'.toNat.toUInt32]) (fun _ => 0) =
      some ([48, 46, 48, 0], 4) := by decide
  refine ⟨hf, hg, hfg, ?_⟩
  intro hcomp
  have hcall := hcomp f _ _ g _ _ _ _ rfl rfl _ _ _ _ hf hg (by decide)
  rw [hfg] at hcall
  exact absurd hcall (by decide)

end onix.Format
