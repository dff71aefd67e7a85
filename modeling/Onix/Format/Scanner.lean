import Onix.Format.Directives

namespace onix.Format

section Lengths

variable (args : Nat → u32) (flags : u32) (fmt : List u8) (ap : Nat)

theorem skip_atoi_length (i : Int32) : (skip_atoi i fmt).2.length ≤ fmt.length := by
  induction fmt generalizing i with
  | nil => exact le_refl _
  | cons c fmt ih =>
    unfold skip_atoi
    split
    · exact (ih _).trans (Nat.le_succ _)
    · exact le_refl _

theorem scan_flags_length : (scan_flags flags fmt).2.length ≤ fmt.length := by
  induction fmt generalizing flags with
  | nil => exact le_refl _
  | cons c fmt ih =>
    unfold scan_flags
    split
    · exact (ih _).trans (Nat.le_succ _)
    · exact le_refl _

theorem tail_length : fmt.tail.length ≤ fmt.length := by
  rw [List.length_tail]
  exact Nat.sub_le _ _

theorem scan_width_length : (scan_width args flags fmt ap).2.2.1.length ≤ fmt.length := by
  unfold scan_width
  split_ifs
  · exact skip_atoi_length fmt 0
  · exact tail_length fmt
  · exact tail_length fmt
  · exact le_refl _

theorem scan_precision_length : (scan_precision args fmt ap).2.1.length ≤ fmt.length := by
  unfold scan_precision scan_precision_value
  split_ifs
  · exact (skip_atoi_length fmt.tail 0).trans (tail_length fmt)
  · exact tail_length fmt
  · exact tail_length fmt
  · exact le_refl _

theorem scan_qualifier_length : (scan_qualifier fmt).length ≤ fmt.length := by
  unfold scan_qualifier
  split_ifs
  · exact tail_length fmt
  · exact le_refl _

/-- A directive leaves no more of the format than there was. -/
theorem directive_length (env : Env) : (directive env fmt ap).2.1.length ≤ fmt.length := by
  have hflags := scan_flags_length 0 fmt
  have hwidth := scan_width_length env.args (scan_flags 0 fmt).1 (scan_flags 0 fmt).2 ap
  have hprecision := scan_precision_length env.args
    (scan_width env.args (scan_flags 0 fmt).1 (scan_flags 0 fmt).2 ap).2.2.1
    (scan_width env.args (scan_flags 0 fmt).1 (scan_flags 0 fmt).2 ap).2.2.2
  exact (tail_length _).trans ((scan_qualifier_length _).trans (hprecision.trans (hwidth.trans hflags)))

end Lengths

/-- More turns than the format is long change nothing. -/
theorem format_loop_turns (env : Env) {turns : Nat} {fmt : List u8} (hturns : fmt.length ≤ turns) (ap : Nat) :
    format_loop env turns fmt ap = format_loop env fmt.length fmt ap := by
  induction turns using Nat.strongRecOn generalizing fmt ap with
  | ind turns ih =>
    cases fmt with
    | nil => cases turns <;> rfl
    | cons c fmt =>
      obtain ⟨turns, rfl⟩ : ∃ n, turns = n + 1 := ⟨turns - 1, by simp only [List.length_cons] at hturns; omega⟩
      have hle : fmt.length ≤ turns := by
        rw [List.length_cons] at hturns
        omega
      have hrest := directive_length fmt ap env
      rw [List.length_cons]
      unfold format_loop
      split_ifs with hc
      · rw [ih turns (Nat.lt_succ_self _) hle]
      · dsimp only
        rw [ih turns (Nat.lt_succ_self _) (hrest.trans hle), ih fmt.length (by omega) hrest]

/-- The text of a format that is carried out from an argument on. -/
def format_from (env : Env) (fmt : List u8) (ap : Nat) : List u8 := format_loop env fmt.length fmt ap

section From

variable (env : Env) (fmt : List u8) (ap : Nat)

@[simp] theorem format_from_nil : format_from env [] ap = [] := rfl

theorem format_from_text {c : u8} (hc : c ≠ '%'.toUInt8) :
    format_from env (c :: fmt) ap = c :: format_from env fmt ap :=
  if_pos hc

theorem format_from_directive : format_from env ('%'.toUInt8 :: fmt) ap =
    (directive env fmt ap).1 ++ format_from env (directive env fmt ap).2.1 (directive env fmt ap).2.2 := by
  have hrest := directive_length fmt ap env
  unfold format_from
  rw [← format_loop_turns env hrest]
  rfl

end From

section Behind

/-- The arguments from the `k`th word on. -/
def Env.behind (env : Env) (k : Nat) : Env := { env with args := fun i => env.args (k + i) }

variable (env : Env) (k ap : Nat)

theorem scan_width_behind (flags : u32) (fmt : List u8) : scan_width env.args flags fmt (k + ap) =
    ((scan_width (env.behind k).args flags fmt ap).1, (scan_width (env.behind k).args flags fmt ap).2.1,
      (scan_width (env.behind k).args flags fmt ap).2.2.1,
      k + (scan_width (env.behind k).args flags fmt ap).2.2.2) := by
  have hword : (env.behind k).args ap = env.args (k + ap) := rfl
  unfold scan_width
  rw [hword]
  split_ifs <;> rfl

theorem scan_precision_behind (fmt : List u8) : scan_precision env.args fmt (k + ap) =
    ((scan_precision (env.behind k).args fmt ap).1, (scan_precision (env.behind k).args fmt ap).2.1,
      k + (scan_precision (env.behind k).args fmt ap).2.2) := by
  unfold scan_precision scan_precision_value
  split_ifs <;> rfl

theorem directive_end_behind (flags : u32) (field_width precision : Int32) (fmt : List u8) :
    directive_end env flags field_width precision fmt (k + ap) =
      ((directive_end (env.behind k) flags field_width precision fmt ap).1,
        (directive_end (env.behind k) flags field_width precision fmt ap).2.1,
        k + (directive_end (env.behind k) flags field_width precision fmt ap).2.2) := by
  unfold directive_end
  rw [Nat.add_assoc k ap 1]
  exact congrArg (Prod.mk _ ∘ Prod.mk _) (Nat.add_assoc k ap _)

theorem directive_behind (fmt : List u8) : directive env fmt (k + ap) =
    ((directive (env.behind k) fmt ap).1, (directive (env.behind k) fmt ap).2.1,
      k + (directive (env.behind k) fmt ap).2.2) := by
  unfold directive
  dsimp only
  rw [scan_width_behind]
  dsimp only
  rw [scan_precision_behind]
  exact directive_end_behind env k _ _ _ _ _

/-- Nothing of a format but its arguments depends on what is in front of them. -/
theorem format_from_behind (fmt : List u8) : format_from env fmt (k + ap) = format_from (env.behind k) fmt ap := by
  unfold format_from
  generalize fmt.length = turns
  induction turns generalizing fmt ap with
  | zero => rfl
  | succ turns ih =>
    cases fmt with
    | nil => rfl
    | cons c fmt =>
      unfold format_loop
      dsimp only
      rw [directive_behind, ih, ih]

end Behind

end onix.Format
