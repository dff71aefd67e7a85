import Mathlib.Tactic

/-! Expressions of C over `int`. The mathematical value of one is compared with the word that wrapping machine
arithmetic gives; the two are the same where no subexpression overflows. Sums of such values in an unsigned
variable are treated the same way. -/

namespace SignedExpr

/-- The values of an `int` -/
def InRange (n : ℤ) : Prop := -2 ^ 31 ≤ n ∧ n < 2 ^ 31

instance (n : ℤ) : Decidable (InRange n) := inferInstanceAs (Decidable (_ ∧ _))

theorem toInt_inRange (a : Int32) : InRange a.toInt := ⟨a.le_toInt, a.toInt_lt⟩

theorem InRange.bmod {n : ℤ} (h : InRange n) : n.bmod (2 ^ 32) = n := by
  obtain ⟨hlow, hhigh⟩ := h
  exact Int.bmod_eq_of_le (by omega) (by omega)

inductive Op
  | add
  | sub
  | mul
  | div
  | mod
  deriving DecidableEq, Repr

namespace Op

/-- Division rounds towards zero. -/
def value : Op → ℤ → ℤ → ℤ
  | .add, a, b => a + b
  | .sub, a, b => a - b
  | .mul, a, b => a * b
  | .div, a, b => a.tdiv b
  | .mod, a, b => a.tmod b

def wrap : Op → Int32 → Int32 → Int32
  | .add, a, b => a + b
  | .sub, a, b => a - b
  | .mul, a, b => a * b
  | .div, a, b => a / b
  | .mod, a, b => a % b

/-- The second operands that the language allows. -/
def Allows : Op → ℤ → Prop
  | .div, b => b ≠ 0
  | .mod, b => b ≠ 0
  | _, _ => True

instance (op : Op) (b : ℤ) : Decidable (op.Allows b) :=
  match op with
  | .add => isTrue trivial
  | .sub => isTrue trivial
  | .mul => isTrue trivial
  | .div => inferInstanceAs (Decidable (b ≠ 0))
  | .mod => inferInstanceAs (Decidable (b ≠ 0))

theorem wrap_toInt (op : Op) (a b : Int32) : (op.wrap a b).toInt = (op.value a.toInt b.toInt).bmod (2 ^ 32) := by
  cases op with
  | add => exact Int32.toInt_add a b
  | sub => exact Int32.toInt_sub a b
  | mul => exact Int32.toInt_mul a b
  | div => exact Int32.toInt_div a b
  | mod =>
    have hmod : (mod.wrap a b).toInt = a.toInt.tmod b.toInt := Int32.toInt_mod a b
    have hrange := (toInt_inRange (mod.wrap a b)).bmod
    rw [hmod] at hrange
    exact hmod.trans hrange.symm

end Op

end SignedExpr

/-- `val` is a constant or the value of a variable. -/
inductive SignedExpr where
  | val (n : Int32)
  | bin (op : SignedExpr.Op) (a b : SignedExpr)
  deriving DecidableEq, Repr

namespace SignedExpr

/-- The mathematical value -/
def value : SignedExpr → ℤ
  | .val n => n.toInt
  | .bin op a b => op.value a.value b.value

/-- The word that wrapping arithmetic computes -/
def wrap : SignedExpr → Int32
  | .val n => n
  | .bin op a b => op.wrap a.wrap b.wrap

/-- No subexpression overflows or divides by zero. -/
def Fits : SignedExpr → Prop
  | .val _ => True
  | .bin op a b => a.Fits ∧ b.Fits ∧ op.Allows b.value ∧ InRange (op.value a.value b.value)

def decide_fits : (e : SignedExpr) → Decidable e.Fits
  | .val _ => isTrue trivial
  | .bin op a b =>
    @instDecidableAnd _ _ (decide_fits a)
      (@instDecidableAnd _ _ (decide_fits b) (inferInstanceAs (Decidable (op.Allows b.value ∧ InRange _))))

instance : DecidablePred Fits := decide_fits

variable {e : SignedExpr}

theorem Fits.inRange (h : e.Fits) : InRange e.value := by
  cases e with
  | val n => exact toInt_inRange n
  | bin op a b => exact h.2.2.2

/-- Where nothing overflows, the machine computes the mathematical value. -/
theorem Fits.wrap_toInt (h : e.Fits) : e.wrap.toInt = e.value := by
  induction e with
  | val n => rfl
  | bin op a b iha ihb =>
    obtain ⟨ha, hb, -, hrange⟩ := h
    unfold wrap value
    rw [op.wrap_toInt, iha ha, ihb hb, hrange.bmod]

section Operators

instance (n : ℕ) : OfNat SignedExpr n := ⟨.val (Int32.ofNat n)⟩
instance : Add SignedExpr := ⟨.bin .add⟩
instance : Sub SignedExpr := ⟨.bin .sub⟩
instance : Mul SignedExpr := ⟨.bin .mul⟩
instance : Div SignedExpr := ⟨.bin .div⟩
instance : Mod SignedExpr := ⟨.bin .mod⟩

variable (a b : SignedExpr)

@[simp] theorem value_val (n : Int32) : (val n).value = n.toInt := rfl
@[simp] theorem value_add : (a + b).value = a.value + b.value := rfl
@[simp] theorem value_sub : (a - b).value = a.value - b.value := rfl
@[simp] theorem value_mul : (a * b).value = a.value * b.value := rfl
@[simp] theorem value_div : (a / b).value = a.value.tdiv b.value := rfl
@[simp] theorem fits_add : (a + b).Fits ↔ a.Fits ∧ b.Fits ∧ InRange (a.value + b.value) :=
  and_congr_right' (and_congr_right' (iff_of_eq (true_and _)))

@[simp] theorem fits_sub : (a - b).Fits ↔ a.Fits ∧ b.Fits ∧ InRange (a.value - b.value) :=
  and_congr_right' (and_congr_right' (iff_of_eq (true_and _)))

@[simp] theorem fits_mul : (a * b).Fits ↔ a.Fits ∧ b.Fits ∧ InRange (a.value * b.value) :=
  and_congr_right' (and_congr_right' (iff_of_eq (true_and _)))

@[simp] theorem fits_div : (a / b).Fits ↔ a.Fits ∧ b.Fits ∧ b.value ≠ 0 ∧ InRange (a.value.tdiv b.value) := Iff.rfl

@[simp] theorem fits_mod : (a % b).Fits ↔ a.Fits ∧ b.Fits ∧ b.value ≠ 0 ∧ InRange (a.value.tmod b.value) := Iff.rfl

end Operators

/-- An assignment `+=` or `-=` to an unsigned variable -/
inductive Step
  | add (e : SignedExpr)
  | sub (e : SignedExpr)
  deriving DecidableEq, Repr

namespace Step

def expr : Step → SignedExpr
  | .add e => e
  | .sub e => e

def value (total : ℤ) : Step → ℤ
  | .add e => total + e.value
  | .sub e => total - e.value

def wrap (total : UInt32) : Step → UInt32
  | .add e => total + e.wrap.toUInt32
  | .sub e => total - e.wrap.toUInt32

/-- No step takes the variable out of its range. -/
def NoWrap : ℤ → List Step → Prop
  | _, [] => True
  | total, step :: steps => 0 ≤ step.value total ∧ step.value total < 2 ^ 32 ∧ NoWrap (step.value total) steps

def wrap_all (total : UInt32) (steps : List Step) : UInt32 := steps.foldl wrap total

def value_all (total : ℤ) (steps : List Step) : ℤ := steps.foldl value total

theorem ofInt_toNat (n : ℤ) : ((UInt32.ofInt n).toNat : ℤ) = n % 2 ^ 32 := by
  have hlow := Int.emod_nonneg n (show (2 ^ 32 : ℤ) ≠ 0 by decide)
  have hhigh := Int.emod_lt_of_pos n (show (0 : ℤ) < 2 ^ 32 by decide)
  have hlt : (n % 2 ^ 32).toNat < 2 ^ 32 := by omega
  have hnat : (UInt32.ofInt n).toNat = (n % 2 ^ 32).toNat := UInt32.toNat_ofNat_of_lt' hlt
  rw [hnat, Int.toNat_of_nonneg hlow]

/-- The conversion of an `int` to an unsigned word -/
theorem ofInt_toInt (a : Int32) : UInt32.ofInt a.toInt = a.toUInt32 := by
  have hint : a.toInt = (a.toUInt32.toNat : ℤ).bmod (2 ^ 32) := BitVec.toInt_eq_toNat_bmod a.toBitVec
  have hlt := a.toUInt32.toNat_lt
  apply UInt32.toNat_inj.mp
  have hnat := ofInt_toNat a.toInt
  rw [hint, Int.bmod_def] at hnat ⊢
  omega

theorem wrap_ofInt {step : Step} (h : step.expr.Fits) (total : ℤ) :
    step.wrap (UInt32.ofInt total) = UInt32.ofInt (step.value total) := by
  have hexpr : UInt32.ofInt step.expr.value = step.expr.wrap.toUInt32 := by rw [← h.wrap_toInt, ofInt_toInt]
  cases step with
  | add e =>
    change UInt32.ofInt total + e.wrap.toUInt32 = UInt32.ofInt (total + e.value)
    rw [UInt32.ofInt_add]
    exact congrArg _ hexpr.symm
  | sub e =>
    change UInt32.ofInt total - e.wrap.toUInt32 = UInt32.ofInt (total - e.value)
    rw [Int.sub_eq_add_neg, UInt32.ofInt_add, UInt32.ofInt_neg, ← UInt32.sub_eq_add_neg]
    exact congrArg _ hexpr.symm

theorem wrap_all_ofInt {steps : List Step} (h : ∀ step ∈ steps, step.expr.Fits) (total : ℤ) :
    wrap_all (UInt32.ofInt total) steps = UInt32.ofInt (value_all total steps) := by
  induction steps generalizing total with
  | nil => rfl
  | cons step steps ih =>
    have hfirst := wrap_ofInt (h step List.mem_cons_self) total
    have hrest := ih (fun s hs => h s (List.mem_cons_of_mem step hs)) (step.value total)
    unfold wrap_all value_all at hrest ⊢
    rw [List.foldl_cons, List.foldl_cons, hfirst, hrest]

theorem NoWrap.value_all_inRange {steps : List Step} {total : ℤ} (h : NoWrap total steps) (hlow : 0 ≤ total)
    (hhigh : total < 2 ^ 32) : 0 ≤ value_all total steps ∧ value_all total steps < 2 ^ 32 := by
  induction steps generalizing total with
  | nil => exact ⟨hlow, hhigh⟩
  | cons step steps ih =>
    obtain ⟨hlow', hhigh', hrest⟩ := h
    exact ih hrest hlow' hhigh'

/-- Where nothing overflows and nothing wraps, the variable holds the mathematical total. -/
theorem wrap_all_toNat {steps : List Step} (hfits : ∀ step ∈ steps, step.expr.Fits) (hwrap : NoWrap 0 steps) :
    ((wrap_all 0 steps).toNat : ℤ) = value_all 0 steps := by
  obtain ⟨hlow, hhigh⟩ := hwrap.value_all_inRange le_rfl (by decide)
  have hofInt : wrap_all 0 steps = UInt32.ofInt (value_all 0 steps) := wrap_all_ofInt hfits 0
  rw [hofInt, ofInt_toNat, Int.emod_eq_of_lt hlow hhigh]

end Step

end SignedExpr
