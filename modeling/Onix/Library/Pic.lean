import Mathlib.Tactic

/-! Interrupt controllers of eight lines each, and a pair of them in a cascade.

A controller has a register of the lines that ask for an interrupt, one of the lines that are masked and
one of the lines whose interrupt has been accepted and not been ended. A line of a smaller number comes
before one of a larger one. The output of the slave is wired to line 2 of the master. -/

namespace Pic

/-- Where a controller is in the sequence of its initialisation commands. -/
inductive Phase where
  | ready
  | icw2
  | icw3
  | icw4
  deriving DecidableEq, Repr

structure Chip where
  phase : Phase
  /-- `icw1` -/
  setup : BitVec 8
  /-- the number of the interrupt of line 0 -/
  base : BitVec 8
  /-- for a master the lines that slaves are wired to, for a slave the number of its line -/
  wiring : BitVec 8
  /-- `icw4` -/
  mode : BitVec 8
  masked : BitVec 8
  requested : BitVec 8
  served : BitVec 8
  deriving DecidableEq, Repr

def line (i : Fin 8) : BitVec 8 := 1#8 <<< i.val

/-- The line of a register that comes first. -/
def first (m : BitVec 8) : Option (Fin 8) := (List.finRange 8).find? fun i => m.getLsbD i

namespace Chip

variable (c : Chip)

/-- The end of the interrupt that comes first among the accepted ones. -/
def end_first : Chip :=
  match first c.served with
  | some i => { c with served := c.served &&& ~~~line i }
  | none => c

/-- A write to the first port: a new initialisation, or a command, of which only the end of an interrupt
that is not named is modelled. -/
def control (v : BitVec 8) : Chip :=
  if v.getLsbD 4 then { c with phase := .icw2, setup := v, mode := 0, masked := 0, requested := 0, served := 0 }
  else if v &&& 0xf8 = 0x20 then c.end_first
  else c

/-- A write to the second port. -/
def data (v : BitVec 8) : Chip :=
  match c.phase with
  | .icw2 =>
    { c with
      base := v &&& 0xf8
      phase := if c.setup.getLsbD 1 then if c.setup.getLsbD 0 then .icw4 else .ready else .icw3 }
  | .icw3 => { c with wiring := v, phase := if c.setup.getLsbD 0 then .icw4 else .ready }
  | .icw4 => { c with mode := v, phase := .ready }
  | .ready => { c with masked := v }

/-- A device asks for an interrupt. -/
def raise (i : Fin 8) : Chip := { c with requested := c.requested ||| line i }

/-- The line whose interrupt the controller asks for: it is not masked, and comes before all that have
been accepted. -/
def pending : Option (Fin 8) :=
  match first (c.requested &&& ~~~c.masked) with
  | some i => if ∀ j, c.served.getLsbD j.val → i < j then some i else none
  | none => none

/-- The processor takes the interrupt of a line; in the automatic mode it is ended at once. -/
def accept (i : Fin 8) : Chip :=
  { c with
    requested := c.requested &&& ~~~line i
    served := if c.mode.getLsbD 1 then c.served else c.served ||| line i }

/-- The number that the processor is given for a line, if the controller is set up for this processor. -/
def vector (i : Fin 8) : Option (BitVec 8) := if c.mode.getLsbD 0 then some (c.base ||| BitVec.ofNat 8 i) else none

end Chip

structure Pair where
  master : Chip
  slave : Chip
  deriving DecidableEq, Repr

/-- The line of the master that the slave is wired to. -/
def cascade : Fin 8 := 2

namespace Pair

variable (p : Pair)

/-- The master as the output of the slave drives it. On a glitch the output is on although no line of the
slave asks for an interrupt any more. -/
def driven (glitch : Bool) : Chip :=
  { p.master with
    requested :=
      if p.slave.pending.isSome ∨ glitch then p.master.requested ||| line cascade
      else p.master.requested &&& ~~~line cascade }

/-- The processor accepts an interrupt, and the number it is given. A controller that has nothing to ask
for any more gives the number of its line 7. -/
def acknowledge (glitch : Bool) : Option (BitVec 8) × Pair :=
  match (p.driven glitch).pending with
  | none => (p.master.vector 7, p)
  | some i =>
    let master := (p.driven glitch).accept i
    if p.master.wiring.getLsbD i.val then
      if p.slave.wiring = BitVec.ofNat 8 i then
        match p.slave.pending with
        | none => (p.slave.vector 7, { p with master })
        | some j => (p.slave.vector j, { master, slave := p.slave.accept j })
      else (none, { p with master })
    else (p.master.vector i, { p with master })

/-- The lines of both controllers, of the slave from 8 on. -/
def raise (n : Fin 16) : Pair :=
  if h : n.val < 8 then { p with master := p.master.raise ⟨n, h⟩ }
  else { p with slave := p.slave.raise ⟨n - 8, by omega⟩ }

def requested (n : Fin 16) : Bool :=
  if n.val < 8 then p.master.requested.getLsbD n else p.slave.requested.getLsbD (n - 8)

def masked (n : Fin 16) : Bool :=
  if n.val < 8 then p.master.masked.getLsbD n else p.slave.masked.getLsbD (n - 8)

/-- A device line asks for an interrupt that both controllers let through. -/
def Deliverable (n : Fin 16) : Prop :=
  n ≠ 2 ∧ p.requested n ∧ ¬ p.masked n ∧ (8 ≤ n.val → ¬ p.masked 2)

instance (n : Fin 16) : Decidable (p.Deliverable n) :=
  inferInstanceAs (Decidable (n ≠ 2 ∧ p.requested n ∧ ¬ p.masked n ∧ (8 ≤ n.val → ¬ p.masked 2)))

end Pair

/-- The place of a line in the order of the lines: those of the slave come behind lines 0 and 1. -/
def rank (n : Fin 16) : Nat := if n.val < 2 then n else if n.val < 8 then n + 8 else n - 6

theorem line_getLsbD (i : Fin 8) (j : Nat) : (line i).getLsbD j = decide (j = i.val) := by
  have hi := i.isLt
  by_cases hj : j < 8
  · interval_cases j <;> fin_cases i <;> rfl
  · have hne : j ≠ i.val := by omega
    simp [line, hj, hne]

/-- The first line of a register is in it, and no line before it is. -/
theorem first_eq_some {m : BitVec 8} {i : Fin 8} :
    first m = some i ↔ m.getLsbD i = true ∧ ∀ j < i, m.getLsbD j.val = false := by
  rw [first, List.find?_eq_some_iff_getElem]
  constructor
  · rintro ⟨hi, k, hk, heq, hbefore⟩
    refine ⟨hi, fun j hj => ?_⟩
    have hjk : j.val < k := by
      simp only [List.getElem_finRange] at heq
      rw [← heq] at hj
      exact hj
    have h := hbefore j.val hjk
    simpa using h
  · rintro ⟨hi, hbefore⟩
    refine ⟨hi, i.val, by simp, by simp, fun j hj => ?_⟩
    have h := hbefore ⟨j, by omega⟩ hj
    simpa using h

theorem first_eq_none {m : BitVec 8} : first m = none ↔ ∀ i : Fin 8, m.getLsbD i.val = false := by
  simp [first]

theorem first_zero : first 0 = none := first_eq_none.mpr fun i => by simp

/-- The line lets an interrupt of it through. -/
def Chip.Open (c : Chip) (i : Fin 8) : Prop := c.requested.getLsbD i.val = true ∧ c.masked.getLsbD i.val = false

theorem Chip.request_getLsbD (c : Chip) (i : Fin 8) :
    (c.requested &&& ~~~c.masked).getLsbD i.val = true ↔ c.Open i := by
  simp [Chip.Open]

/-- While nothing is served, a controller asks for the first line that is let through. -/
theorem Chip.pending_eq_some {c : Chip} (hserved : c.served = 0) {i : Fin 8} :
    c.pending = some i ↔ c.Open i ∧ ∀ j < i, ¬ c.Open j := by
  have hfirst : c.pending = first (c.requested &&& ~~~c.masked) := by
    have hnone : ∀ i j : Fin 8, c.served.getLsbD j.val = true → i < j := fun i j hj => by
      rw [hserved, BitVec.ofNat_eq_ofNat, BitVec.getLsbD_zero] at hj
      exact absurd hj (by simp)
    unfold Chip.pending
    cases first (c.requested &&& ~~~c.masked) with
    | none => rfl
    | some i => exact if_pos (hnone i)
  rw [hfirst, first_eq_some, c.request_getLsbD]
  refine and_congr_right fun _ => forall₂_congr fun j _ => ?_
  rw [← c.request_getLsbD, Bool.not_eq_true]

theorem Chip.pending_eq_none {c : Chip} (hserved : c.served = 0) : c.pending = none ↔ ∀ i, ¬ c.Open i := by
  constructor
  · intro hnone i
    by_contra hopen
    obtain ⟨j, hj, hbefore⟩ : ∃ j, c.Open j ∧ ∀ k < j, ¬ c.Open k := by
      classical
      exact ⟨_, WellFounded.min_mem wellFounded_lt {j | c.Open j} ⟨i, hopen⟩,
        fun k hk hopen => WellFounded.not_lt_min wellFounded_lt {j | c.Open j} hopen hk⟩
    rw [(Chip.pending_eq_some hserved).mpr ⟨hj, hbefore⟩] at hnone
    exact absurd hnone (by simp)
  · intro hclosed
    cases hpending : c.pending with
    | none => rfl
    | some i => exact absurd ((Chip.pending_eq_some hserved).mp hpending).1 (hclosed i)

/-- A register of the accepted interrupts with one line in it, or none. -/
def Single (m : BitVec 8) : Prop := m = 0 ∨ ∃ i, m = line i

/-- The end of the one interrupt that is served. -/
theorem Chip.end_first_served {c : Chip} (h : Single c.served) : c.end_first.served = 0 := by
  obtain hzero | ⟨i, hi⟩ := h
  · rw [Chip.end_first, hzero, first_zero]
    exact hzero
  · have hfirst : first (line i) = some i := by
      rw [first_eq_some, line_getLsbD]
      refine ⟨decide_eq_true rfl, fun j hj => ?_⟩
      rw [line_getLsbD]
      exact decide_eq_false (Fin.val_ne_of_ne hj.ne)
    rw [Chip.end_first, hi, hfirst]
    exact BitVec.and_not_self _

theorem Chip.end_first_frame (c : Chip) : c.end_first = { c with served := c.end_first.served } := by
  unfold Chip.end_first
  split <;> rfl

theorem Chip.data_ready {c : Chip} (hready : c.phase = .ready) (v : BitVec 8) : c.data v = { c with masked := v } := by
  cases c
  cases hready
  rfl

/-- Four initialisation commands and a mask set a controller up, whatever was written to it before. -/
theorem Chip.initialised (c : Chip) (base wiring masked : BitVec 8) :
    ((((c.control 0x11).data base).data wiring).data 1).data masked =
      ⟨.ready, 0x11, base &&& 0xf8, wiring, 1, masked, 0, 0⟩ := by
  simp [Chip.control, Chip.data]

/-- Both controllers are set up: the interrupts of the master from one number on, and those of the slave
from another. -/
structure Pair.Configured (master slave : BitVec 8) (p : Pair) : Prop where
  ready : p.master.phase = .ready ∧ p.slave.phase = .ready
  base : p.master.base = master ∧ p.slave.base = slave
  wiring : p.master.wiring = line cascade ∧ p.slave.wiring = BitVec.ofNat 8 cascade
  mode : p.master.mode = 1 ∧ p.slave.mode = 1

/-- The number of the interrupt of a line. -/
def number (master slave : BitVec 8) (n : Fin 16) : BitVec 8 :=
  if n.val < 8 then master ||| BitVec.ofNat 8 n else slave ||| BitVec.ofNat 8 (n - 8)

theorem Chip.raise_getLsbD (c : Chip) (i j : Fin 8) :
    (c.raise i).requested.getLsbD j.val = (c.requested.getLsbD j.val || j = i) := by
  rw [Chip.raise, BitVec.getLsbD_or, line_getLsbD]
  exact congrArg _ (decide_eq_decide.mpr Fin.ext_iff.symm)

/-- What becomes of the controllers when the processor takes the interrupt of a line. -/
structure Pair.Delivers (p p' : Pair) (n : Fin 16) : Prop where
  requested : ∀ k, k ≠ 2 → p'.requested k = (p.requested k && k ≠ n)
  masked : p'.master.masked = p.master.masked ∧ p'.slave.masked = p.slave.masked
  master : p'.master.served = if n.val < 8 then line ⟨n % 8, by omega⟩ else line cascade
  slave : n.val < 8 ∧ p'.slave.served = 0 ∨ 8 ≤ n.val ∧ p'.slave.served = line ⟨n % 8, by omega⟩

/-- What becomes of the controllers when they have nothing to ask for any more. -/
structure Pair.Spurious (p p' : Pair) : Prop where
  requested : ∀ k, k ≠ 2 → p'.requested k = p.requested k
  masked : p'.master.masked = p.master.masked ∧ p'.slave.masked = p.slave.masked
  master : Single p'.master.served
  slave : p'.slave.served = 0

/-- The line of the master, among the lines of both. -/
def low (i : Fin 8) : Fin 16 := ⟨i, by omega⟩

/-- The line of the slave, among the lines of both. -/
def high (j : Fin 8) : Fin 16 := ⟨8 + j, by omega⟩

theorem low_or_high (n : Fin 16) : (∃ i, n = low i) ∨ ∃ j, n = high j := by
  by_cases hn : n.val < 8
  · exact .inl ⟨⟨n, hn⟩, rfl⟩
  · exact .inr ⟨⟨n - 8, by omega⟩, Fin.ext (by simp [high]; omega)⟩

theorem low_ne {i : Fin 8} (hi : i ≠ cascade) : low i ≠ 2 := fun heq => hi (Fin.ext (congrArg (fun n => n.val) heq))

theorem high_ne (j : Fin 8) : high j ≠ 2 := fun heq => by
  have h := congrArg (fun n => n.val) heq
  simp [high] at h
  omega

theorem low_ne_high (i j : Fin 8) : low i ≠ high j := fun heq => by
  have h : i.val = 8 + j.val := congrArg Fin.val heq
  omega

@[simp] theorem rank_low (i : Fin 8) : rank (low i) = if i.val < 2 then i.val else i.val + 8 := by
  have hlow : (low i).val = i.val := rfl
  rw [rank, hlow, if_pos i.isLt]

@[simp] theorem rank_high (j : Fin 8) : rank (high j) = j.val + 2 := by
  have hhigh : (high j).val = 8 + j.val := rfl
  rw [rank, if_neg (by omega), if_neg (by omega)]
  omega

namespace Pair

variable {p : Pair} {glitch : Bool}

@[simp] theorem requested_low (i : Fin 8) : p.requested (low i) = p.master.requested.getLsbD i.val := if_pos i.isLt

@[simp] theorem requested_high (j : Fin 8) : p.requested (high j) = p.slave.requested.getLsbD j.val := by
  simp [requested, high]

@[simp] theorem masked_low (i : Fin 8) : p.masked (low i) = p.master.masked.getLsbD i.val := if_pos i.isLt

@[simp] theorem masked_high (j : Fin 8) : p.masked (high j) = p.slave.masked.getLsbD j.val := by
  simp [masked, high]

theorem raise_low (i : Fin 8) : p.raise (low i) = { p with master := p.master.raise i } := dif_pos i.isLt

theorem raise_high (j : Fin 8) : p.raise (high j) = { p with slave := p.slave.raise j } := by
  have hhigh : ¬ (high j).val < 8 := Nat.not_lt.mpr (Nat.le_add_right 8 j)
  have hj : (⟨(high j).val - 8, by have := j.isLt; simp only [high]; omega⟩ : Fin 8) = j :=
    Fin.ext (Nat.add_sub_cancel_left 8 j.val)
  rw [raise, dif_neg hhigh, hj]

/-- A device asks for an interrupt, and no line is without its request for it. -/
theorem raise_requested (n k : Fin 16) : (p.raise n).requested k = (p.requested k || k = n) := by
  obtain ⟨i, rfl⟩ | ⟨j, rfl⟩ := low_or_high n
  · rw [raise_low]
    obtain ⟨i', rfl⟩ | ⟨j, rfl⟩ := low_or_high k
    · rw [requested_low, requested_low, Chip.raise_getLsbD]
      simp [low, Fin.ext_iff]
    · rw [requested_high, requested_high, decide_eq_false (low_ne_high i j).symm, Bool.or_false]
  · rw [raise_high]
    obtain ⟨i, rfl⟩ | ⟨j', rfl⟩ := low_or_high k
    · rw [requested_low, requested_low, decide_eq_false (low_ne_high i j), Bool.or_false]
    · rw [requested_high, requested_high, Chip.raise_getLsbD]
      simp [high, Fin.ext_iff]

/-- The request of a device changes nothing else. -/
theorem raise_frame (n : Fin 16) :
    ∃ master slave, p.raise n =
      { master := { p.master with requested := master }, slave := { p.slave with requested := slave } } := by
  obtain ⟨i, rfl⟩ | ⟨j, rfl⟩ := low_or_high n
  · exact ⟨_, p.slave.requested, raise_low i⟩
  · exact ⟨p.master.requested, _, raise_high j⟩

theorem deliverable_low {i : Fin 8} (hi : i ≠ cascade) : p.Deliverable (low i) ↔ p.master.Open i := by
  have hlow : ¬ 8 ≤ (low i).val := Nat.not_le.mpr i.isLt
  simp only [Deliverable, requested_low, masked_low, Chip.Open, hlow, false_imp_iff, and_true, Bool.not_eq_true]
  exact and_iff_right (low_ne hi)

theorem deliverable_high {j : Fin 8} : p.Deliverable (high j) ↔ p.slave.Open j ∧ p.masked 2 = false := by
  have hhigh : 8 ≤ (high j).val := Nat.le_add_right 8 j
  simp only [Deliverable, requested_high, masked_high, Chip.Open, hhigh, true_imp_iff, Bool.not_eq_true, and_assoc]
  exact and_iff_right (high_ne j)

/-- A line of the master is as it was, but for the one that the slave drives. -/
theorem driven_requested_of_ne {i : Fin 8} (hi : i ≠ cascade) :
    (p.driven glitch).requested.getLsbD i.val = p.master.requested.getLsbD i.val := by
  have hne : i.val ≠ cascade.val := Fin.val_ne_of_ne hi
  have hline : (line cascade).getLsbD i.val = false := by rw [line_getLsbD, decide_eq_false hne]
  unfold driven
  dsimp only
  split_ifs
  · rw [BitVec.getLsbD_or, hline, Bool.or_false]
  · rw [BitVec.getLsbD_and, BitVec.getLsbD_not, hline, decide_eq_true i.isLt, Bool.not_false, Bool.and_true, Bool.and_true]

theorem driven_requested_cascade :
    (p.driven glitch).requested.getLsbD cascade.val = true ↔ p.slave.pending.isSome ∨ glitch = true := by
  have hline : (line cascade).getLsbD cascade.val = true := by rw [line_getLsbD, decide_eq_true rfl]
  unfold driven
  dsimp only
  split_ifs with h
  · rw [BitVec.getLsbD_or, hline, Bool.or_true]
    exact iff_of_true rfl h
  · rw [BitVec.getLsbD_and, BitVec.getLsbD_not, hline, Bool.not_true, Bool.and_false, Bool.and_false]
    exact iff_of_false Bool.false_ne_true h

theorem driven_open_of_ne {i : Fin 8} (hi : i ≠ cascade) : (p.driven glitch).Open i ↔ p.master.Open i :=
  and_congr_left' (by rw [driven_requested_of_ne hi])

theorem driven_open_cascade : (p.driven glitch).Open cascade ↔
    (p.slave.pending.isSome ∨ glitch = true) ∧ p.masked 2 = false :=
  and_congr driven_requested_cascade .rfl

end Pair

theorem Chip.accept_requested (c : Chip) (i j : Fin 8) :
    (c.accept i).requested.getLsbD j.val = (c.requested.getLsbD j.val && j ≠ i) := by
  rw [Chip.accept, BitVec.getLsbD_and, BitVec.getLsbD_not, line_getLsbD, decide_eq_true j.isLt, Bool.true_and]
  refine congrArg _ (Bool.eq_iff_iff.mpr ?_)
  simp [Fin.ext_iff]

theorem Chip.accept_served {c : Chip} (hmode : c.mode = 1) (hserved : c.served = 0) (i : Fin 8) :
    (c.accept i).served = line i := by
  have hmanual : c.mode.getLsbD 1 = false := by rw [hmode]; rfl
  rw [Chip.accept, hmanual, hserved]
  exact BitVec.zero_or

theorem Chip.vector_eq {c : Chip} (hmode : c.mode = 1) (i : Fin 8) :
    c.vector i = some (c.base ||| BitVec.ofNat 8 i) := by
  have hset : c.mode.getLsbD 0 = true := by rw [hmode]; rfl
  rw [Chip.vector, if_pos hset]

@[simp] theorem number_low (master slave : BitVec 8) (i : Fin 8) :
    number master slave (low i) = master ||| BitVec.ofNat 8 i := if_pos i.isLt

@[simp] theorem number_high (master slave : BitVec 8) (j : Fin 8) :
    number master slave (high j) = slave ||| BitVec.ofNat 8 j := by simp [number, high]

namespace Pair

variable {p : Pair} {glitch : Bool} {m s : BitVec 8}

/-- Where a line has been accepted, of the master only or of the slave too. -/
theorem acknowledge_eq (p : Pair) (glitch : Bool) : (p.acknowledge glitch).2 = p ∨
    (∃ i, (p.acknowledge glitch).2 = { p with master := (p.driven glitch).accept i }) ∨
    ∃ i j, (p.acknowledge glitch).2 = { master := (p.driven glitch).accept i, slave := p.slave.accept j } := by
  unfold acknowledge
  split
  · exact .inl rfl
  · dsimp only
    split_ifs
    · split
      · exact .inr (.inl ⟨_, rfl⟩)
      · exact .inr (.inr ⟨_, _, rfl⟩)
    · exact .inr (.inl ⟨_, rfl⟩)
    · exact .inr (.inl ⟨_, rfl⟩)

/-- An interrupt leaves the masks as they are. -/
theorem acknowledge_masked (p : Pair) (glitch : Bool) : (p.acknowledge glitch).2.masked = p.masked := by
  obtain heq | ⟨i, heq⟩ | ⟨i, j, heq⟩ := p.acknowledge_eq glitch <;> rw [heq] <;> rfl

theorem acknowledge_configured (hconf : p.Configured m s) (glitch : Bool) :
    (p.acknowledge glitch).2.Configured m s := by
  obtain heq | ⟨i, heq⟩ | ⟨i, j, heq⟩ := p.acknowledge_eq glitch <;> rw [heq]
  · exact hconf
  · exact ⟨hconf.ready, hconf.base, hconf.wiring, hconf.mode⟩
  · exact ⟨hconf.ready, hconf.base, hconf.wiring, hconf.mode⟩

/-- The processor takes the interrupt of a line of the master. -/
theorem acknowledge_low (hconf : p.Configured m s) {i : Fin 8} (hi : i ≠ cascade)
    (hpending : (p.driven glitch).pending = some i) :
    p.acknowledge glitch = (some (number m s (low i)), { p with master := (p.driven glitch).accept i }) := by
  have hwired : p.master.wiring.getLsbD i.val = false := by
    rw [hconf.wiring.1, line_getLsbD]
    exact decide_eq_false (Fin.val_ne_of_ne hi)
  rw [acknowledge, hpending]
  simp only [hwired, Bool.false_eq_true, if_false, Chip.vector_eq hconf.mode.1, hconf.base.1, number_low]

/-- The processor takes the interrupt that the slave asks for, if it still does. -/
theorem acknowledge_high (hconf : p.Configured m s) (hpending : (p.driven glitch).pending = some cascade) :
    p.acknowledge glitch =
      match p.slave.pending with
      | none => (some (number m s 15), { p with master := (p.driven glitch).accept cascade })
      | some j =>
        (some (number m s (high j)), { master := (p.driven glitch).accept cascade, slave := p.slave.accept j }) := by
  have hwired : p.master.wiring.getLsbD cascade.val = true := by
    rw [hconf.wiring.1, line_getLsbD]
    exact decide_eq_true rfl
  rw [acknowledge, hpending]
  simp only [hwired, if_true, hconf.wiring.2, Chip.vector_eq hconf.mode.2, hconf.base.2, ← number_high m s]
  rfl

theorem acknowledge_none (hconf : p.Configured m s) (hpending : (p.driven glitch).pending = none) :
    p.acknowledge glitch = (some (number m s 7), p) := by
  rw [acknowledge, hpending]
  simp only [Chip.vector_eq hconf.mode.1, hconf.base.1]
  rfl

/-- The master has one interrupt to end, and the slave has one just when the line is one of it. -/
theorem delivers_low (hconf : p.Configured m s) (hmaster : p.master.served = 0) (hslave : p.slave.served = 0)
    (i : Fin 8) : p.Delivers { p with master := (p.driven glitch).accept i } (low i) where
  requested k hk := by
    obtain ⟨i', rfl⟩ | ⟨j, rfl⟩ := low_or_high k
    · have hne : i' ≠ cascade := by
        rintro rfl
        exact hk rfl
      rw [requested_low, requested_low, Chip.accept_requested, driven_requested_of_ne hne]
      simp [low, Fin.ext_iff]
    · have hne : high j ≠ low i := (low_ne_high i j).symm
      simp [hne]
  masked := ⟨rfl, rfl⟩
  master := by
    rw [if_pos (show (low i).val < 8 from i.isLt)]
    refine (Chip.accept_served (c := p.driven glitch) hconf.mode.1 hmaster i).trans (congrArg line (Fin.ext ?_))
    exact (Nat.mod_eq_of_lt i.isLt).symm
  slave := .inl ⟨i.isLt, hslave⟩

theorem delivers_high (hconf : p.Configured m s) (hmaster : p.master.served = 0) (hslave : p.slave.served = 0)
    (j : Fin 8) :
    p.Delivers { master := (p.driven glitch).accept cascade, slave := p.slave.accept j } (high j) where
  requested k hk := by
    obtain ⟨i, rfl⟩ | ⟨j', rfl⟩ := low_or_high k
    · have hne : i ≠ cascade := by
        rintro rfl
        exact hk rfl
      have hlow : low i ≠ high j := low_ne_high i j
      rw [requested_low, requested_low, Chip.accept_requested, driven_requested_of_ne hne]
      simp [hne, hlow]
    · rw [requested_high, requested_high, Chip.accept_requested]
      simp [high, Fin.ext_iff]
  masked := ⟨rfl, rfl⟩
  master := by
    rw [if_neg (show ¬ (high j).val < 8 from Nat.not_lt.mpr (Nat.le_add_right 8 j))]
    exact Chip.accept_served (c := p.driven glitch) hconf.mode.1 hmaster cascade
  slave := by
    refine .inr ⟨Nat.le_add_right 8 j, ?_⟩
    refine (Chip.accept_served hconf.mode.2 hslave j).trans (congrArg line (Fin.ext ?_))
    have hj := j.isLt
    simp only [high]
    omega

/-- The slave had nothing to ask for any more. -/
theorem spurious_high (hconf : p.Configured m s) (hmaster : p.master.served = 0) (hslave : p.slave.served = 0) :
    p.Spurious { p with master := (p.driven glitch).accept cascade } where
  requested k hk := by
    obtain ⟨i, rfl⟩ | ⟨j, rfl⟩ := low_or_high k
    · have hne : i ≠ cascade := by
        rintro rfl
        exact hk rfl
      rw [requested_low, requested_low, Chip.accept_requested, driven_requested_of_ne hne]
      simp [hne]
    · rw [requested_high, requested_high]
  masked := ⟨rfl, rfl⟩
  master := .inr ⟨cascade, Chip.accept_served (c := p.driven glitch) hconf.mode.1 hmaster cascade⟩
  slave := hslave

/-- The first line that the master lets through comes before every line that is let through. -/
theorem rank_low_le (hmaster : p.master.served = 0) (hslave : p.slave.served = 0) {i : Fin 8} (hi : i ≠ cascade)
    (hpending : (p.driven glitch).pending = some i) {k : Fin 16} (hk : p.Deliverable k) : rank (low i) ≤ rank k := by
  obtain ⟨-, hbefore⟩ := (Chip.pending_eq_some (c := p.driven glitch) hmaster).mp hpending
  obtain ⟨i', rfl⟩ | ⟨j, rfl⟩ := low_or_high k
  · have hne : i' ≠ cascade := by
      rintro rfl
      exact hk.1 rfl
    have hle : i ≤ i' := not_lt.mp fun hlt => hbefore i' hlt ((driven_open_of_ne hne).mpr ((deliverable_low hne).mp hk))
    have hlt : i.val ≤ i'.val := hle
    rw [rank_low, rank_low]
    split_ifs <;> omega
  · obtain ⟨hopen, hmask⟩ := deliverable_high.mp hk
    have hsome : p.slave.pending.isSome := by
      rw [Option.isSome_iff_ne_none]
      exact fun hnone => (Chip.pending_eq_none hslave).mp hnone j hopen
    have hle : i ≤ cascade := not_lt.mp fun hlt => hbefore cascade hlt (driven_open_cascade.mpr ⟨.inl hsome, hmask⟩)
    have hlt : i.val < 2 := lt_of_le_of_ne hle fun heq => hi (Fin.ext heq)
    rw [rank_low, rank_high, if_pos hlt]
    omega

/-- Where the master has none before the cascade, its other lines come behind. -/
theorem cascade_lt (hmaster : p.master.served = 0) (hpending : (p.driven glitch).pending = some cascade)
    {i : Fin 8} (hi : p.Deliverable (low i)) : 2 < i.val := by
  obtain ⟨-, hbefore⟩ := (Chip.pending_eq_some (c := p.driven glitch) hmaster).mp hpending
  have hne : i ≠ cascade := by
    rintro rfl
    exact hi.1 rfl
  have hle : cascade ≤ i := not_lt.mp fun hlt => hbefore i hlt ((driven_open_of_ne hne).mpr ((deliverable_low hne).mp hi))
  exact lt_of_le_of_ne hle fun heq => hne (Fin.ext heq.symm)

/-- The first line that the slave lets through, when the master has none before it. -/
theorem rank_high_le (hmaster : p.master.served = 0) (hslave : p.slave.served = 0) {j : Fin 8}
    (hpending : (p.driven glitch).pending = some cascade) (hj : p.slave.pending = some j) {k : Fin 16}
    (hk : p.Deliverable k) : rank (high j) ≤ rank k := by
  obtain ⟨i, rfl⟩ | ⟨j', rfl⟩ := low_or_high k
  · have hlt : 2 < i.val := cascade_lt hmaster hpending hk
    rw [rank_low, rank_high, if_neg (Nat.not_lt.mpr hlt.le)]
    omega
  · obtain ⟨-, hfirst⟩ := (Chip.pending_eq_some hslave).mp hj
    have hle : j ≤ j' := not_lt.mp fun hlt => hfirst j' hlt (deliverable_high.mp hk).1
    rw [rank_high, rank_high]
    exact Nat.add_le_add_right hle 2

/-- With no interrupt in service the processor is given the line that comes first among those that are let
through, or, when a request went away in between, line 7 of one of the controllers. That of the slave, on a
glitch of its output, comes before the lines of the master behind the cascade. -/
theorem acknowledge_cases (hconf : p.Configured m s) (hmaster : p.master.served = 0) (hslave : p.slave.served = 0)
    (glitch : Bool) :
    (∃ n, (p.acknowledge glitch).1 = some (number m s n) ∧ p.Deliverable n ∧
      (∀ k, p.Deliverable k → rank n ≤ rank k) ∧ p.Delivers (p.acknowledge glitch).2 n) ∨
    (∃ n, (n = 7 ∨ n = 15 ∧ glitch = true ∧ p.masked 2 = false) ∧
      (p.acknowledge glitch).1 = some (number m s n) ∧ p.Spurious (p.acknowledge glitch).2 ∧
      (∀ k, p.Deliverable k → n = 15 ∧ 2 < k.val ∧ k.val < 8)) := by
  cases hpending : (p.driven glitch).pending with
  | none =>
    have hclosed := (Chip.pending_eq_none (c := p.driven glitch) hmaster).mp hpending
    rw [acknowledge_none hconf hpending]
    refine .inr ⟨7, .inl rfl, rfl, ⟨fun _ _ => rfl, ⟨rfl, rfl⟩, .inl hmaster, hslave⟩, fun k hk => ?_⟩
    exfalso
    obtain ⟨i, rfl⟩ | ⟨j, rfl⟩ := low_or_high k
    · have hne : i ≠ cascade := by
        rintro rfl
        exact hk.1 rfl
      exact hclosed i ((driven_open_of_ne hne).mpr ((deliverable_low hne).mp hk))
    · obtain ⟨hopen, hmask⟩ := deliverable_high.mp hk
      refine hclosed cascade (driven_open_cascade.mpr ⟨.inl (Option.isSome_iff_ne_none.mpr fun hnone => ?_), hmask⟩)
      exact (Chip.pending_eq_none hslave).mp hnone j hopen
  | some i =>
    obtain ⟨hopen, -⟩ := (Chip.pending_eq_some (c := p.driven glitch) hmaster).mp hpending
    by_cases hi : i = cascade
    · subst hi
      obtain ⟨hdrive, hmask⟩ := driven_open_cascade.mp hopen
      rw [acknowledge_high hconf hpending]
      cases hj : p.slave.pending with
      | none =>
        have hglitch : glitch = true := hdrive.resolve_left (by rw [hj]; exact Bool.false_ne_true)
        refine .inr ⟨15, .inr ⟨rfl, hglitch, hmask⟩, rfl, spurious_high hconf hmaster hslave, fun k hk => ⟨rfl, ?_⟩⟩
        obtain ⟨i, rfl⟩ | ⟨j, rfl⟩ := low_or_high k
        · exact ⟨cascade_lt hmaster hpending hk, i.isLt⟩
        · exact absurd (deliverable_high.mp hk).1 ((Chip.pending_eq_none hslave).mp hj j)
      | some j =>
        obtain ⟨hfirst, -⟩ := (Chip.pending_eq_some hslave).mp hj
        exact .inl ⟨high j, rfl, deliverable_high.mpr ⟨hfirst, hmask⟩,
          fun _ hk => rank_high_le hmaster hslave hpending hj hk, delivers_high hconf hmaster hslave j⟩
    · rw [acknowledge_low hconf hi hpending]
      exact .inl ⟨low i, rfl, (deliverable_low hi).mpr ((driven_open_of_ne hi).mp hopen),
        fun _ hk => rank_low_le hmaster hslave hi hpending hk, delivers_low hconf hmaster hslave i⟩

section Before

variable {p' : Pair} {n : Fin 16}

/-- The requests that come before a line -/
def before (p : Pair) (n : Fin 16) : Finset (Fin 16) := Finset.univ.filter fun k => p.Deliverable k ∧ rank k < rank n

theorem deliverable_congr (hmasked : p'.masked = p.masked) {k : Fin 16}
    (hrequested : k ≠ 2 → p'.requested k = p.requested k) : p'.Deliverable k ↔ p.Deliverable k := by
  unfold Deliverable
  rw [hmasked]
  exact and_congr_right fun hk => by rw [hrequested hk]

theorem mem_before {k : Fin 16} : k ∈ p.before n ↔ p.Deliverable k ∧ rank k < rank n := by
  rw [before, Finset.mem_filter, and_iff_right (Finset.mem_univ k)]

theorem before_subset (h : ∀ k, rank k < rank n → p'.Deliverable k → p.Deliverable k) : p'.before n ⊆ p.before n :=
  fun k hk => by
    obtain ⟨hopen, hlt⟩ := mem_before.mp hk
    exact mem_before.mpr ⟨h k hlt hopen, hlt⟩

end Before

end Pair

theorem rank_injective : Function.Injective rank := by decide

end Pic
