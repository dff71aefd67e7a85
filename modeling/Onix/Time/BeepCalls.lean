import Onix.Time.Beep

namespace onix.Beep

/-- Where a thread is in `start_beep`, which keeps neither the clock interrupt nor other threads out. -/
inductive Pc where
  | out
  | silent
  | read (al : u8)
  | on
  | sum (value : u32)

/-- The next access of `start_beep` to the variables or to the port -/
def access (status : u8) : Pc → Beeper → Pc × Beeper
  | .out, b => (if b.beeping = 0 then .silent else .on, b)
  | .silent, b => (.read (b.inb status), b)
  | .read al, b => (.on, b.outb (al ||| 0b11))
  | .on, b => (.sum (b.jiffies + 5), b)
  | .sum value, b => (.out, { b with beeping := value })

/-- How many accesses a call has left at most -/
def Pc.left : Pc → ℕ
  | .out => 0
  | .silent => 4
  | .read _ => 3
  | .on => 2
  | .sum _ => 1

structure System (ι : Type) where
  beeper : Beeper
  pc : ι → Pc

/-- A thread does its next access, or the clock interrupt comes. -/
inductive Act (ι : Type) where
  | thread (i : ι) (status : u8)
  | clock (status : u8)

/-- How many clock interrupts there are -/
def ticks {ι : Type} : List (Act ι) → ℕ
  | [] => 0
  | .thread _ _ :: acts => ticks acts
  | .clock _ :: acts => ticks acts + 1

variable {ι : Type} [DecidableEq ι]

namespace System

def step (s : System ι) : Act ι → System ι
  | .thread i status =>
    let (pc, beeper) := access status (s.pc i) s.beeper
    { beeper, pc := Function.update s.pc i pc }
  | .clock status => { s with beeper := s.beeper.tick status }

def steps (s : System ι) (acts : List (Act ι)) : System ι := acts.foldl step s

/-- A thread has the speaker on, and has yet to time it. -/
def Timing (s : System ι) (i : ι) : Prop := s.pc i = .on ∨ ∃ value, s.pc i = .sum value

/-- The tick that comes next ends the beep. -/
def Ends (s : System ι) : Prop := s.beeper.beeping ≠ 0 ∧ s.beeper.jiffies > s.beeper.beeping

theorem step_pc_self (s : System ι) (i : ι) (status : u8) :
    (s.step (.thread i status)).pc i = (access status (s.pc i) s.beeper).1 := Function.update_self _ _ _

theorem step_pc_of_ne (s : System ι) {i j : ι} (h : j ≠ i) (status : u8) :
    (s.step (.thread i status)).pc j = s.pc j := Function.update_of_ne h _ _

theorem Timing.of_ne {s : System ι} {i j : ι} (h : s.Timing j) (hne : j ≠ i) (status : u8) :
    (s.step (.thread i status)).Timing j := by
  unfold Timing
  rw [step_pc_of_ne s hne]
  exact h

/-- An access begins a call, or brings it nearer to its end. -/
theorem step_begins (s : System ι) {i : ι} (hout : s.pc i = .out) (status : u8) :
    (s.step (.thread i status)).pc i ≠ .out := by
  rw [step_pc_self, hout]
  change (if s.beeper.beeping = 0 then Pc.silent else Pc.on) ≠ .out
  split_ifs <;> exact Pc.noConfusion

theorem step_left_lt (s : System ι) {i : ι} (hcall : s.pc i ≠ .out) (status : u8) :
    ((s.step (.thread i status)).pc i).left < (s.pc i).left := by
  rw [step_pc_self]
  cases hpc : s.pc i with
  | out => exact absurd hpc hcall
  | _ => exact Nat.lt_succ_self _

/-- A call comes to its end where it stores the sum. -/
theorem step_ends (s : System ι) {i : ι} {status : u8} (hcall : s.pc i ≠ .out)
    (hout : (s.step (.thread i status)).pc i = .out) : ∃ value, s.pc i = .sum value := by
  rw [step_pc_self] at hout
  cases hpc : s.pc i with
  | out => exact absurd hpc hcall
  | sum value => exact ⟨value, rfl⟩
  | _ => rw [hpc] at hout; cases hout

/-- A thread that is not interrupted does what `start_beep` does. -/
theorem steps_start_beep (s : System ι) {i : ι} (hout : s.pc i = .out) (status : u8) : ∃ turns,
    s.steps (List.replicate turns (.thread i status)) = { s with beeper := s.beeper.start_beep status } := by
  by_cases hsilent : s.beeper.beeping = 0
  · refine ⟨5, ?_⟩
    simp [steps, step, access, hout, hsilent, Beeper.start_beep, Beeper.outb]
  · refine ⟨3, ?_⟩
    simp [steps, step, access, hout, hsilent, Beeper.start_beep]

/-- What holds of the states within so many ticks of the start -/
structure Reached (s : System ι) (clocks : ℕ) : Prop where
  jiffies_eq : s.beeper.jiffies = UInt32.ofNat clocks
  sum_eq : ∀ i value, s.pc i = .sum value → ∃ t ≤ clocks, value = UInt32.ofNat (t + 5)
  beeping_eq : s.beeper.beeping = 0 ∨ ∃ t ≤ clocks, s.beeper.beeping = UInt32.ofNat (t + 5)
  timed : s.beeper.Sounds → s.beeper.beeping ≠ 0 ∨ ∃ i, s.Timing i

section Reached

variable {s : System ι} {clocks : ℕ}

/-- A sum that is stored times the beep. -/
theorem sum_ne_zero {t : ℕ} (ht : t + 6 < 2 ^ 32) : UInt32.ofNat (t + 5) ≠ 0 := by
  have hlt : t + 5 < 2 ^ 32 := by omega
  rw [Ne, ← UInt32.toNat_inj, UInt32.toNat_ofNat_of_lt' hlt, UInt32.toNat_zero]
  omega

/-- An access that changes no variable, and takes no thread out of those that have the speaker on -/
theorem Reached.quiet (h : s.Reached clocks) {i : ι} {status : u8}
    (hbeeper : (s.step (.thread i status)).beeper = s.beeper)
    (hsum : ∀ value, (s.step (.thread i status)).pc i = .sum value → ∃ t ≤ clocks, value = UInt32.ofNat (t + 5))
    (hkeep : s.Timing i → (s.step (.thread i status)).Timing i) : (s.step (.thread i status)).Reached clocks where
  jiffies_eq := by
    rw [hbeeper]
    exact h.jiffies_eq
  sum_eq j value hj := by
    by_cases hsame : j = i
    · subst hsame
      exact hsum value hj
    · rw [step_pc_of_ne s hsame] at hj
      exact h.sum_eq j value hj
  beeping_eq := by
    rw [hbeeper]
    exact h.beeping_eq
  timed hsounds := by
    rw [hbeeper] at hsounds ⊢
    rcases h.timed hsounds with hbeeping | ⟨j, hj⟩
    · exact Or.inl hbeeping
    · refine Or.inr ⟨j, ?_⟩
      by_cases hsame : j = i
      · subst hsame
        exact hkeep hj
      · exact hj.of_ne hsame status

theorem Reached.access (h : s.Reached clocks) (i : ι) (status : u8) (hclocks : clocks + 6 < 2 ^ 32) :
    (s.step (.thread i status)).Reached clocks := by
  have hself := step_pc_self s i status
  have hbeeper : (s.step (.thread i status)).beeper = (Beep.access status (s.pc i) s.beeper).2 := rfl
  cases hpc : s.pc i with
  | out =>
    rw [hpc] at hself hbeeper
    refine h.quiet hbeeper ?_ ?_
    · intro value hvalue
      rw [hself] at hvalue
      change (if s.beeper.beeping = 0 then Pc.silent else Pc.on) = Pc.sum value at hvalue
      split_ifs at hvalue
    · rintro (hon | ⟨value, hsum⟩)
      · rw [hpc] at hon
        cases hon
      · rw [hpc] at hsum
        cases hsum
  | silent =>
    rw [hpc] at hself hbeeper
    refine h.quiet hbeeper ?_ ?_
    · intro value hvalue
      rw [hself] at hvalue
      cases hvalue
    · rintro (hon | ⟨value, hsum⟩)
      · rw [hpc] at hon
        cases hon
      · rw [hpc] at hsum
        cases hsum
  | read al =>
    rw [hpc] at hself hbeeper
    have hjiffies : (s.step (.thread i status)).beeper.jiffies = s.beeper.jiffies := by rw [hbeeper]; rfl
    have hbeeping : (s.step (.thread i status)).beeper.beeping = s.beeper.beeping := by rw [hbeeper]; rfl
    refine ⟨hjiffies.trans h.jiffies_eq, ?_, ?_, fun _ => Or.inr ⟨i, Or.inl hself⟩⟩
    · intro j value hj
      by_cases hsame : j = i
      · rw [hsame, hself] at hj
        cases hj
      · rw [step_pc_of_ne s hsame] at hj
        exact h.sum_eq j value hj
    · rw [hbeeping]
      exact h.beeping_eq
  | on =>
    rw [hpc] at hself hbeeper
    refine h.quiet hbeeper ?_ fun _ => Or.inr ⟨_, hself⟩
    intro value hvalue
    rw [hself] at hvalue
    refine ⟨clocks, le_rfl, ?_⟩
    rw [← Pc.sum.inj hvalue, h.jiffies_eq, UInt32.ofNat_add]
    rfl
  | sum value =>
    obtain ⟨t, ht, hvalue⟩ := h.sum_eq i value hpc
    rw [hpc] at hself hbeeper
    have hjiffies : (s.step (.thread i status)).beeper.jiffies = s.beeper.jiffies := by rw [hbeeper]; rfl
    have hbeeping : (s.step (.thread i status)).beeper.beeping = UInt32.ofNat (t + 5) := by
      rw [hbeeper, ← hvalue]
      rfl
    refine ⟨hjiffies.trans h.jiffies_eq, ?_, Or.inr ⟨t, ht, hbeeping⟩, fun _ => Or.inl ?_⟩
    · intro j value' hj
      by_cases hsame : j = i
      · rw [hsame, hself] at hj
        cases hj
      · rw [step_pc_of_ne s hsame] at hj
        exact h.sum_eq j value' hj
    · rw [hbeeping]
      exact sum_ne_zero (by omega)

theorem Reached.clock (h : s.Reached clocks) (status : u8) : (s.step (.clock status)).Reached (clocks + 1) := by
  have hjiffies : (s.step (.clock status)).beeper.jiffies = UInt32.ofNat (clocks + 1) := by
    change (s.beeper.tick status).jiffies = _
    rw [Beeper.tick_jiffies, h.jiffies_eq, UInt32.ofNat_add]
    rfl
  have hsum : ∀ i value, (s.step (.clock status)).pc i = .sum value → ∃ t ≤ clocks + 1, value = UInt32.ofNat (t + 5) := by
    intro i value hi
    obtain ⟨t, ht, hvalue⟩ := h.sum_eq i value hi
    exact ⟨t, ht.trans (Nat.le_succ _), hvalue⟩
  by_cases hends : s.Ends
  · obtain ⟨hbeeping, hsilent⟩ := Beeper.tick_stops status hends
    exact ⟨hjiffies, hsum, Or.inl hbeeping, fun hsounds => absurd hsounds hsilent⟩
  · obtain ⟨hbeeping, hsounds⟩ := Beeper.tick_keeps status hends
    refine ⟨hjiffies, hsum, ?_, ?_⟩
    · rcases h.beeping_eq with hzero | ⟨t, ht, hvalue⟩
      · exact Or.inl (hbeeping.trans hzero)
      · exact Or.inr ⟨t, ht.trans (Nat.le_succ _), hbeeping.trans hvalue⟩
    · intro hon
      exact (h.timed (hsounds.mp hon)).imp_left hbeeping.trans_ne

theorem Reached.steps {acts : List (Act ι)} (h : s.Reached clocks) (hclocks : clocks + ticks acts + 6 < 2 ^ 32) :
    (s.steps acts).Reached (clocks + ticks acts) := by
  induction acts generalizing s clocks with
  | nil => exact h
  | cons a acts ih =>
    cases a with
    | thread i status => exact ih (h.access i status (by change clocks + ticks acts + 6 < 2 ^ 32 at hclocks; omega)) hclocks
    | clock status =>
      have hcount : clocks + ticks (Act.clock status :: acts) = clocks + 1 + ticks acts := by
        change clocks + (ticks acts + 1) = _
        omega
      rw [hcount] at hclocks ⊢
      exact ih (h.clock status) hclocks

end Reached

section Silence

variable {s : System ι}

/-- So many ticks are enough to end the beep. -/
def EndsWithin (s : System ι) (left : ℕ) : Prop :=
  s.beeper.beeping = 0 ∧ ¬ s.beeper.Sounds ∨
    0 < left ∧ ∃ t clocks, clocks + left < 2 ^ 32 ∧ t + 7 ≤ clocks + left ∧ s.beeper.beeping = UInt32.ofNat (t + 5) ∧
      s.beeper.jiffies = UInt32.ofNat clocks

theorem EndsWithin.clock {left : ℕ} (h : s.EndsWithin (left + 1)) (status : u8) :
    (s.step (.clock status)).EndsWithin left := by
  rcases h with ⟨hbeeping, hsilent⟩ | ⟨-, t, clocks, hsize, hlate, hbeeping, hjiffies⟩
  · obtain ⟨hsame, hsounds⟩ := Beeper.tick_keeps (b := s.beeper) status fun hends => hends.1 hbeeping
    exact Or.inl ⟨hsame.trans hbeeping, mt hsounds.mp hsilent⟩
  · by_cases hends : s.Ends
    · exact Or.inl (Beeper.tick_stops status hends)
    · obtain ⟨hsame, -⟩ := Beeper.tick_keeps status hends
      have hsum : t + 5 < 2 ^ 32 := by omega
      have hclocks : clocks < 2 ^ 32 := by omega
      have hearly : clocks ≤ t + 5 := by
        by_contra hpast
        apply hends
        refine ⟨?_, ?_⟩
        · rw [hbeeping]
          exact sum_ne_zero (by omega)
        · rw [gt_iff_lt, UInt32.lt_iff_toNat_lt, hbeeping, hjiffies, UInt32.toNat_ofNat_of_lt' hsum,
            UInt32.toNat_ofNat_of_lt' hclocks]
          omega
      refine Or.inr ⟨by omega, t, clocks + 1, by omega, by omega, hsame.trans hbeeping, ?_⟩
      change (s.beeper.tick status).jiffies = _
      rw [Beeper.tick_jiffies, hjiffies, UInt32.ofNat_add]
      rfl

theorem EndsWithin.clocks {statuses : List u8} {left : ℕ} (h : s.EndsWithin (left + statuses.length)) :
    (s.steps (statuses.map .clock)).EndsWithin left := by
  induction statuses generalizing s with
  | nil => exact h
  | cons status statuses ih => exact ih (EndsWithin.clock h status)

/-- Where no thread is about to time the beep, seven ticks end it. -/
theorem Reached.silent {clocks : ℕ} (h : s.Reached clocks) (hout : ∀ i, ¬ s.Timing i) {statuses : List u8}
    (hseven : 7 ≤ statuses.length) (hsize : clocks + statuses.length < 2 ^ 32) :
    ¬ (s.steps (statuses.map .clock)).beeper.Sounds := by
  have hends : s.EndsWithin (0 + statuses.length) := by
    rcases h.beeping_eq with hzero | ⟨t, ht, hbeeping⟩
    · refine Or.inl ⟨hzero, fun hsounds => ?_⟩
      rcases h.timed hsounds with hne | ⟨i, hi⟩
      · exact hne hzero
      · exact hout i hi
    · exact Or.inr ⟨by omega, t, clocks, by omega, by omega, hbeeping, h.jiffies_eq⟩
  rcases hends.clocks with ⟨-, hsilent⟩ | ⟨hpos, -⟩
  · exact hsilent
  · exact absurd hpos (Nat.lt_irrefl 0)

end Silence

section Heard

/-- No tick ends the beep between the access of a call that finds it going on and the one that times it. -/
def Undisturbed (s : System ι) : List (Act ι) → Prop
  | [] => True
  | .thread i status :: acts => (s.step (.thread i status)).Undisturbed acts
  | .clock status :: acts => (s.Ends → ∀ i, ¬ s.Timing i) ∧ (s.step (.clock status)).Undisturbed acts

/-- The speaker is on while the beep is timed, or about to be. -/
def Audible (s : System ι) : Prop := (s.beeper.beeping ≠ 0 ∨ ∃ i, s.Timing i) → s.beeper.Sounds

variable {s : System ι}

theorem on_sounds (al : u8) (b : Beeper) : (b.outb (al ||| 0b11)).Sounds := by
  apply Beeper.byte_ext
  intro i hi
  simp only [Beeper.outb, UInt8.toBitVec_and, UInt8.toBitVec_or, BitVec.getLsbD_and, BitVec.getLsbD_or, Beeper.masks i hi]
  grind

theorem Audible.access (h : s.Audible) (i : ι) (status : u8) : (s.step (.thread i status)).Audible := by
  have hself := step_pc_self s i status
  have hbeeper : (s.step (.thread i status)).beeper = (Beep.access status (s.pc i) s.beeper).2 := rfl
  have hother : ∀ {j}, (s.step (.thread i status)).Timing j → j ≠ i → s.beeper.Sounds := by
    intro j hj hne
    unfold Timing at hj
    rw [step_pc_of_ne s hne] at hj
    exact h (Or.inr ⟨j, hj⟩)
  unfold Audible
  rcases hpc : s.pc i with _ | _ | al | _ | value
  all_goals rw [hpc] at hself hbeeper
  · rw [hbeeper]
    rintro (hbeeping | ⟨j, hj⟩)
    · exact h (Or.inl hbeeping)
    · by_cases hsame : j = i
      · subst hsame
        -- the call has found the beep timed
        by_cases hsilent : s.beeper.beeping = 0
        · unfold Timing at hj
          rw [hself, show (Beep.access status .out s.beeper).1 = .silent from if_pos hsilent] at hj
          rcases hj with hj | ⟨value, hj⟩ <;> cases hj
        · exact h (Or.inl hsilent)
      · exact hother hj hsame
  · rw [hbeeper]
    rintro (hbeeping | ⟨j, hj⟩)
    · exact h (Or.inl hbeeping)
    · by_cases hsame : j = i
      · subst hsame
        unfold Timing at hj
        rw [hself] at hj
        rcases hj with hj | ⟨value, hj⟩ <;> cases hj
      · exact hother hj hsame
  · rw [hbeeper]
    exact fun _ => on_sounds al s.beeper
  · rw [hbeeper]
    exact fun _ => h (Or.inr ⟨i, Or.inl hpc⟩)
  · rw [hbeeper]
    exact fun _ => h (Or.inr ⟨i, Or.inr ⟨value, hpc⟩⟩)

theorem Audible.steps {acts : List (Act ι)} (h : s.Audible) (hacts : s.Undisturbed acts) : (s.steps acts).Audible := by
  induction acts generalizing s with
  | nil => exact h
  | cons a acts ih =>
    cases a with
    | thread i status => exact ih (h.access i status) hacts
    | clock status =>
      refine ih ?_ hacts.2
      rintro (hbeeping | ⟨i, hi⟩)
      · by_cases hends : s.Ends
        · exact absurd (Beeper.tick_stops status hends).1 hbeeping
        · obtain ⟨hsame, hsounds⟩ := Beeper.tick_keeps status hends
          exact hsounds.mpr (h (Or.inl fun hzero => hbeeping (hsame.trans hzero)))
      · have hends : ¬ s.Ends := fun hends => hacts.1 hends i hi
        exact (Beeper.tick_keeps status hends).2.mpr (h (Or.inr ⟨i, hi⟩))

end Heard

/-- The kernel has started, and `start_beep` has not been called. -/
def boot (port : u8) : System ι := ⟨⟨0, 0, port⟩, fun _ => .out⟩

omit [DecidableEq ι] in
theorem reached_boot {port : u8} (hport : port &&& 0b11 ≠ 0b11) : (boot port : System ι).Reached 0 where
  jiffies_eq := rfl
  sum_eq i value h := by cases h
  beeping_eq := Or.inl rfl
  timed hsounds := absurd hsounds hport

omit [DecidableEq ι] in
theorem audible_boot (port : u8) : (boot port : System ι).Audible := by
  rintro (hbeeping | ⟨j, hj | ⟨value, hj⟩⟩)
  · exact absurd rfl hbeeping
  · cases hj
  · cases hj

/-- However calls of `start_beep` and clock interrupts interleave, from a speaker that is silent at boot and
until `jiffies` goes around. A speaker that is on is timed or about to be, and seven ticks silence it where no
call is about to time it. A thread that is out of `start_beep` can call it, which does what it does undivided
if nothing comes between; every access brings a call nearer to its end; and it ends with the speaker on and
the beep timed, unless a tick has ended the beep while a call was to prolong it. -/
theorem beeps_interleaved {port : u8} (hport : port &&& 0b11 ≠ 0b11) {acts : List (Act ι)} {s : System ι}
    (hs : (boot port).steps acts = s) (hclocks : ticks acts + 6 < 2 ^ 32) :
    (s.beeper.Sounds → s.beeper.beeping ≠ 0 ∨ ∃ i, s.Timing i) ∧
    ((∀ i, ¬ s.Timing i) → ∀ statuses : List u8, 7 ≤ statuses.length → ticks acts + statuses.length < 2 ^ 32 →
      ¬ (s.steps (statuses.map .clock)).beeper.Sounds) ∧
    (∀ i status, s.pc i = .out → (s.step (.thread i status)).pc i ≠ .out ∧ ∃ turns,
      s.steps (List.replicate turns (.thread i status)) = { s with beeper := s.beeper.start_beep status }) ∧
    (∀ i status, s.pc i ≠ .out → ((s.step (.thread i status)).pc i).left < (s.pc i).left ∧
      ((s.step (.thread i status)).pc i = .out → (boot port : System ι).Undisturbed acts →
        (s.step (.thread i status)).beeper.Sounds ∧ (s.step (.thread i status)).beeper.beeping ≠ 0)) := by
  have hreached : s.Reached (ticks acts) := by
    rw [← hs, ← Nat.zero_add (ticks acts)]
    exact (reached_boot hport).steps (by omega)
  refine ⟨hreached.timed, fun hout statuses => hreached.silent hout,
    fun i status hout => ⟨s.step_begins hout status, s.steps_start_beep hout status⟩,
    fun i status hcall => ⟨s.step_left_lt hcall status, fun hend hacts => ?_⟩⟩
  obtain ⟨value, hpc⟩ := s.step_ends hcall hend
  have hbeeper : (s.step (.thread i status)).beeper = { s.beeper with beeping := value } := by
    change (Beep.access status (s.pc i) s.beeper).2 = _
    rw [hpc]
    rfl
  rw [hbeeper]
  constructor
  · have haudible := (audible_boot port).steps hacts
    rw [hs] at haudible
    exact haudible (Or.inr ⟨i, Or.inr ⟨value, hpc⟩⟩)
  · obtain ⟨t, ht, hvalue⟩ := hreached.sum_eq i value hpc
    change value ≠ 0
    rw [hvalue]
    exact sum_ne_zero (by omega)

/-- A call that the clock interrupts between the port and the variable ends with the speaker on, and seven ticks
behind it silence the speaker. -/
theorem beeps_interleaved_call :
    (((boot 0 : System Unit).steps [.thread () 0, .thread () 0, .thread () 0, .clock 0, .thread () 0]).step
      (.thread () 0)).beeper.Sounds ∧
    ¬ (((boot 0 : System Unit).steps [.thread () 0, .thread () 0, .thread () 0, .clock 0, .thread () 0,
      .thread () 0]).steps ((List.replicate 7 0).map .clock)).beeper.Sounds := by
  have hport : (0 : u8) &&& 0b11 ≠ 0b11 := by decide
  constructor
  · refine (((beeps_interleaved hport rfl (by decide)).2.2.2 () 0 Pc.noConfusion).2 rfl ?_).1
    exact ⟨fun hends => absurd rfl hends.1, trivial⟩
  · apply (beeps_interleaved hport rfl (by decide)).2.1
    · rintro i (hi | ⟨value, hi⟩) <;> cases hi
    · decide
    · decide

end System

end onix.Beep
