import Onix.Interrupt.Exact

namespace onix.Interrupt

open Pic

variable {image : Image} {s s' : Interrupts} {n : Fin 16}

section Unmasked

/-- The lines that the kernel lets through at some time -/
def Happens.Enables (lines : Finset (Fin 16)) (e : Happens) : Prop :=
  ∀ irq, e = .set_interrupt_mask irq true → irq ∈ lines

/-- A handler that a number leads to -/
def Handles (handler : handler_t) (n : Fin 16) : Prop :=
  handler = .default_handler ∨ ∃ driver : Driver, driver.line = n ∧ handler = driver.handler

/-- A call is one of a line that is let through, or one that a controller gives on its own. -/
structure Within (lines : Finset (Fin 16)) (s : Interrupts) : Prop where
  masked : ∀ n, n ∉ lines → s.pics.masked n = true
  called : ∀ call ∈ s.called, ∃ n, call.2 = vector n ∧ Handles call.1 n ∧
    (n ∈ lines ∧ (8 ≤ n.val → 2 ∈ lines) ∨ n = 7 ∨ n = 15 ∧ 2 ∈ lines)

variable {lines : Finset (Fin 16)}

theorem Within.congr (h : Within lines s) (hmasked : ∀ n, n ∉ lines → s.pics.masked n = true → s'.pics.masked n = true)
    (hcalled : s'.called = s.called) : Within lines s' where
  masked n hn := hmasked n hn (h.masked n hn)
  called call hcall := h.called call (hcalled ▸ hcall)

theorem Within.mem (h : Within lines s) (hn : s.pics.masked n = false) : n ∈ lines := by
  by_contra hout
  exact absurd (hn.symm.trans (h.masked n hout)) Bool.noConfusion

/-- The masks, after an interrupt, are those before it. -/
theorem Within.taking (h : Within lines s) (hserving : Serving image s) {glitch : Bool}
    (hmasked : (s.pics.acknowledge glitch).2.masked = s.pics.masked)
    (hn : n ∈ lines ∧ (8 ≤ n.val → 2 ∈ lines) ∨ n = 7 ∨ n = 15 ∧ 2 ∈ lines) : Within lines (s.taking glitch n) where
  masked k hk := (congrFun hmasked k).trans (h.masked k hk)
  called call hcall := by
    obtain rfl | hcall := List.mem_cons.mp hcall
    · exact ⟨n, rfl, hserving.tables.handlers n, hn⟩
    · exact h.called call hcall

theorem Within.takes (h : Within lines s) (hserving : Serving image s) {glitch : Bool} (htakes : Takes s s' glitch) :
    Within lines s' := by
  cases htakes with
  | device n hopen _ htaken _ =>
    subst htaken
    refine h.taking hserving (Pair.acknowledge_masked s.pics glitch)
      (.inl ⟨h.mem (Bool.not_eq_true _ ▸ hopen.2.2.1), fun hn => ?_⟩)
    exact h.mem (Bool.not_eq_true _ ▸ hopen.2.2.2 hn)
  | nothing n hn _ htaken _ =>
    subst htaken
    refine h.taking hserving (Pair.acknowledge_masked s.pics glitch) (.inr ?_)
    exact hn.imp_right fun ⟨h15, _, hmask⟩ => ⟨h15, h.mem hmask⟩

/-- A mask is taken away from the lines that the kernel lets through, and from no other. -/
theorem Within.set_interrupt_mask (h : Within lines s) (hserving : Serving image s) {irq : Fin 16} {enable : Bool}
    (hirq : Happens.Enables lines (.set_interrupt_mask irq enable))
    (hstep : s.step image (.set_interrupt_mask irq enable) = some s') : Within lines s' := by
  obtain ⟨pics, heq, hmasks⟩ := set_interrupt_mask_masks hserving.configured irq enable
  rw [Interrupts.step, heq] at hstep
  cases hstep
  refine h.congr (fun n hn hmask => ?_) rfl
  have hmasked := hmasks.masked n
  cases enable with
  | false =>
    split_ifs at hmasked
    · exact hmasked
    · exact hmasked.trans hmask
  | true =>
    have hne : n ≠ irq := fun heq => hn (heq ▸ hirq irq rfl)
    exact hmasked.trans ((if_neg hne).trans hmask)

theorem Within.step (h : Within lines s) (hserving : Serving image s) {e : Happens} (henables : e.Enables lines)
    (hpossible : e.Possible s) (hstep : s.step image e = some s') : Within lines s' := by
  cases e with
  | asks k =>
    obtain ⟨m, v, hframe⟩ := Pair.raise_frame (p := s.pics) k
    cases hstep
    refine h.congr (fun n _ hmask => ?_) rfl
    have hmasked : (s.pics.raise k).masked = s.pics.masked := by
      rw [hframe]
      rfl
    exact (congrFun hmasked n).trans hmask
  | interrupt glitch =>
    obtain ⟨s₁, hstep', -, htakes⟩ := hserving.interrupt hpossible glitch
    cases hstep.symm.trans hstep'
    exact h.takes hserving htakes
  | write =>
    obtain ⟨port, rest, heq, hport, -⟩ := hserving.owes.write hpossible
    obtain ⟨m, v, hframe⟩ := outb_eoi_frame hport s.pics
    rw [Interrupts.step, Interrupts.write, heq] at hstep
    cases hstep
    refine h.congr (fun n _ hmask => ?_) rfl
    have hmasked : (Pics.outb port PIC_EOI s.pics).masked = s.pics.masked := by
      rw [hframe]
      rfl
    exact (congrFun hmasked n).trans hmask
  | set_interrupt_state state =>
    cases hstep
    exact h.congr (fun _ _ hmask => hmask) rfl
  | set_interrupt_handler driver =>
    obtain ⟨s₁, hstep', -, hframe⟩ := hserving.tables.set_interrupt_handler driver
    cases hstep.symm.trans hstep'
    refine h.congr (fun n _ hmask => ?_) ?_
    · rw [hframe]
      exact hmask
    · rw [hframe]
  | set_interrupt_mask irq enable => exact h.set_interrupt_mask hserving henables hstep

/-- No line is let through when the controllers have been set up, and no handler has been called. -/
theorem Within.init (hstarts : s.Starts image) : Within lines s := by
  obtain ⟨s₀, -, -, -, hcalled, rfl⟩ := hstarts
  have hpics : (interrupt_init image s₀).pics = pic_init s₀.pics := rfl
  have hnone : (interrupt_init image s₀).called = [] := hcalled
  refine ⟨fun n _ => ?_, fun call hcall => ?_⟩
  · rw [hpics, pic_init_eq]
    fin_cases n <;> rfl
  · rw [hnone] at hcall
    exact absurd hcall List.not_mem_nil

/-- A handler is only called with the number of a line that the kernel has let through, or with one that a
controller gives on its own, and each number with a handler that is set for it. -/
theorem interrupts_within (image : Image) (lines : Finset (Fin 16)) {s : Interrupts}
    (hreach : s.Reachable image (Happens.Enables lines)) : Within lines s := by
  induction hreach with
  | init hstarts => exact .init hstarts
  | step hreach hnext ih =>
    obtain ⟨e, henables, hpossible, hstep⟩ := hnext
    exact ih.step (Serving.reachable hreach) henables hpossible hstep

/-- The kernel as it is, where only the clock is let through -/
theorem interrupts_within_clock : ∃ s, s.Reachable linked (Happens.Enables {0}) ∧
    s.called = [(.clock_handler, 0x20)] ∧ Within {0} s := by
  obtain ⟨s, hrun, hcalled⟩ := one_tick_run
  have henables : ∀ e ∈ one_tick 0, Happens.Enables {0} e := fun e he irq heq => by
    subst heq
    rw [Finset.mem_singleton]
    simpa [one_tick] using he
  have hreach := Interrupts.Reachable.run (.init loaded_starts) henables hrun
  exact ⟨s, hreach, hcalled, interrupts_within linked {0} hreach⟩

end Unmasked

section Waits

/-- Events that do not come before a line: no device of a line before it asks, no mask changes, and, for the
lines 3 to 7, the output of the slave is not on without a request. -/
def Happens.Behind (n : Fin 16) : Happens → Prop
  | asks k => rank n ≤ rank k
  | interrupt glitch => glitch = true → ¬ (2 < n.val ∧ n.val < 8)
  | write | set_interrupt_state _ | set_interrupt_handler _ => True
  | set_interrupt_mask _ _ => False

def Happens.Interrupts : Happens → Bool
  | interrupt _ => true
  | _ => false

/-- The line waits on, and what comes before it has become less by the interrupts; or its handler has been called. -/
def Waits (n : Fin 16) (interrupts : ℕ) (s s' : Interrupts) : Prop :=
  s.calls n < s'.calls n ∨
    s'.pics.Deliverable n ∧ s'.calls n = s.calls n ∧ interrupts + (s'.pics.before n).card ≤ (s.pics.before n).card

/-- The controllers let through what they did, of the lines that come before, and the line itself. -/
theorem Waits.still (hopen : s.pics.Deliverable n) (hcalled : s'.called = s.called)
    (hmasked : s'.pics.masked = s.pics.masked)
    (hrequested : ∀ k, k ≠ 2 → rank k ≤ rank n → s'.pics.requested k = s.pics.requested k) : Waits n 0 s s' := by
  have hcalls : s'.calls n = s.calls n := by rw [Interrupts.calls, Interrupts.calls, hcalled]
  refine .inr ⟨(Pair.deliverable_congr hmasked fun hk => hrequested n hk le_rfl).mpr hopen, hcalls, ?_⟩
  rw [Nat.zero_add]
  exact Finset.card_le_card (Pair.before_subset fun k hlt =>
    (Pair.deliverable_congr hmasked fun hk => hrequested k hk hlt.le).mp)

/-- Another device asks, behind the line. -/
theorem Waits.asks (hopen : s.pics.Deliverable n) {k : Fin 16} (hbehind : rank n ≤ rank k)
    (hstep : s.step image (.asks k) = some s') : Waits n 0 s s' := by
  obtain ⟨m, v, hframe⟩ := Pair.raise_frame (p := s.pics) k
  cases hstep
  have hmasked : (s.pics.raise k).masked = s.pics.masked := by
    rw [hframe]
    rfl
  refine .still hopen rfl hmasked fun j _ hj => ?_
  have hraise : (s.pics.raise k).requested j = (s.pics.requested j || j = k) := Pair.raise_requested k j
  by_cases hjk : j = k
  · have heq : j = n := rank_injective (hj.antisymm (hjk ▸ hbehind))
    rw [heq] at hraise ⊢
    exact hraise.trans (by rw [hopen.2.1, Bool.true_or])
  · rw [decide_eq_false hjk, Bool.or_false] at hraise
    exact hraise

/-- An interrupt is the one that is waited for, or takes one away from what comes before. -/
theorem Waits.interrupt (hopen : s.pics.Deliverable n) {glitch : Bool}
    (hbehind : glitch = true → ¬ (2 < n.val ∧ n.val < 8)) (htakes : Takes s s' glitch) : Waits n 1 s s' := by
  cases htakes with
  | nothing k hk hclosed =>
    obtain ⟨rfl, hrange⟩ := hclosed n hopen
    obtain hseven | ⟨-, hglitch, -⟩ := hk
    · cases hseven
    · exact absurd hrange (hbehind hglitch)
  | device k hk hfirst htaken hleft =>
    subst htaken
    have hcalls : (s.taking glitch k).calls n = s.calls n + if n = k then 1 else 0 := calls_cons ..
    by_cases hnk : n = k
    · rw [if_pos hnk] at hcalls
      exact .inl (by omega)
    · rw [if_neg hnk, Nat.add_zero] at hcalls
      have hmasked : (s.taking glitch k).pics.masked = s.pics.masked := Pair.acknowledge_masked s.pics glitch
      have hsame : ∀ j, j ≠ k → ((s.taking glitch k).pics.Deliverable j ↔ s.pics.Deliverable j) := fun j hj =>
        Pair.deliverable_congr hmasked fun hj2 => by rw [hleft j hj2, decide_eq_true hj, Bool.and_true]
      have hbefore : k ∈ s.pics.before n :=
        Pair.mem_before.mpr ⟨hk, lt_of_le_of_ne (hfirst n hopen) (rank_injective.ne (Ne.symm hnk))⟩
      have hgone : ¬ (s.taking glitch k).pics.Deliverable k := fun hdel => by
        have hrequested := hdel.2.1
        rw [hleft k hk.1] at hrequested
        simp at hrequested
      have hsubset : (s.taking glitch k).pics.before n ⊆ (s.pics.before n).erase k := fun j hj => by
        obtain ⟨hdel, hlt⟩ := Pair.mem_before.mp hj
        have hjk : j ≠ k := by
          rintro rfl
          exact hgone hdel
        exact Finset.mem_erase.mpr ⟨hjk, Pair.mem_before.mpr ⟨(hsame j hjk).mp hdel, hlt⟩⟩
      refine .inr ⟨(hsame n hnk).mpr hopen, hcalls, ?_⟩
      have hcard := Finset.card_le_card hsubset
      rw [Finset.card_erase_of_mem hbefore] at hcard
      have hpos : 0 < (s.pics.before n).card := Finset.card_pos.mpr ⟨k, hbefore⟩
      omega

theorem Waits.step (hserving : Serving image s) (hopen : s.pics.Deliverable n) {e : Happens} (hbehind : e.Behind n)
    (hpossible : e.Possible s) (hstep : s.step image e = some s') :
    Waits n (if e.Interrupts then 1 else 0) s s' := by
  cases e with
  | asks k => exact .asks hopen hbehind hstep
  | interrupt glitch =>
    obtain ⟨s₁, hstep', -, htakes⟩ := hserving.interrupt hpossible glitch
    cases hstep.symm.trans hstep'
    exact .interrupt hopen hbehind htakes
  | write =>
    obtain ⟨port, rest, heq, hport, -⟩ := hserving.owes.write hpossible
    obtain ⟨m, v, hframe⟩ := outb_eoi_frame hport s.pics
    rw [Interrupts.step, Interrupts.write, heq] at hstep
    cases hstep
    refine .still hopen rfl ?_ fun k _ _ => ?_ <;> dsimp only <;> rw [hframe] <;> rfl
  | set_interrupt_state state =>
    cases hstep
    exact .still hopen rfl rfl fun _ _ _ => rfl
  | set_interrupt_handler driver =>
    obtain ⟨s₁, hstep', -, hframe⟩ := hserving.tables.set_interrupt_handler driver
    cases hstep.symm.trans hstep'
    rw [hframe]
    exact .still hopen rfl rfl fun _ _ _ => rfl
  | set_interrupt_mask => exact absurd hbehind id

/-- A call is not taken back. -/
theorem Serving.calls_le (hserving : Serving image s) {e : Happens} (hpossible : e.Possible s)
    (hstep : s.step image e = some s') : s.calls n ≤ s'.calls n := by
  cases e with
  | asks k =>
    cases hstep
    exact le_rfl
  | interrupt glitch =>
    obtain ⟨s₁, hstep', -, htakes⟩ := hserving.interrupt hpossible glitch
    cases hstep.symm.trans hstep'
    have hcalls : ∀ k, (s.taking glitch k).calls n = s.calls n + if n = k then 1 else 0 := fun k => calls_cons ..
    cases htakes with
    | device k _ _ htaken | nothing k _ _ htaken =>
      rw [htaken, hcalls]
      exact Nat.le_add_right _ _
  | write =>
    obtain ⟨port, rest, heq, -⟩ := hserving.owes.write hpossible
    rw [Interrupts.step, Interrupts.write, heq] at hstep
    cases hstep
    exact le_rfl
  | set_interrupt_state state =>
    cases hstep
    exact le_rfl
  | set_interrupt_handler driver =>
    obtain ⟨s₁, hstep', -, hframe⟩ := hserving.tables.set_interrupt_handler driver
    cases hstep.symm.trans hstep'
    rw [hframe]
    exact le_rfl
  | set_interrupt_mask irq enable =>
    obtain ⟨pics, heq, -⟩ := set_interrupt_mask_masks hserving.configured irq enable
    rw [Interrupts.step, heq] at hstep
    cases hstep
    exact le_rfl

theorem Serving.run_calls_le (hserving : Serving image s) {es : List Happens} (hrun : s.run image es = some s') :
    s.calls n ≤ s'.calls n := by
  induction es generalizing s with
  | nil =>
    cases hrun
    exact le_rfl
  | cons e es ih =>
    rw [Interrupts.run] at hrun
    split_ifs at hrun with hpossible
    obtain ⟨s₁, hstep, hrest⟩ := Option.bind_eq_some_iff.mp hrun
    obtain ⟨s₂, hstep', hserving₁⟩ := hserving.step hpossible
    cases hstep.symm.trans hstep'
    exact (hserving.calls_le hpossible hstep).trans (ih hserving₁ hrest)

theorem Waits.run (hserving : Serving image s) (hopen : s.pics.Deliverable n) {es : List Happens}
    (hbehind : ∀ e ∈ es, e.Behind n) (hrun : s.run image es = some s') :
    Waits n (es.countP Happens.Interrupts) s s' := by
  induction es generalizing s with
  | nil =>
    cases hrun
    exact .still hopen rfl rfl fun _ _ _ => rfl
  | cons e es ih =>
    rw [Interrupts.run] at hrun
    split_ifs at hrun with hpossible
    obtain ⟨s₁, hstep, hrest⟩ := Option.bind_eq_some_iff.mp hrun
    obtain ⟨s₂, hstep', hserving₁⟩ := hserving.step hpossible
    cases hstep.symm.trans hstep'
    obtain hcalled | ⟨hopen₁, hcalls, hcard⟩ := Waits.step hserving hopen (hbehind e List.mem_cons_self) hpossible hstep
    · exact .inl (hcalled.trans_le (hserving₁.run_calls_le hrest))
    · have hrests := ih hserving₁ hopen₁ (fun e he => hbehind e (List.mem_cons_of_mem _ he)) hrest
      unfold Waits at hrests ⊢
      rw [hcalls] at hrests
      rw [List.countP_cons]
      obtain hcalled | ⟨hopen', hcalls', hcard'⟩ := hrests
      · exact .inl hcalled
      · exact .inr ⟨hopen', hcalls', by omega⟩

/-- A request that is let through waits for no more interrupts than those that come before it: the next one calls its
handler, as long as no device before it asks again, and no glitch of the slave comes before one of the lines 3 to 7. -/
theorem interrupt_waits (image : Image) {s s' : Interrupts} (hreach : s.Reachable image fun _ => True) {n : Fin 16}
    (hopen : s.pics.Deliverable n) {es : List Happens} (hbehind : ∀ e ∈ es, e.Behind n)
    (hrun : s.run image es = some s') (hmany : (s.pics.before n).card < es.countP Happens.Interrupts) :
    s.calls n < s'.calls n := by
  obtain hcalled | ⟨-, -, hcard⟩ := Waits.run (Serving.reachable hreach) hopen hbehind hrun
  · exact hcalled
  · exact absurd hcard (by omega)

/-- The devices of two lines ask at one time, with both let through. -/
def both_ask (m n : Fin 16) : List Happens :=
  [.set_interrupt_mask m true, .set_interrupt_mask n true, .set_interrupt_state true, .asks m, .asks n]

/-- The second interrupt is the one of the keyboard. -/
theorem interrupt_waits_keyboard : ∃ s s' : Interrupts, s.Reachable linked (fun _ => True) ∧
    s.run linked [.interrupt false, .write, .set_interrupt_state true, .interrupt false] = some s' ∧
    s.calls 1 < s'.calls 1 := by
  obtain ⟨s, hrun, hsome⟩ : ∃ s, (interrupt_init linked loaded).run linked (both_ask 0 1) = some s ∧
      decide (s.pics.Deliverable 1 ∧ (s.pics.before 1).card = 1 ∧
        (s.run linked [.interrupt false, .write, .set_interrupt_state true, .interrupt false]).isSome) = true :=
    Option.map_eq_some_iff.mp (by decide +kernel)
  obtain ⟨hopen, hcard, hsome⟩ := of_decide_eq_true hsome
  obtain ⟨s', hrun'⟩ := Option.isSome_iff_exists.mp hsome
  have hreach := Interrupts.Reachable.run (.init loaded_starts) (fun _ _ => trivial) hrun
  refine ⟨s, s', hreach, hrun', interrupt_waits linked hreach hopen (fun e he => ?_) hrun' (by rw [hcard]; decide)⟩
  fin_cases he <;> first | trivial | exact fun _ hrange => absurd hrange.1 (by decide)

end Waits

end onix.Interrupt
