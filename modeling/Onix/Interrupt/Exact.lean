import Onix.Interrupt.Tables

namespace onix.Interrupt

open Pic

/-- The writes that are still owed to the controllers, and what they serve meanwhile. -/
inductive Owes : List (u16 × u8) → BitVec 8 → BitVec 8 → Prop where
  | nothing : Owes [] 0 0
  | master {m : BitVec 8} (hm : Single m) : Owes [(PIC_M_CTRL, PIC_EOI)] m 0
  | both {m s : BitVec 8} (hm : Single m) (hs : Single s) : Owes [(PIC_M_CTRL, PIC_EOI), (PIC_S_CTRL, PIC_EOI)] m s
  | slave {s : BitVec 8} (hs : Single s) : Owes [(PIC_S_CTRL, PIC_EOI)] 0 s

/-- How often the handler of a line has been called -/
def Interrupts.calls (s : Interrupts) (n : Fin 16) : ℕ := (s.called.map Prod.snd).count (vector n)

/-- A request is waiting, or its handler has been called: for every line but those whose number a controller also
gives when it has nothing to ask for, exactly one of both. -/
structure Counted (s : Interrupts) : Prop where
  kept : ∀ n, n ≠ 2 → s.asked.count n ≤ s.calls n + (s.pics.requested n).toNat
  once : ∀ n, n ≠ 2 → n ≠ 7 → n ≠ 15 → s.asked.count n = s.calls n + (s.pics.requested n).toNat

structure Serving (image : Image) (s : Interrupts) : Prop where
  tables : Tables image s
  configured : s.pics.Configured 0x20 0x28
  owes : Owes s.outs s.pics.master.served s.pics.slave.served
  quiet : s.outs ≠ [] → s.IF = false
  counted : Counted s

variable {image : Image} {s s' : Interrupts}

theorem Tables.congr (h : Tables image s) (hidt : s'.idt = s.idt) (hidtr : s'.idtr = s.idtr)
    (htable : s'.handler_table = s.handler_table) : Tables image s' where
  idtr := hidtr.trans h.idtr
  entries v hv := (congrFun hidt v).trans (h.entries v hv)
  handlers n := by
    rw [htable]
    exact h.handlers n

/-- With nothing owed, nothing is served. -/
theorem Owes.idle {outs : List (u16 × u8)} {m v : BitVec 8} (h : Owes outs m v) (houts : outs = []) : m = 0 ∧ v = 0 := by
  cases h with
  | nothing => exact ⟨rfl, rfl⟩
  | master | both | slave => exact absurd houts (List.cons_ne_nil _ _)

theorem outb_eoi_master (pics : Pair) :
    Pics.outb PIC_M_CTRL PIC_EOI pics = { pics with master := pics.master.end_first } := rfl

theorem outb_eoi_slave (pics : Pair) :
    Pics.outb PIC_S_CTRL PIC_EOI pics = { pics with slave := pics.slave.end_first } := rfl

/-- The end of an interrupt, of any controller, changes what is served and nothing else. -/
theorem outb_eoi_frame {port : u16} (hport : port = PIC_M_CTRL ∨ port = PIC_S_CTRL) (pics : Pair) :
    ∃ m v, Pics.outb port PIC_EOI pics =
      { master := { pics.master with served := m }, slave := { pics.slave with served := v } } := by
  obtain rfl | rfl := hport
  · exact ⟨pics.master.end_first.served, pics.slave.served, congrArg (Pair.mk · pics.slave) pics.master.end_first_frame⟩
  · exact ⟨pics.master.served, pics.slave.end_first.served, congrArg (Pair.mk pics.master) pics.slave.end_first_frame⟩

section Write

/-- One write pays what is owed first. -/
theorem Owes.write {outs : List (u16 × u8)} {pics : Pair} (h : Owes outs pics.master.served pics.slave.served)
    (houts : outs ≠ []) : ∃ port rest, outs = (port, PIC_EOI) :: rest ∧ (port = PIC_M_CTRL ∨ port = PIC_S_CTRL) ∧
      Owes rest (Pics.outb port PIC_EOI pics).master.served (Pics.outb port PIC_EOI pics).slave.served := by
  generalize hm : pics.master.served = m at h
  generalize hv : pics.slave.served = v at h
  cases h with
  | nothing => exact absurd rfl houts
  | master hsingle =>
    refine ⟨PIC_M_CTRL, [], rfl, .inl rfl, ?_⟩
    rw [outb_eoi_master, hv, Chip.end_first_served (hm ▸ hsingle)]
    exact .nothing
  | both hsingle hslave =>
    refine ⟨PIC_M_CTRL, _, rfl, .inl rfl, ?_⟩
    rw [outb_eoi_master, Chip.end_first_served (hm ▸ hsingle)]
    exact .slave (hv ▸ hslave)
  | slave hslave =>
    refine ⟨PIC_S_CTRL, [], rfl, .inr rfl, ?_⟩
    rw [outb_eoi_slave, hm, Chip.end_first_served (hv ▸ hslave)]
    exact .nothing

theorem Serving.write (h : Serving image s) (houts : s.outs ≠ []) : ∃ s', s.write = some s' ∧ Serving image s' := by
  obtain ⟨port, rest, heq, hport, howes⟩ := h.owes.write houts
  obtain ⟨m, v, hframe⟩ := outb_eoi_frame hport s.pics
  have hwrite : s.write = some { s with pics := Pics.outb port PIC_EOI s.pics, outs := rest } := by
    rw [Interrupts.write, heq]
  refine ⟨_, hwrite, h.tables.congr rfl rfl rfl, ?_, howes, fun _ => h.quiet houts, ?_⟩
  · rw [hframe]
    exact ⟨h.configured.ready, h.configured.base, h.configured.wiring, h.configured.mode⟩
  · have hrequested : (Pics.outb port PIC_EOI s.pics).requested = s.pics.requested := by
      rw [hframe]
      rfl
    refine ⟨fun n hn => ?_, fun n hn h7 h15 => ?_⟩
    · rw [hrequested]
      exact h.counted.kept n hn
    · rw [hrequested]
      exact h.counted.once n hn h7 h15

end Write

section Interrupt

theorem send_eoi_low {n : Fin 16} (hn : n.val < 8) : send_eoi (vector n).toNat = [(PIC_M_CTRL, PIC_EOI)] := by
  rw [vector_toNat, send_eoi, if_pos (by omega), if_neg (by omega)]
  rfl

theorem send_eoi_high {n : Fin 16} (hn : 8 ≤ n.val) :
    send_eoi (vector n).toNat = [(PIC_M_CTRL, PIC_EOI), (PIC_S_CTRL, PIC_EOI)] := by
  rw [vector_toNat, send_eoi, if_neg (by omega), if_pos (by omega)]
  rfl

theorem calls_cons (s : Interrupts) (handler : handler_t) (n k : Fin 16) (pics : Pair) (IF : Bool)
    (outs : List (u16 × u8)) :
    ({ s with pics, IF, outs, called := (handler, vector n) :: s.called } : Interrupts).calls k =
      s.calls k + if k = n then 1 else 0 := by
  simp only [Interrupts.calls, List.map_cons, List.count_cons, beq_iff_eq, vector_injective.eq_iff]
  exact congrArg _ (if_congr eq_comm rfl rfl)

/-- The processor has been given the number of a line and calls its handler, with nothing else owed before. -/
def Interrupts.taking (s : Interrupts) (glitch : Bool) (n : Fin 16) : Interrupts :=
  { s with
    pics := (s.pics.acknowledge glitch).2
    IF := false
    outs := send_eoi (vector n).toNat
    called := (s.handler_table (vector n), vector n) :: s.called }

variable {glitch : Bool} {n : Fin 16}

theorem Serving.taking (h : Serving image s)
    (howes : Owes (send_eoi (vector n).toNat) (s.pics.acknowledge glitch).2.master.served
      (s.pics.acknowledge glitch).2.slave.served) (hcounted : Counted (s.taking glitch n)) :
    Serving image (s.taking glitch n) :=
  ⟨h.tables.congr rfl rfl rfl, Pair.acknowledge_configured h.configured glitch, howes, fun _ => rfl, hcounted⟩

theorem Serving.delivers (h : Serving image s) (hrequested : s.pics.requested n = true)
    (hdelivers : s.pics.Delivers (s.pics.acknowledge glitch).2 n) : Serving image (s.taking glitch n) := by
  have hcount : ∀ k, k ≠ 2 → (s.taking glitch n).calls k + ((s.taking glitch n).pics.requested k).toNat =
      s.calls k + (s.pics.requested k).toNat := fun k hk => by
    have hcalls : (s.taking glitch n).calls k = s.calls k + if k = n then 1 else 0 := calls_cons ..
    have hleft : (s.taking glitch n).pics.requested k = (s.pics.requested k && k ≠ n) := hdelivers.requested k hk
    rw [hcalls, hleft]
    by_cases hkn : k = n
    · rw [if_pos hkn, hkn, hrequested]
      simp
    · simp [hkn]
  refine h.taking ?_ ⟨fun k hk => ?_, fun k hk h7 h15 => ?_⟩
  · rw [hdelivers.master]
    obtain ⟨hn, hslave⟩ | ⟨hn, hslave⟩ := hdelivers.slave
    · rw [send_eoi_low hn, hslave]
      exact .master (by rw [if_pos hn]; exact .inr ⟨_, rfl⟩)
    · rw [send_eoi_high hn, hslave, if_neg (Nat.not_lt.mpr hn)]
      exact .both (.inr ⟨_, rfl⟩) (.inr ⟨_, rfl⟩)
  · rw [hcount k hk]
    exact h.counted.kept k hk
  · rw [hcount k hk]
    exact h.counted.once k hk h7 h15

/-- A call that no request stands behind is one of a number that no other line has. -/
theorem Serving.spurious (h : Serving image s) (hn : n = 7 ∨ n = 15)
    (hspurious : s.pics.Spurious (s.pics.acknowledge glitch).2) : Serving image (s.taking glitch n) := by
  have hcalls : ∀ k, (s.taking glitch n).calls k = s.calls k + if k = n then 1 else 0 := fun k => calls_cons ..
  have hleft : ∀ k, k ≠ 2 → (s.taking glitch n).pics.requested k = s.pics.requested k := hspurious.requested
  refine h.taking ?_ ⟨fun k hk => ?_, fun k hk h7 h15 => ?_⟩
  · rw [hspurious.slave]
    obtain rfl | rfl := hn
    · exact .master hspurious.master
    · exact .both hspurious.master (.inl rfl)
  · rw [hcalls, hleft k hk, Nat.add_right_comm]
    exact Nat.le_add_right_of_le (h.counted.kept k hk)
  · have hkn : k ≠ n := by
      rintro rfl
      exact hn.elim h7 h15
    rw [hcalls, hleft k hk, if_neg hkn, Nat.add_zero]
    exact h.counted.once k hk h7 h15

/-- The first line that is let through, or the number of line 7 of a controller, for which no request is taken:
that of the master with none let through, that of the slave on a glitch of its output, which comes before the
lines 3 to 7 although they may be let through. -/
inductive Takes (s s' : Interrupts) (glitch : Bool) : Prop where
  | device (n : Fin 16) (hopen : s.pics.Deliverable n) (hfirst : ∀ k, s.pics.Deliverable k → rank n ≤ rank k)
      (htaken : s' = s.taking glitch n)
      (hleft : ∀ k, k ≠ 2 → s'.pics.requested k = (s.pics.requested k && k ≠ n))
  | nothing (n : Fin 16) (hn : n = 7 ∨ n = 15 ∧ glitch = true ∧ s.pics.masked 2 = false)
      (hclosed : ∀ k, s.pics.Deliverable k → n = 15 ∧ 2 < k.val ∧ k.val < 8) (htaken : s' = s.taking glitch n)
      (hleft : ∀ k, k ≠ 2 → s'.pics.requested k = s.pics.requested k)

theorem Serving.interrupt (h : Serving image s) (hIF : s.IF = true) (glitch : Bool) :
    ∃ s', s.interrupt image glitch = some s' ∧ Serving image s' ∧ Takes s s' glitch := by
  have houts : s.outs = [] := by
    by_contra howed
    exact absurd (hIF.symm.trans (h.quiet howed)) Bool.noConfusion
  obtain ⟨hmaster, hslave⟩ := h.owes.idle houts
  obtain ⟨n, hnumber, hopen, hfirst, hdelivers⟩ | ⟨n, hn, hnumber, hspurious, hclosed⟩ :=
    Pair.acknowledge_cases h.configured hmaster hslave glitch
  · rw [vector_eq_number] at hnumber
    exact ⟨_, h.tables.interrupt hnumber, h.delivers hopen.2.1 hdelivers,
      .device n hopen hfirst rfl hdelivers.requested⟩
  · rw [vector_eq_number] at hnumber
    exact ⟨_, h.tables.interrupt hnumber, h.spurious (hn.imp_right And.left) hspurious,
      .nothing n hn hclosed rfl hspurious.requested⟩

end Interrupt

section Steps

theorem Serving.asks (h : Serving image s) {n : Fin 16} (hn : n ≠ 2) :
    ∃ s', s.step image (.asks n) = some s' ∧ Serving image s' := by
  obtain ⟨m, v, hframe⟩ := Pair.raise_frame (p := s.pics) n
  have hconf : (s.pics.raise n).Configured 0x20 0x28 := by
    rw [hframe]
    exact ⟨h.configured.ready, h.configured.base, h.configured.wiring, h.configured.mode⟩
  have howes : Owes s.outs (s.pics.raise n).master.served (s.pics.raise n).slave.served := by
    rw [hframe]
    exact h.owes
  have hcount : ∀ k, (if s.pics.requested n then s.asked else n :: s.asked).count k + (s.pics.requested k).toNat =
      s.asked.count k + ((s.pics.raise n).requested k).toNat := fun k => by
    rw [Pair.raise_requested]
    by_cases hkn : k = n
    · subst hkn
      cases s.pics.requested k <;> simp
    · have hne : n ≠ k := fun heq => hkn heq.symm
      cases s.pics.requested n <;> simp [hkn, hne]
  refine ⟨_, rfl, h.tables.congr rfl rfl rfl, hconf, howes, h.quiet, ⟨fun k hk => ?_, fun k hk h7 h15 => ?_⟩⟩
  · have hkept := h.counted.kept k hk
    have hk := hcount k
    change List.count k (if s.pics.requested n then s.asked else n :: s.asked) ≤
      s.calls k + ((s.pics.raise n).requested k).toNat
    omega
  · have hkept := h.counted.once k hk h7 h15
    have hk := hcount k
    change List.count k (if s.pics.requested n then s.asked else n :: s.asked) =
      s.calls k + ((s.pics.raise n).requested k).toNat
    omega

theorem Serving.step (h : Serving image s) {e : Happens} (he : e.Possible s) :
    ∃ s', s.step image e = some s' ∧ Serving image s' := by
  cases e with
  | asks n => exact h.asks he
  | interrupt glitch =>
    obtain ⟨s', hstep, hserving, -⟩ := h.interrupt he glitch
    exact ⟨s', hstep, hserving⟩
  | write => exact h.write he
  | set_interrupt_state state =>
    exact ⟨_, rfl, h.tables.congr rfl rfl rfl, h.configured, h.owes, fun howed => absurd he howed,
      ⟨h.counted.kept, h.counted.once⟩⟩
  | set_interrupt_handler driver =>
    obtain ⟨s', hstep, htables, hframe⟩ := h.tables.set_interrupt_handler driver
    refine ⟨s', hstep, htables, ?_, ?_, ?_, ?_⟩ <;> rw [hframe]
    · exact h.configured
    · exact h.owes
    · exact h.quiet
    · exact ⟨h.counted.kept, h.counted.once⟩
  | set_interrupt_mask irq enable =>
    obtain ⟨pics, heq, hmasks⟩ := set_interrupt_mask_masks h.configured irq enable
    have hstep : s.step image (.set_interrupt_mask irq enable) = some { s with pics } := by
      rw [Interrupts.step, heq]
      rfl
    refine ⟨_, hstep, h.tables.congr rfl rfl rfl, hmasks.configured, ?_, h.quiet, ⟨fun k hk => ?_, fun k hk h7 h15 => ?_⟩⟩
    · rw [hmasks.served.1, hmasks.served.2]
      exact h.owes
    · rw [hmasks.requested]
      exact h.counted.kept k hk
    · rw [hmasks.requested]
      exact h.counted.once k hk h7 h15

end Steps

section Runs

/-- After `interrupt_init`, which runs with interrupts off, before the first of them -/
def Interrupts.Starts (image : Image) (s : Interrupts) : Prop :=
  ∃ s₀ : Interrupts, s₀.IF = false ∧ s₀.outs = [] ∧ s₀.asked = [] ∧ s₀.called = [] ∧ s = interrupt_init image s₀

def Interrupts.Next (image : Image) (allowed : Happens → Prop) (s s' : Interrupts) : Prop :=
  ∃ e, allowed e ∧ e.Possible s ∧ s.step image e = some s'

/-- The states that the kernel and the devices reach with some of the events. -/
def Interrupts.Reachable (image : Image) (allowed : Happens → Prop) : Interrupts → Prop :=
  Runs.Reach (Interrupts.Starts image) (Interrupts.Next image allowed)

theorem Serving.init (hstarts : s.Starts image) : Serving image s := by
  obtain ⟨s₀, hIF, houts, hasked, hcalled, rfl⟩ := hstarts
  have hpics : (interrupt_init image s₀).pics = pic_init s₀.pics := rfl
  refine ⟨idt_init_tables image _, pic_init_configured _, ?_, fun howed => absurd houts howed, ?_⟩
  · have howes : (interrupt_init image s₀).outs = [] := houts
    rw [howes, hpics, pic_init_eq]
    exact .nothing
  · have hnone : ∀ n, (interrupt_init image s₀).asked.count n = (interrupt_init image s₀).calls n +
        ((interrupt_init image s₀).pics.requested n).toNat := fun n => by
      have hasked : (interrupt_init image s₀).asked = [] := hasked
      have hcalls : (interrupt_init image s₀).calls n = 0 := by
        have hcalled : (interrupt_init image s₀).called = [] := hcalled
        rw [Interrupts.calls, hcalled]
        rfl
      have hrequested : (interrupt_init image s₀).pics.requested n = false := by
        rw [hpics, pic_init_eq]
        simp [Pair.requested]
      rw [hasked, hcalls, hrequested]
      rfl
    exact ⟨fun n _ => (hnone n).le, fun n _ _ _ => hnone n⟩

theorem Serving.reachable {allowed : Happens → Prop} (hreach : s.Reachable image allowed) : Serving image s := by
  induction hreach with
  | init hstarts => exact .init hstarts
  | step _ hnext ih =>
    obtain ⟨e, -, hpossible, hstep⟩ := hnext
    obtain ⟨s', hstep', hserving⟩ := ih.step hpossible
    cases hstep.symm.trans hstep'
    exact hserving

/-- What holds between the kernel and its interrupt controllers. -/
structure InterruptsExact (image : Image) (s : Interrupts) : Prop where
  /-- no assertion of `set_interrupt_mask`, of `set_interrupt_handler` or of a handler fails, and no interrupt is
  without its gate -/
  runs : ∀ e : Happens, e.Possible s → ∃ s', s.step image e = some s'
  /-- while the threads run, nothing is served that the kernel would have to end -/
  ended : s.outs = [] → s.pics.master.served = 0 ∧ s.pics.slave.served = 0
  /-- while something is, no interrupt is taken -/
  quiet : s.outs ≠ [] → s.IF = false
  /-- no request is lost, and, but for the numbers that a controller also gives on its own, none is served twice -/
  counted : Counted s
  /-- the processor takes the first request that is let through -/
  takes : s.IF = true → ∀ glitch, ∃ s', s.step image (.interrupt glitch) = some s' ∧ Takes s s' glitch

/-- Every interrupt is taken once, in the order of the lines, and ended before the next. -/
theorem interrupts_exact (image : Image) {s : Interrupts} (hreach : s.Reachable image fun _ => True) :
    InterruptsExact image s := by
  have hserving := Serving.reachable hreach
  refine ⟨fun e he => ?_, hserving.owes.idle, hserving.quiet, hserving.counted, fun hIF glitch => ?_⟩
  · obtain ⟨s', hstep, -⟩ := hserving.step he
    exact ⟨s', hstep⟩
  · obtain ⟨s', hstep, -, htakes⟩ := hserving.interrupt hIF glitch
    exact ⟨s', hstep, htakes⟩

/-- A run of some events, `none` where one is not possible. -/
def Interrupts.run (image : Image) : List Happens → Interrupts → Option Interrupts
  | [], s => some s
  | e :: es, s => if e.Possible s then (s.step image e).bind (run image es) else none

theorem Interrupts.Reachable.run {allowed : Happens → Prop} (hreach : s.Reachable image allowed) {es : List Happens}
    (hallowed : ∀ e ∈ es, allowed e) (hrun : s.run image es = some s') : s'.Reachable image allowed := by
  induction es generalizing s with
  | nil =>
    cases hrun
    exact hreach
  | cons e es ih =>
    rw [Interrupts.run] at hrun
    split_ifs at hrun with hpossible
    obtain ⟨s₁, hstep, hrest⟩ := Option.bind_eq_some_iff.mp hrun
    exact ih (.step hreach ⟨e, hallowed e List.mem_cons_self, hpossible, hstep⟩)
      (fun e he => hallowed e (List.mem_cons_of_mem _ he)) hrest

/-- The stubs one behind the other -/
def linked : Image where
  idt := 0x20000
  handler_entry_table i := UInt32.ofNat (0x10000 + 16 * i)
  syscall_handler := 0x10300
  distinct i hi j hj heq := by
    have hENTRY : ENTRY_SIZE = 0x30 := rfl
    have hsize : UInt32.size = 2 ^ 32 := rfl
    have h := congrArg UInt32.toNat heq
    rw [UInt32.toNat_ofNat_of_lt' (by omega), UInt32.toNat_ofNat_of_lt' (by omega)] at h
    omega

/-- The tables are zero when the kernel is loaded, and the controllers as the firmware has left them. -/
def loaded : Interrupts where
  pics := ⟨⟨.ready, 0x11, 8, 4, 1, 0xb8, 0, 0⟩, ⟨.ready, 0x11, 0x70, 2, 1, 0x8f, 0, 0⟩⟩
  idt _ := ⟨0, 0, 0, 0, 0, 0, 0, 0⟩
  idtr := ⟨0, 0⟩
  handler_table _ := .NULL
  IF := false
  outs := []
  asked := []
  called := []

theorem loaded_starts : (interrupt_init linked loaded).Starts linked := ⟨loaded, rfl, rfl, rfl, rfl, rfl⟩

/-- `clock_init` with the line of the clock, the interrupts on, and one interrupt of the clock up to its end -/
def one_tick (irq : Fin 16) : List Happens :=
  [.set_interrupt_handler .clock, .set_interrupt_mask irq true, .set_interrupt_state true, .asks irq,
    .interrupt false, .write]

theorem one_tick_run : ∃ s, (interrupt_init linked loaded).run linked (one_tick 0) = some s ∧
    s.called = [(.clock_handler, 0x20)] :=
  Option.map_eq_some_iff.mp (by decide)

theorem interrupts_exact_tick : ∃ s, s.Reachable linked (fun _ => True) ∧ s.called = [(.clock_handler, 0x20)] ∧
    InterruptsExact linked s := by
  obtain ⟨s, hrun, hcalled⟩ := one_tick_run
  have hreach := Interrupts.Reachable.run (.init loaded_starts) (fun _ _ => trivial) hrun
  exact ⟨s, hreach, hcalled, interrupts_exact linked hreach⟩

end Runs

end onix.Interrupt
