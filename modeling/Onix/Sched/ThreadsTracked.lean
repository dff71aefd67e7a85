import Onix.Sched.ThreadSteps

open ReentrantLock

namespace onix

variable {τ ℓ : Type}

/-- The thread has yet to turn interrupts on. -/
def Code.Fresh (code : Code) : Prop := code.rest = [.set_interrupt_state true]

/-- Where `idle_thread` can be. -/
structure Code.Idles (code : Code) : Prop where
  body : code.body = idle_thread.body
  rest : code.rest = idle_thread.rest ∨ code.rest <:+ [.hlt, .yield]

variable [DecidableEq τ] [DecidableEq ℓ]

/-- A call in the code of a thread is made with no kernel code left to return to. -/
theorem step_call {search : Core τ ℓ → Option τ} {call : Call ℓ} {s s' : Kernel τ ℓ}
    (hstep : step search (.call call) s = some s') : s.stack s.current = [] := by
  simp only [step] at hstep
  split_ifs at hstep with hcall
  exact hcall.1

/-- The threads behind `spin_init`: the kernel keeps to the lock protocol, and each thread is somewhere
in its code. -/
structure Tracked (lock : ℓ) (idle init test : τ) (s : Kernel τ ℓ) (code : τ → Code) (a : Sched τ ℓ) :
    Prop where
  holds : Holds (fun a => a.Regular ∧ a.Framed ∧ a.Spinning lock) s a
  nodup : [idle, init, test].Nodup
  table : ∀ t, some t ∈ a.task_table ↔ t = idle ∨ t = init ∨ t = test
  idel_task : a.idel_task = some idle
  idles : (code idle).Idles
  body : ∀ t, t = init ∨ t = test → (code t).body = init_thread.body
  position : ∀ t, t = init ∨ t = test → Position (code t).rest (place lock (a.stack t)) (depth lock t a.log)
  steady : a.Steady lock fun t => (code t).Fresh

namespace Tracked

variable {lock : ℓ} {idle init test : τ} {s s' : Kernel τ ℓ} {code : τ → Code} {a : Sched τ ℓ} {op : Op ℓ}

theorem regular (h : Tracked lock idle init test s code a) : a.Regular := h.holds.inv.1

theorem framed (h : Tracked lock idle init test s code a) : a.Framed := h.holds.inv.2.1

theorem spinning (h : Tracked lock idle init test s code a) : a.Spinning lock := h.holds.inv.2.2

theorem core (h : Tracked lock idle init test s code a) : s.toCore = a.toCore := h.holds.refines.core

theorem worker_ne (h : Tracked lock idle init test s code a) {t : τ} (ht : t = init ∨ t = test) : t ≠ idle := by
  obtain ⟨⟨hinit, htest⟩, -⟩ : (idle ≠ init ∧ idle ≠ test) ∧ init ≠ test := by simpa using h.nodup
  obtain rfl | rfl := ht
  · exact hinit.symm
  · exact htest.symm

/-- The running task is one of the three. -/
theorem running (h : Tracked lock idle init test s code a) :
    a.current = idle ∨ a.current ≠ idle ∧ (a.current = init ∨ a.current = test) := by
  obtain heq | hworker := (h.table _).mp h.steady.current
  · exact .inl heq
  · exact .inr ⟨h.worker_ne hworker, hworker⟩

/-- What a thread does next is allowed by the lock protocol. -/
theorem nested (h : Tracked lock idle init test s code a) (hop : ThreadOp lock op)
    (hcall : ∀ call, op = .call call → a.stack a.current = []) (hidle : a.current = idle → IdleOp op)
    {rest : List Stmt} (hdoes : a.current ≠ idle → Does lock (code a.current).rest op rest) :
    Nested lock a.toCore (task_search .TASK_READY) op := by
  have hposition : IdleOp op ∨ Does lock (code a.current).rest op rest ∧
      Position (code a.current).rest (place lock (a.stack a.current)) (depth lock a.current a.log) := by
    obtain heq | ⟨hne, hworker⟩ := h.running
    · exact .inl (hidle heq)
    · exact .inr ⟨hdoes hne, h.position _ hworker⟩
  refine ⟨⟨task_search_sound, task_search_picks, fun hsome => hidle ?_⟩, ?_, ?_, ?_, ?_⟩
  · rw [h.idel_task] at hsome
    exact (Option.some.inj hsome).symm
  · rintro rfl
    cases hop
  · rintro rfl
    cases hop
  · rintro rfl
    obtain hop | ⟨hdoes, hposition⟩ := hposition
    · exact hop.elim
    · rw [hcall _ rfl] at hposition
      change Position _ .out _ at hposition
      generalize (code a.current).rest = statements at hdoes hposition
      cases hdoes
      generalize depth lock a.current a.log = d at hposition
      cases hposition with
      | free => norm_num
      | inside hne hsuffix => exact absurd rfl hne
      | leaving hleaving => exact hleaving.elim
  · rintro rfl
    obtain hop | ⟨hdoes, hposition⟩ := hposition
    · exact hop.elim
    · rw [hcall _ rfl] at hposition
      change Position _ .out _ at hposition
      generalize (code a.current).rest = statements at hdoes hposition
      cases hdoes
      generalize depth lock a.current a.log = d at hposition
      cases hposition with
      | inside hne hsuffix => exact le_rfl

/-- A step of the kernel that the running thread makes, and the code it has left then. -/
theorem step (h : Tracked lock idle init test s code a) (hop : ThreadOp lock op)
    (hstep : onix.step (task_search .TASK_READY) op s = some s') {left : Code}
    (hidle : a.current = idle → IdleOp op ∧ left.Idles)
    (hworker : a.current ≠ idle → left.body = init_thread.body ∧ Does lock (code a.current).rest op left.rest)
    (henable : (code a.current).Fresh → op = enable) (hleft : ¬ left.Fresh) :
    ∃ b, Tracked lock idle init test s' (Function.update code a.current left) b := by
  have hcall : ∀ call, op = .call call → a.stack a.current = [] := by
    rintro call rfl
    have hnil := step_call hstep
    rwa [h.core] at hnil
  have hnested := h.nested hop hcall (fun heq => (hidle heq).1) fun hne => (hworker hne).2
  obtain ⟨hwf, b, hab, href, hwf'⟩ := h.holds.step hnested.sound hstep
  have hspinning := hab.spinning hnested (h.framed.shaped _) h.spinning
  have hframed := hab.framed hwf h.regular h.framed
  have hregular := hab.regular hwf hnested.toDisciplined h.regular
  have hsteady := hab.steady hwf h.regular h.framed h.spinning hnested hop henable h.steady
  have hcurrent : ∀ {c : Sched τ ℓ} {calls}, a.Act op calls c → ∀ t, t = init ∨ t = test →
      Position (Function.update code a.current left t).rest (place lock (c.stack t)) (depth lock t c.log) := by
    intro c calls hact t ht
    by_cases heq : t = a.current
    · subst heq
      rw [Function.update_self]
      exact hact.does (hworker (h.worker_ne ht)).2 hnested (h.framed.shaped _) h.spinning (h.steady.frames _) hcall
        (h.position _ ht)
    · obtain ⟨hplace, hdepth⟩ := hact.view_of_ne hnested (h.framed.shaped _) h.spinning heq
      rw [Function.update_of_ne heq, hplace, hdepth]
      exact h.position t ht
  have hposition : ∀ b, a.Step (task_search .TASK_READY) op b → ∀ t, t = init ∨ t = test →
      Position (Function.update code a.current left t).rest (place lock (b.stack t)) (depth lock t b.log) := by
    intro b hab t ht
    cases hab with
    | stay hact => exact hcurrent hact t ht
    | switch hact hsearch => simpa [depth] using hcurrent hact t ht
  have hfresh : (fun t => (Function.update code a.current left t).Fresh) =
      fun t => (code t).Fresh ∧ t ≠ a.current := by
    funext t
    by_cases ht : t = a.current
    · simp [ht, hleft]
    · simp [ht]
  obtain ⟨htable, hidel⟩ := hab.frame
  refine ⟨b, ⟨href, hwf', hregular, hframed, hspinning⟩, h.nodup, fun t => by rw [htable]; exact h.table t,
    hidel.trans h.idel_task, ?_, fun t ht => ?_, hposition b hab, hfresh ▸ hsteady⟩
  · by_cases heq : idle = a.current
    · rw [heq, Function.update_self]
      exact (hidle heq.symm).2
    · rw [Function.update_of_ne heq]
      exact h.idles
  · by_cases heq : t = a.current
    · rw [heq, Function.update_self]
      exact (hworker (heq ▸ h.worker_ne ht)).1
    · rw [Function.update_of_ne heq]
      exact h.body t ht

/-- A thread that has yet to turn interrupts on is not interrupted, and has called nothing. -/
theorem not_fresh (h : Tracked lock idle init test s code a) (hop : op = .clock ∨ op = .resume)
    (hstep : onix.step (task_search .TASK_READY) op s = some s') : ¬ (code a.current).Fresh := by
  intro hfresh
  obtain ⟨hnil, hIF⟩ := h.steady.starts _ h.steady.current hfresh
  obtain rfl | rfl := hop
  · simp only [onix.step, h.core, hIF rfl] at hstep
    exact absurd hstep (by simp)
  · simp only [onix.step, h.core, hnil] at hstep
    exact absurd hstep (by simp)

/-- Kernel code goes on, or the clock interrupts. -/
theorem kernel (h : Tracked lock idle init test s code a) (hop : op = .clock ∨ op = .resume)
    (hstep : onix.step (task_search .TASK_READY) op s = some s') : ∃ b, Tracked lock idle init test s' code b := by
  have hfresh := h.not_fresh hop hstep
  have hthread : ThreadOp lock op := by
    obtain rfl | rfl := hop
    · exact .clock
    · exact .resume
  have hidle : a.current = idle → IdleOp op ∧ (code a.current).Idles := fun heq =>
    ⟨by obtain rfl | rfl := hop <;> trivial, heq ▸ h.idles⟩
  have hworker : a.current ≠ idle → (code a.current).body = init_thread.body ∧
      Does lock (code a.current).rest op (code a.current).rest := fun hne => by
    refine ⟨h.body _ (h.running.resolve_left hne).2, ?_⟩
    obtain rfl | rfl := hop
    · exact .clock _
    · exact .resume _
  have hstep := h.step hthread hstep hidle hworker (fun hf => absurd hf hfresh) hfresh
  rwa [Function.update_eq_self] at hstep

/-- A statement of `LOGK` changes nothing but the code that is left. -/
theorem set_code (h : Tracked lock idle init test s code a) (hne : a.current ≠ idle) {left : Code}
    (hbody : left.body = init_thread.body)
    (hposition : Position left.rest (place lock (a.stack a.current)) (depth lock a.current a.log))
    (hfresh : ¬ (code a.current).Fresh) (hleft : ¬ left.Fresh) :
    Tracked lock idle init test s (Function.update code a.current left) a := by
  have heq : (fun t => (Function.update code a.current left t).Fresh) = fun t => (code t).Fresh := by
    funext t
    by_cases ht : t = a.current
    · simp [ht, hleft, hfresh]
    · simp [ht]
  refine ⟨h.holds, h.nodup, h.table, h.idel_task, ?_, fun t ht => ?_, fun t ht => ?_, heq ▸ h.steady⟩
  · rw [Function.update_of_ne hne.symm]
    exact h.idles
  · by_cases hcurrent : t = a.current
    · rwa [hcurrent, Function.update_self]
    · rw [Function.update_of_ne hcurrent]
      exact h.body t ht
  · by_cases hcurrent : t = a.current
    · rwa [hcurrent, Function.update_self]
    · rw [Function.update_of_ne hcurrent]
      exact h.position t ht

end Tracked

omit [DecidableEq τ] [DecidableEq ℓ]

/-- The statements of `idle_thread`. -/
theorem Code.Idles.fetch {code left : Code} (h : code.Idles) {stmt : Stmt} (hfetch : code.fetch = some (stmt, left)) :
    left.Idles ∧ ¬ left.Fresh ∧ (code.Fresh → stmt = .set_interrupt_state true) ∧
      (stmt = .set_interrupt_state true ∨ stmt = .sti ∨ stmt = .hlt ∨ stmt = .yield) := by
  obtain ⟨rest, body⟩ := code
  obtain ⟨rfl, hrest⟩ := h
  simp only [idle_thread, List.suffix_cons_iff, List.suffix_nil] at hrest
  obtain rfl | rfl | rfl | rfl := hrest
  all_goals
    simp only [Code.fetch, idle_thread, Option.some.injEq, Prod.mk.injEq] at hfetch
    obtain ⟨rfl, rfl⟩ := hfetch
    refine ⟨⟨rfl, ?_⟩, ?_, ?_, ?_⟩ <;> simp [Code.Fresh, List.suffix_cons_iff]

/-- The statements of a thread that prints. -/
theorem Position.fetch (lock : ℓ) {code left : Code} {d : Nat} (h : Position code.rest .out d)
    (hbody : code.body = init_thread.body)
    {stmt : Stmt} (hfetch : code.fetch = some (stmt, left)) :
    left.body = init_thread.body ∧ ¬ left.Fresh ∧ (code.Fresh → stmt = .set_interrupt_state true) ∧
      (stmt = .set_interrupt_state true ∧ Does lock code.rest enable left.rest ∨
        stmt = .spin_lock ∧ Does lock code.rest (.call (.spin_lock lock)) left.rest ∨
        stmt = .spin_unlock ∧ Does lock code.rest (.call (.spin_unlock lock)) left.rest ∨
        stmt ∈ LOGK ∧ code.rest = stmt :: left.rest ∧ Position left.rest .out d) := by
  obtain ⟨rest, body⟩ := code
  obtain rfl : body = init_thread.body := hbody
  generalize hplace : Place.out = place at h
  cases h with
  | start =>
    obtain ⟨rfl, rfl⟩ := Prod.mk.inj (Option.some.inj hfetch)
    exact ⟨rfl, by simp [Code.Fresh], fun _ => rfl, .inl ⟨rfl, .enable⟩⟩
  | free =>
    obtain ⟨rfl, rfl⟩ := Prod.mk.inj (Option.some.inj hfetch)
    exact ⟨rfl, by simp [Code.Fresh, LOGK], by simp [Code.Fresh], .inr (.inl ⟨rfl, .spin_lock⟩)⟩
  | taking htaking =>
    subst hplace
    exact htaking.elim
  | leaving hleaving =>
    subst hplace
    exact hleaving.elim
  | inside hne hsuffix =>
    have hrest : rest = [.spin_unlock] ∨ ∃ stmt left, stmt ∈ LOGK ∧ left ≠ [] ∧
        left <:+ LOGK ++ [.spin_unlock] ∧ rest = stmt :: left := by
      simp only [LOGK, List.cons_append, List.nil_append, List.suffix_cons_iff, List.suffix_nil] at hsuffix
      obtain rfl | rfl | rfl | rfl | rfl := hsuffix
      · exact .inr ⟨_, _, by simp [LOGK], by simp, by simp [LOGK], rfl⟩
      · exact .inr ⟨_, _, by simp [LOGK], by simp, by simp [LOGK, List.suffix_cons_iff], rfl⟩
      · exact .inr ⟨_, _, by simp [LOGK], by simp, by simp [LOGK, List.suffix_cons_iff], rfl⟩
      · exact .inl rfl
      · exact absurd rfl hne
    obtain rfl | ⟨stmt', rest', hmem, hne', hsuffix', rfl⟩ := hrest
    · obtain ⟨rfl, rfl⟩ := Prod.mk.inj (Option.some.inj hfetch)
      exact ⟨rfl, by simp [Code.Fresh], by simp [Code.Fresh], .inr (.inr (.inl ⟨rfl, .spin_unlock⟩))⟩
    · obtain ⟨rfl, rfl⟩ := Prod.mk.inj (Option.some.inj hfetch)
      refine ⟨rfl, fun hfresh => ?_, fun hfresh => ?_, .inr (.inr (.inr ⟨hmem, rfl, .inside hne' hsuffix'⟩))⟩
      · obtain rfl : rest' = [.set_interrupt_state true] := hfresh
        simp [LOGK, List.suffix_cons_iff] at hsuffix'
      · exact (List.cons.inj hfresh).1

variable [DecidableEq τ] [DecidableEq ℓ] {lock : ℓ} {texts : Texts τ} {idle init test : τ} {m m' : Threads τ ℓ}
  {a : Sched τ ℓ}

omit [DecidableEq ℓ] in
theorem Threads.log_same (m : Threads τ ℓ) (stmt : Stmt) :
    (m.log texts stmt).kernel = m.kernel ∧ (m.log texts stmt).code = m.code := by
  cases stmt <;> exact ⟨rfl, rfl⟩

/-- What a statement that is no call does to the kernel. -/
theorem Stmt.step_log {stmt : Stmt} (hmem : stmt ∈ LOGK) (s : Kernel τ ℓ) : stmt.step lock s = some s := by
  simp only [LOGK, List.mem_cons, List.not_mem_nil, or_false] at hmem
  obtain rfl | rfl | rfl := hmem <;> rfl

/-- A statement of the idle task. -/
theorem Tracked.idle_stmt (h : Tracked lock idle init test m.kernel m.code a) (hidle : a.current = idle)
    {stmt : Stmt} {left : Code} {kernel : Kernel τ ℓ} (hfetch : (m.code a.current).fetch = some (stmt, left))
    (hstep : stmt.step lock m.kernel = some kernel) :
    ∃ b, Tracked lock idle init test kernel (Function.update m.code a.current left) b := by
  have hidles : (m.code a.current).Idles := hidle ▸ h.idles
  obtain ⟨hleft, hfresh, henable, hstmt⟩ := hidles.fetch hfetch
  have hworker : ∀ {op : Op ℓ}, a.current ≠ idle → left.body = init_thread.body ∧
      Does lock (m.code a.current).rest op left.rest := fun hne => absurd hidle hne
  obtain rfl | rfl | rfl | rfl := hstmt
  · exact h.step .enable hstep (fun _ => ⟨trivial, hleft⟩) hworker (fun _ => rfl) hfresh
  · exact h.step .enable hstep (fun _ => ⟨trivial, hleft⟩) hworker (fun _ => rfl) hfresh
  · exact absurd hstep (by simp [Stmt.step])
  · exact h.step .yield hstep (fun _ => ⟨trivial, hleft⟩) hworker (fun hf => by cases henable hf) hfresh

/-- A statement of a task that prints. -/
theorem Tracked.worker_stmt (h : Tracked lock idle init test m.kernel m.code a) (hne : a.current ≠ idle)
    (hnil : a.stack a.current = []) {stmt : Stmt} {left : Code} {kernel : Kernel τ ℓ}
    (hfetch : (m.code a.current).fetch = some (stmt, left)) (hstep : stmt.step lock m.kernel = some kernel) :
    ∃ b, Tracked lock idle init test kernel (Function.update m.code a.current left) b := by
  have hworker := h.running.resolve_left hne
  have hposition := h.position _ hworker.2
  have hplace : place lock (a.stack a.current) = .out := by rw [hnil]; rfl
  rw [hplace] at hposition
  obtain ⟨hbody, hfresh, henable, hstmt⟩ := hposition.fetch lock (h.body _ hworker.2) hfetch
  have hidle : ∀ {op : Op ℓ}, a.current = idle → IdleOp op ∧ left.Idles := fun heq => absurd heq hne
  obtain ⟨rfl, hdoes⟩ | ⟨rfl, hdoes⟩ | ⟨rfl, hdoes⟩ | ⟨hmem, hrest, hposition'⟩ := hstmt
  · exact h.step .enable hstep hidle (fun _ => ⟨hbody, hdoes⟩) (fun _ => rfl) hfresh
  · exact h.step .spin_lock hstep hidle (fun _ => ⟨hbody, hdoes⟩) (fun hf => by cases henable hf) hfresh
  · exact h.step .spin_unlock hstep hidle (fun _ => ⟨hbody, hdoes⟩) (fun hf => by cases henable hf) hfresh
  · rw [Stmt.step_log hmem] at hstep
    cases hstep
    refine ⟨a, h.set_code hne hbody (hplace ▸ hposition') (fun hf => ?_) hfresh⟩
    rw [henable hf] at hmem
    simp [LOGK] at hmem

/-- The threads stay in their code in every move. -/
theorem Tracked.move (h : Tracked lock idle init test m.kernel m.code a) (hmove : m.Moves lock texts m') :
    ∃ b, Tracked lock idle init test m'.kernel m'.code b := by
  have hcurrent : m.kernel.current = a.current := by rw [h.core]
  cases hmove with
  | kernel hop hstep => exact h.kernel hop hstep
  | @wake left kernel hfetch hstep =>
    obtain ⟨hnil, hfetch⟩ := Threads.fetch_eq_some hfetch
    rw [hcurrent, h.core] at hnil
    rw [hcurrent] at hfetch
    change ∃ b, Tracked lock idle init test kernel (Function.update m.code m.kernel.current left) b
    rw [hcurrent]
    obtain hidle | ⟨hne, hworker⟩ := h.running
    · have hidles : (m.code a.current).Idles := hidle ▸ h.idles
      obtain ⟨hleft, hfresh, -, -⟩ := hidles.fetch hfetch
      exact h.step .clock hstep (fun _ => ⟨trivial, hleft⟩) (fun hne => absurd hidle hne)
        (fun hf => absurd hf (h.not_fresh (.inl rfl) hstep)) hfresh
    · have hposition := h.position _ hworker
      have hplace : place lock (a.stack a.current) = .out := by rw [hnil]; rfl
      rw [hplace] at hposition
      obtain ⟨-, -, -, hstmt⟩ := hposition.fetch lock (h.body _ hworker) hfetch
      simp [LOGK] at hstmt
  | @stmt stmt left kernel hfetch hstep =>
    obtain ⟨hnil, hfetch⟩ := Threads.fetch_eq_some hfetch
    rw [hcurrent, h.core] at hnil
    rw [hcurrent] at hfetch
    change ∃ b, Tracked lock idle init test kernel
      (Function.update (m.log texts stmt).code (m.log texts stmt).kernel.current left) b
    rw [(m.log_same stmt).1, (m.log_same stmt).2, hcurrent]
    by_cases hidle : a.current = idle
    · exact h.idle_stmt hidle hfetch hstep
    · exact h.worker_stmt hidle hnil hfetch hstep

end onix
