import Onix.Sched.ThreadsSafe

open ReentrantLock

namespace onix

variable {τ ℓ : Type} [DecidableEq τ] [DecidableEq ℓ]

/-- A line on the screen: the task that printed it and the value of its counter. -/
def Texts.printed (texts : Texts τ) (line : τ × Nat) : List UInt8 :=
  texts.line line.1 (texts.message line.1 (UInt32.ofNat line.2))

/-- The numbers of the lines of a task, the latest first. -/
def numbers (t : τ) (lines : List (τ × Nat)) : List Nat := (lines.filter fun line => line.1 = t).map Prod.snd

theorem numbers_cons_self (t : τ) (n : Nat) (lines : List (τ × Nat)) :
    numbers t ((t, n) :: lines) = n :: numbers t lines := by
  simp [numbers]

theorem numbers_cons_of_ne {t u : τ} (hne : u ≠ t) (n : Nat) (lines : List (τ × Nat)) :
    numbers t ((u, n) :: lines) = numbers t lines := by
  simp [numbers, hne]

/-- The thread has the text of its next line in the buffer of `debugk`. -/
def Code.Formatted (code : Code) : Prop := code.rest = [.printk, .console_write, .spin_unlock]

/-- The thread has its next line in the buffer of `printk`. -/
def Code.Composed (code : Code) : Prop := code.rest = [.console_write, .spin_unlock]

instance (code : Code) : Decidable (code.Formatted ∨ code.Composed) :=
  inferInstanceAs (Decidable (code.rest = [.printk, .console_write, .spin_unlock] ∨
    code.rest = [.console_write, .spin_unlock]))

/-- What has been printed, and what the static buffers hold for the thread that prints. -/
structure Logged (texts : Texts τ) (init test : τ) (m : Threads τ ℓ) (lines : List (τ × Nat)) : Prop where
  console : m.console = lines.map texts.printed
  tasks : ∀ line ∈ lines, line.1 = init ∨ line.1 = test
  numbered : ∀ t, numbers t lines = (List.range (numbers t lines).length).reverse
  counter : ∀ t, t = init ∨ t = test → m.counter t =
    UInt32.ofNat ((numbers t lines).length + if (m.code t).Formatted ∨ (m.code t).Composed then 1 else 0)
  debugk_buf : ∀ t, t = init ∨ t = test → (m.code t).Formatted →
    m.debugk_buf = texts.message t (UInt32.ofNat (numbers t lines).length)
  printk_buf : ∀ t, t = init ∨ t = test → (m.code t).Composed →
    m.printk_buf = texts.printed (t, (numbers t lines).length)

variable {lock : ℓ} {texts : Texts τ} {idle init test : τ} {m m' : Threads τ ℓ} {lines : List (τ × Nat)}

omit [DecidableEq ℓ] in
/-- A move that is no statement of `LOGK` keeps what has been printed. -/
theorem Logged.quiet (h : Logged texts init test m lines) (hcounter : m'.counter = m.counter)
    (hdebugk : m'.debugk_buf = m.debugk_buf) (hprintk : m'.printk_buf = m.printk_buf)
    (hconsole : m'.console = m.console)
    (hcode : ∀ t, t = init ∨ t = test → ((m'.code t).Formatted ↔ (m.code t).Formatted) ∧
      ((m'.code t).Composed ↔ (m.code t).Composed)) : Logged texts init test m' lines := by
  refine ⟨hconsole.trans h.console, h.tasks, h.numbered, fun t ht => ?_, fun t ht hformatted => ?_,
    fun t ht hcomposed => ?_⟩
  · simp only [hcounter, h.counter t ht, hcode t ht]
  · rw [hdebugk]
    exact h.debugk_buf t ht ((hcode t ht).1.mp hformatted)
  · rw [hprintk]
    exact h.printk_buf t ht ((hcode t ht).2.mp hcomposed)

section Tracked

variable {a : Sched τ ℓ} (h : Tracked lock idle init test m.kernel m.code a)
include h

/-- A thread between the statements of `LOGK` has taken the lock. -/
theorem Tracked.depth_of_formatted {t : τ} (ht : t = init ∨ t = test)
    (hbetween : (m.code t).Formatted ∨ (m.code t).Composed) : depth lock t a.log = 1 := by
  have hposition := h.position t ht
  generalize place lock (a.stack t) = p at hposition
  generalize depth lock t a.log = d at hposition ⊢
  simp only [Code.Formatted, Code.Composed] at hbetween
  generalize (m.code t).rest = rest at hposition hbetween
  cases hposition with
  | inside hne hsuffix => rfl
  | leaving hleaving => rfl
  | _ => simp [LOGK] at hbetween

/-- The statement that a thread that prints is at. -/
theorem Tracked.position_of_fetch {stmt : Stmt} {left : Code} (hfetch : m.fetch = some (stmt, left))
    (hworker : a.current = init ∨ a.current = test) :
    (m.code a.current).fetch = some (stmt, left) ∧
      Position (m.code a.current).rest .out (depth lock a.current a.log) := by
  obtain ⟨hnil, hfetch⟩ := Threads.fetch_eq_some hfetch
  have hcurrent : m.kernel.current = a.current := by rw [h.core]
  rw [hcurrent] at hnil hfetch
  rw [h.core] at hnil
  have hposition := h.position _ hworker
  rw [hnil] at hposition
  exact ⟨hfetch, hposition⟩

/-- A statement that is not of `LOGK` is not between two of them. -/
theorem Tracked.other_stmt {stmt : Stmt} {left : Code} (hfetch : m.fetch = some (stmt, left)) (hmem : stmt ∉ LOGK)
    (hworker : a.current = init ∨ a.current = test) :
    ¬ (m.code a.current).Formatted ∧ ¬ (m.code a.current).Composed ∧ ¬ left.Formatted ∧ ¬ left.Composed := by
  obtain ⟨hfetch, hposition⟩ := h.position_of_fetch hfetch hworker
  obtain ⟨-, -, -, hstmt⟩ := hposition.fetch lock (h.body _ hworker) hfetch
  simp only [Code.Formatted, Code.Composed]
  generalize (m.code a.current).rest = rest at hstmt
  generalize left.rest = rest' at hstmt
  obtain ⟨-, hdoes⟩ | ⟨-, hdoes⟩ | ⟨-, hdoes⟩ | ⟨hin, -⟩ := hstmt
  · cases hdoes
    simp
  · cases hdoes
    simp [LOGK]
  · cases hdoes
    simp
  · exact absurd hin hmem

/-- The statements of `LOGK` are carried out in their order, by the one thread that has taken the lock. -/
theorem Tracked.log_stmt {stmt : Stmt} {left : Code} (hfetch : m.fetch = some (stmt, left)) (hmem : stmt ∈ LOGK) :
    (a.current = init ∨ a.current = test) ∧ depth lock a.current a.log = 1 ∧
      (stmt = .debugk ∧ ¬ (m.code a.current).Formatted ∧ ¬ (m.code a.current).Composed ∧ left.Formatted ∨
        stmt = .printk ∧ (m.code a.current).Formatted ∧ left.Composed ∨
        stmt = .console_write ∧ (m.code a.current).Composed ∧ ¬ left.Formatted ∧ ¬ left.Composed) := by
  obtain hidle | ⟨-, hworker⟩ := h.running
  · obtain ⟨-, hfetch⟩ := Threads.fetch_eq_some hfetch
    have hcurrent : m.kernel.current = a.current := by rw [h.core]
    rw [hcurrent] at hfetch
    have hidles : (m.code a.current).Idles := hidle ▸ h.idles
    obtain ⟨-, -, -, rfl | rfl | rfl | rfl⟩ := hidles.fetch hfetch <;> simp [LOGK] at hmem
  · refine ⟨hworker, ?_⟩
    obtain ⟨hfetch, hposition⟩ := h.position_of_fetch hfetch hworker
    obtain ⟨-, -, -, hstmt⟩ := hposition.fetch lock (h.body _ hworker) hfetch
    have hrest : (m.code a.current).rest = stmt :: left.rest := by
      obtain ⟨rfl, -⟩ | ⟨rfl, -⟩ | ⟨rfl, -⟩ | ⟨-, hrest, -⟩ := hstmt
      · simp [LOGK] at hmem
      · simp [LOGK] at hmem
      · simp [LOGK] at hmem
      · exact hrest
    simp only [Code.Formatted, Code.Composed]
    generalize (m.code a.current).rest = rest at hrest hposition
    generalize left.rest = rest' at hrest
    generalize hplace : Place.out = p at hposition
    generalize depth lock a.current a.log = d at hposition ⊢
    cases hposition with
    | inside hne hsuffix =>
      simp only [LOGK, List.cons_append, List.nil_append, List.suffix_cons_iff, List.suffix_nil] at hsuffix
      obtain rfl | rfl | rfl | rfl | rfl := hsuffix
      · obtain ⟨rfl, rfl⟩ := List.cons.inj hrest
        simp
      · obtain ⟨rfl, rfl⟩ := List.cons.inj hrest
        simp
      · obtain ⟨rfl, rfl⟩ := List.cons.inj hrest
        simp
      · obtain ⟨rfl, rfl⟩ := List.cons.inj hrest
        simp [LOGK] at hmem
      · cases hrest
    | start =>
      obtain ⟨rfl, rfl⟩ := List.cons.inj hrest
      simp [LOGK] at hmem
    | free => cases hrest
    | taking htaking => exact (hplace ▸ htaking).elim
    | leaving hleaving => cases hrest

/-- While the running task is at a statement of `LOGK`, the other one is not between two of them. -/
theorem Tracked.alone (hdepth : depth lock a.current a.log = 1) {t : τ} (ht : t = init ∨ t = test)
    (hne : t ≠ a.current) : ¬ (m.code t).Formatted ∧ ¬ (m.code t).Composed := by
  rw [← not_or]
  intro hbetween
  exact hne (h.spinning.inv.exclusive (h.depth_of_formatted ht hbetween).ge hdepth.ge)

/-- A `hlt` is of the idle task. -/
theorem Tracked.hlt_idle {left : Code} (hfetch : m.fetch = some (.hlt, left)) : a.current = idle := by
  obtain hidle | ⟨-, hworker⟩ := h.running
  · exact hidle
  · obtain ⟨hfetch, hposition⟩ := h.position_of_fetch hfetch hworker
    obtain ⟨-, -, -, hstmt⟩ := hposition.fetch lock (h.body _ hworker) hfetch
    simp [LOGK] at hstmt

end Tracked

omit [DecidableEq ℓ] in
theorem Threads.log_of_notMem (m : Threads τ ℓ) {stmt : Stmt} (hmem : stmt ∉ LOGK) : m.log texts stmt = m := by
  cases stmt <;> first | rfl | simp [LOGK] at hmem

section Statements

variable {t : τ} {left : Code} (hlogged : Logged texts init test m lines) (ht : t = init ∨ t = test)
  (halone : ∀ u, u = init ∨ u = test → u ≠ t → ¬ (m.code u).Formatted ∧ ¬ (m.code u).Composed)
  (hcode : ∀ u, m'.code u = if u = t then left else m.code u)
include hlogged ht halone hcode

omit [DecidableEq ℓ] in
theorem Logged.debugk (hbefore : ¬ (m.code t).Formatted ∧ ¬ (m.code t).Composed) (hleft : left.Formatted)
    (hcounter : m'.counter = Function.update m.counter t (m.counter t + 1))
    (hdebugk : m'.debugk_buf = texts.message t (m.counter t)) (hconsole : m'.console = m.console) :
    Logged texts init test m' lines := by
  have hcomposed : ¬ left.Composed := fun hcomposed => by
    have heq := hleft.symm.trans hcomposed
    simp at heq
  have hnumber : m.counter t = UInt32.ofNat (numbers t lines).length := by
    rw [hlogged.counter t ht, if_neg (not_or.mpr hbefore), Nat.add_zero]
  refine ⟨hconsole.trans hlogged.console, hlogged.tasks, hlogged.numbered, fun u hu => ?_, fun u hu hu' => ?_,
    fun u hu hu' => ?_⟩
  · by_cases heq : u = t
    · rw [heq, hcounter, hcode, Function.update_self, if_pos rfl, if_pos (.inl hleft), hnumber, UInt32.ofNat_add]
      rfl
    · rw [hcounter, hcode, Function.update_of_ne heq, if_neg heq, hlogged.counter u hu]
  · by_cases heq : u = t
    · rw [heq, hdebugk, hnumber]
    · rw [hcode, if_neg heq] at hu'
      exact absurd hu' (halone u hu heq).1
  · by_cases heq : u = t
    · rw [hcode, if_pos heq] at hu'
      exact absurd hu' hcomposed
    · rw [hcode, if_neg heq] at hu'
      exact absurd hu' (halone u hu heq).2

omit [DecidableEq ℓ] in
theorem Logged.printk (hbefore : (m.code t).Formatted) (hleft : left.Composed) (hcounter : m'.counter = m.counter)
    (hprintk : m'.printk_buf = texts.line t m.debugk_buf) (hconsole : m'.console = m.console) :
    Logged texts init test m' lines := by
  have hformatted : ¬ left.Formatted := fun hformatted => by
    have heq := hleft.symm.trans hformatted
    simp at heq
  refine ⟨hconsole.trans hlogged.console, hlogged.tasks, hlogged.numbered, fun u hu => ?_, fun u hu hu' => ?_,
    fun u hu hu' => ?_⟩
  · by_cases heq : u = t
    · rw [heq, hcounter, hcode, if_pos rfl, if_pos (.inr hleft), hlogged.counter t ht, if_pos (.inl hbefore)]
    · rw [hcounter, hcode, if_neg heq, hlogged.counter u hu]
  · by_cases heq : u = t
    · rw [hcode, if_pos heq] at hu'
      exact absurd hu' hformatted
    · rw [hcode, if_neg heq] at hu'
      exact absurd hu' (halone u hu heq).1
  · by_cases heq : u = t
    · rw [heq, hprintk, hlogged.debugk_buf t ht hbefore]
      rfl
    · rw [hcode, if_neg heq] at hu'
      exact absurd hu' (halone u hu heq).2

omit [DecidableEq ℓ] in
theorem Logged.console_write (hbefore : (m.code t).Composed) (hleft : ¬ left.Formatted ∧ ¬ left.Composed)
    (hcounter : m'.counter = m.counter) (hconsole : m'.console = m.printk_buf :: m.console) :
    Logged texts init test m' ((t, (numbers t lines).length) :: lines) := by
  refine ⟨?_, ?_, fun u => ?_, fun u hu => ?_, fun u hu hu' => ?_, fun u hu hu' => ?_⟩
  · rw [hconsole, hlogged.console, hlogged.printk_buf t ht hbefore]
    rfl
  · rintro line hline
    obtain rfl | hline := List.mem_cons.mp hline
    · exact ht
    · exact hlogged.tasks line hline
  · by_cases heq : t = u
    · subst heq
      rw [numbers_cons_self, List.length_cons, List.range_succ, List.reverse_append, ← hlogged.numbered]
      rfl
    · rw [numbers_cons_of_ne heq]
      exact hlogged.numbered u
  · by_cases heq : u = t
    · rw [heq, hcounter, hcode, numbers_cons_self, if_pos rfl, if_neg (not_or.mpr hleft), hlogged.counter t ht,
        if_pos (.inr hbefore), List.length_cons]
    · rw [hcounter, hcode, if_neg heq, numbers_cons_of_ne (Ne.symm heq), hlogged.counter u hu]
  · by_cases heq : u = t
    · rw [hcode, if_pos heq] at hu'
      exact absurd hu' hleft.1
    · rw [hcode, if_neg heq] at hu'
      exact absurd hu' (halone u hu heq).1
  · by_cases heq : u = t
    · rw [hcode, if_pos heq] at hu'
      exact absurd hu' hleft.2
    · rw [hcode, if_neg heq] at hu'
      exact absurd hu' (halone u hu heq).2

end Statements

/-- The threads keep track of the lines in every move. -/
theorem Logged.move {a : Sched τ ℓ} (hlogged : Logged texts init test m lines)
    (h : Tracked lock idle init test m.kernel m.code a) (hmove : m.Moves lock texts m') :
    ∃ lines', Logged texts init test m' lines' := by
  have hcurrent : m.kernel.current = a.current := by rw [h.core]
  have hcode : ∀ left u, (Function.update m.code m.kernel.current left) u =
      if u = a.current then left else m.code u := fun left u => by rw [hcurrent, Function.update_apply]
  cases hmove with
  | kernel hop hstep => exact ⟨lines, hlogged.quiet rfl rfl rfl rfl fun t _ => ⟨.rfl, .rfl⟩⟩
  | @wake left kernel hfetch hstep =>
    refine ⟨lines, hlogged.quiet rfl rfl rfl rfl fun t ht => ?_⟩
    have hne : t ≠ a.current := h.hlt_idle hfetch ▸ h.worker_ne ht
    change ((Function.update m.code m.kernel.current left t).Formatted ↔ _) ∧
      ((Function.update m.code m.kernel.current left t).Composed ↔ _)
    rw [hcode, if_neg hne]
    exact ⟨.rfl, .rfl⟩
  | @stmt stmt left kernel hfetch hstep =>
    by_cases hmem : stmt ∈ LOGK
    · obtain ⟨hworker, hdepth, hstmt⟩ := h.log_stmt hfetch hmem
      have halone := fun t (ht : t = init ∨ t = test) hne => h.alone hdepth ht (t := t) hne
      obtain ⟨rfl, hformatted, hcomposed, hleft⟩ | ⟨rfl, hformatted, hleft⟩ | ⟨rfl, hcomposed, hleft⟩ := hstmt
      · exact ⟨lines, hlogged.debugk hworker halone (hcode left) ⟨hformatted, hcomposed⟩ hleft
          (by rw [← hcurrent]; rfl) (by rw [← hcurrent]; rfl) rfl⟩
      · exact ⟨lines, hlogged.printk hworker halone (hcode left) hformatted hleft rfl (by rw [← hcurrent]; rfl) rfl⟩
      · exact ⟨_, hlogged.console_write hworker halone (hcode left) hcomposed hleft rfl rfl⟩
    · rw [m.log_of_notMem hmem]
      refine ⟨lines, hlogged.quiet rfl rfl rfl rfl fun t ht => ?_⟩
      change ((Function.update m.code m.kernel.current left t).Formatted ↔ _) ∧
        ((Function.update m.code m.kernel.current left t).Composed ↔ _)
      rw [hcode]
      split_ifs with heq
      · obtain ⟨hformatted, hcomposed, hleft, hleft'⟩ := h.other_stmt hfetch hmem (heq ▸ ht)
        rw [heq]
        exact ⟨iff_of_false hleft hformatted, iff_of_false hleft' hcomposed⟩
      · exact ⟨.rfl, .rfl⟩

/-- Nothing is printed before `spin_init`. -/
theorem Logged.early {s : Kernel τ ℓ} {boot : τ} {free : Nat} (hlogged : Logged texts init test m lines)
    (hnodup : [boot, idle, init, test].Nodup)
    (hboot : Booting boot ((idle, 1) :: shipped_tasks init test) free s)
    (h : Early lock idle init test boot s m.kernel m.code) (hmove : m.Moves lock texts m') :
    Logged texts init test m' lines := by
  obtain ⟨hidle_code, hinit_code, htest_code, hboot_code⟩ := h.code_eq hnodup
  have hcurrent : m.kernel.current = boot ∨ m.kernel.current = init := by
    generalize m.kernel = kernel at h ⊢
    generalize m.code = code at h
    cases h with
    | boot => exact .inl hboot.current
    | enabled => exact .inl hboot.current
    | scheduled => exact .inr (by simp [zero_lock, scheduled_kernel])
  have hstmt : ∀ stmt left, m.fetch = some (stmt, left) → stmt ∉ LOGK ∧ stmt ≠ .hlt ∧ ¬ left.Formatted ∧
      ¬ left.Composed := by
    intro stmt left hfetch
    obtain ⟨-, hfetch⟩ := Threads.fetch_eq_some hfetch
    have hcode : m.code m.kernel.current = Threads.kernel_init ∨ m.code m.kernel.current = { rest := [], body := [] } ∨
        m.code m.kernel.current = init_thread := by
      obtain heq | heq := hcurrent
      · rw [heq]
        exact hboot_code.imp_right .inl
      · rw [heq]
        exact .inr (.inr hinit_code)
    obtain hcode | hcode | hcode := hcode
    · rw [hcode] at hfetch
      cases hfetch
      simp [LOGK, Code.Formatted, Code.Composed]
    · rw [hcode] at hfetch
      cases hfetch
    · rw [hcode] at hfetch
      cases hfetch
      simp [LOGK, Code.Formatted, Code.Composed]
  cases hmove with
  | kernel hop hstep => exact hlogged.quiet rfl rfl rfl rfl fun t _ => ⟨.rfl, .rfl⟩
  | wake hfetch hstep => exact absurd rfl (hstmt _ _ hfetch).2.1
  | @stmt stmt left kernel hfetch hstep =>
    obtain ⟨hmem, -, hleft, hleft'⟩ := hstmt stmt left hfetch
    rw [m.log_of_notMem hmem]
    refine hlogged.quiet rfl rfl rfl rfl fun t ht => ?_
    have hbefore : ¬ (m.code t).Formatted ∧ ¬ (m.code t).Composed := by
      obtain rfl | rfl := ht
      · rw [hinit_code]
        simp [init_thread, Code.Formatted, Code.Composed]
      · rw [htest_code]
        simp [test_thread, Code.Formatted, Code.Composed]
    change ((Function.update m.code m.kernel.current left t).Formatted ↔ _) ∧
      ((Function.update m.code m.kernel.current left t).Composed ↔ _)
    rw [Function.update_apply]
    split_ifs with heq
    · exact ⟨iff_of_false hleft hbefore.1, iff_of_false hleft' hbefore.2⟩
    · exact ⟨.rfl, .rfl⟩

/-- What is on the screen in every run of the threads: whole lines, each as one thread composed it, and the
lines of each thread with consecutive numbers. No line is lost: the counter of a thread is the number of its lines, but
for the one that it is about to print. -/
theorem threads_log (hreach : Threads.Reachable lock texts idle init test m) :
    ∃ lines : List (τ × Nat), m.console = lines.map texts.printed ∧ (∀ line ∈ lines, line.1 = init ∨ line.1 = test) ∧
      (∀ t, numbers t lines = (List.range (numbers t lines).length).reverse) ∧
      ∀ t, t = init ∨ t = test → m.counter t =
        UInt32.ofNat ((numbers t lines).length + if (m.code t).Formatted ∨ (m.code t).Composed then 1 else 0) := by
  have hlogged : ∃ lines, Logged texts init test m lines := by
    induction hreach with
    | init hinit =>
      obtain ⟨⟨s, hboots, -⟩, hcode, hcounter, hconsole⟩ := hinit
      obtain ⟨boot, free, hnodup, -, -⟩ := hboots.booting
      obtain ⟨-, hinit_code, htest_code, -⟩ := (Early.boot : Early lock idle init test boot s _ _).code_eq hnodup
      have hbetween : ∀ t, t = init ∨ t = test → ¬ (threads_code idle init test t).Formatted ∧
          ¬ (threads_code idle init test t).Composed := by
        rintro t (rfl | rfl)
        · rw [hinit_code]
          simp [init_thread, Code.Formatted, Code.Composed]
        · rw [htest_code]
          simp [test_thread, Code.Formatted, Code.Composed]
      refine ⟨[], hconsole, by simp, fun _ => rfl, fun t ht => ?_, fun t ht h => ?_, fun t ht h => ?_⟩
      · rw [hcounter, hcode, if_neg (not_or.mpr (hbetween t ht))]
        rfl
      · rw [hcode] at h
        exact absurd h (hbetween t ht).1
      · rw [hcode] at h
        exact absurd h (hbetween t ht).2
    | step hreach hnext ih =>
      obtain ⟨lines, hlines⟩ := ih
      obtain ⟨move, hmove⟩ := hnext
      obtain ⟨boot, s, free, hnodup, hboot, -, -, hearly⟩ | ⟨a, ha⟩ := threads_tracked hreach
      · exact ⟨lines, hlines.early hnodup hboot hearly (Threads.moves hmove)⟩
      · exact hlines.move ha (Threads.moves hmove)
  obtain ⟨lines, hlines⟩ := hlogged
  exact ⟨lines, hlines.console, hlines.tasks, hlines.numbered, hlines.counter⟩

/-- One line of a thread: the call of `spin_lock` is left to be made. -/
def line_moves : List Move := .stmt :: List.replicate 5 .resume ++ List.replicate 3 .stmt

def unlock_moves : List Move := .stmt :: List.replicate 6 .resume

/-- The init task prints two lines, and then the test task one. -/
theorem threads_log_shipped : ∃ m : Threads Nat Nat, Threads.Reachable 0 short_texts 1 2 3 m ∧
    m.console = [(3, 0), (2, 1), (2, 0)].map short_texts.printed ∧
      ∃ lines : List (Nat × Nat), m.console = lines.map short_texts.printed ∧
        (∀ line ∈ lines, line.1 = 2 ∨ line.1 = 3) ∧
          (∀ t, numbers t lines = (List.range (numbers t lines).length).reverse) ∧
          ∀ t, t = 2 ∨ t = 3 → m.counter t =
            UInt32.ofNat ((numbers t lines).length + if (m.code t).Formatted ∨ (m.code t).Composed then 1 else 0) := by
  obtain ⟨m, hreach, hcheck⟩ := exists_threads_reachable short_texts
    ([.stmt, .clock, .stmt, .stmt] ++ line_moves ++ unlock_moves ++ line_moves ++ unlock_moves ++
      (List.replicate 4 [.clock, .resume]).flatten ++ [.clock, .stmt] ++ line_moves)
    (fun m => m.console = [(3, 0), (2, 1), (2, 0)].map short_texts.printed) (by decide +kernel)
  exact ⟨m, hreach, of_decide_eq_true hcheck, threads_log hreach⟩

end onix
