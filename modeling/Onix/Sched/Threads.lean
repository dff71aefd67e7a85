import Onix.Sched.SpinLockSafe

open ReentrantLock

namespace onix

variable {τ ℓ : Type}

/-- A statement in the code of a thread. -/
inductive Stmt where
  | set_interrupt_state (state : Bool)
  | sti
  /-- waits until an interrupt has been handled -/
  | hlt
  | yield
  | spin_init
  | spin_lock
  /-- `vsprintf(buf, fmt, args)` in `debugk`, behind `counter++` -/
  | debugk
  /-- `vsprintf(buf, fmt, args)` in the `printk` that `debugk` calls -/
  | printk
  /-- `console_write(buf, i)` in this `printk` -/
  | console_write
  | spin_unlock
  deriving DecidableEq, Repr

/-- What a thread has left to do: statements, and then `while (true)` over a body. -/
structure Code where
  rest : List Stmt
  body : List Stmt
  deriving DecidableEq, Repr

/-- The next statement and the code behind it. -/
def Code.fetch (code : Code) : Option (Stmt × Code) :=
  match code.rest, code.body with
  | stmt :: rest, body => some (stmt, { rest, body })
  | [], stmt :: body => some (stmt, { rest := body, body := stmt :: body })
  | [], [] => none

/-- The macro `LOGK`, between whose statements the clock can interrupt. -/
def LOGK : List Stmt := [.debugk, .printk, .console_write]

def idle_thread : Code where
  rest := [.set_interrupt_state true]
  body := [.sti, .hlt, .yield]

def init_thread : Code where
  rest := [.spin_init, .set_interrupt_state true]
  body := .spin_lock :: LOGK ++ [.spin_unlock]

def test_thread : Code where
  rest := [.set_interrupt_state true]
  body := .spin_lock :: LOGK ++ [.spin_unlock]

/-- The end of `kernel_init`, and the loop of start.asm behind the call of it. -/
def Threads.kernel_init : Code where
  rest := [.set_interrupt_state true]
  body := []

/-- The texts of a run: what `vsprintf` makes of the format and the counter of a task in `debugk`, and of
the text of `debugk` in `printk`. -/
structure Texts (τ : Type) where
  message : τ → u32 → List UInt8
  line : τ → List UInt8 → List UInt8

/-- The kernel with the threads of thread.c: where each task is in its code, its variable `counter`, the
static buffers of debug.c and printk.c, and the lines that `console_write` was called with, the latest
first. -/
structure Threads (τ ℓ : Type) where
  kernel : Kernel τ ℓ
  code : τ → Code
  counter : τ → u32
  debugk_buf : List UInt8
  printk_buf : List UInt8
  console : List (List UInt8)

/-- What happens next: a clock interrupt, one that ends a `hlt`, or the running task going on, in kernel
code or in the code of its thread. -/
inductive Move where
  | clock
  | wake
  | resume
  | stmt
  deriving DecidableEq, Repr

variable [DecidableEq τ] [DecidableEq ℓ]

section Machine

variable (lock : ℓ) (texts : Texts τ)

/-- A statement on the kernel; a `hlt` waits. -/
def Stmt.step (s : Kernel τ ℓ) : Stmt → Option (Kernel τ ℓ)
  | .set_interrupt_state state => onix.step (task_search .TASK_READY) (.call (.set_interrupt_state state)) s
  | .sti => onix.step (task_search .TASK_READY) (.call (.set_interrupt_state true)) s
  | .hlt => none
  | .yield => onix.step (task_search .TASK_READY) (.call .yield) s
  | .spin_init => some (run_kernel (onix.spin_init lock) s)
  | .spin_lock => onix.step (task_search .TASK_READY) (.call (.spin_lock lock)) s
  | .debugk => some s
  | .printk => some s
  | .console_write => some s
  | .spin_unlock => onix.step (task_search .TASK_READY) (.call (.spin_unlock lock)) s

/-- What the statements of `LOGK` do to the counter, the buffers and the screen. -/
def Threads.log (m : Threads τ ℓ) : Stmt → Threads τ ℓ
  | .debugk =>
    { m with
      counter := Function.update m.counter m.kernel.current (m.counter m.kernel.current + 1)
      debugk_buf := texts.message m.kernel.current (m.counter m.kernel.current) }
  | .printk => { m with printk_buf := texts.line m.kernel.current m.debugk_buf }
  | .console_write => { m with console := m.printk_buf :: m.console }
  | _ => m

/-- The statement that the running task is at, when it is in the code of its thread. -/
def Threads.fetch (m : Threads τ ℓ) : Option (Stmt × Code) :=
  match m.kernel.stack m.kernel.current with
  | [] => (m.code m.kernel.current).fetch
  | _ :: _ => none

def Threads.set_code (m : Threads τ ℓ) (code : Code) : Threads τ ℓ :=
  { m with code := Function.update m.code m.kernel.current code }

def Threads.step (m : Threads τ ℓ) : Move → Option (Threads τ ℓ)
  | .clock => (onix.step (task_search .TASK_READY) .clock m.kernel).map fun kernel => { m with kernel }
  | .wake =>
    match m.fetch with
    | some (.hlt, code) =>
      (onix.step (task_search .TASK_READY) .clock m.kernel).map fun kernel => { m.set_code code with kernel }
    | _ => none
  | .resume => (onix.step (task_search .TASK_READY) .resume m.kernel).map fun kernel => { m with kernel }
  | .stmt =>
    match m.fetch with
    | some (stmt, code) =>
      (stmt.step lock m.kernel).map fun kernel => { (m.log texts stmt).set_code code with kernel }
    | none => none

/-- The kernel with a lock in the zeroed memory of the BSS, as it is before `spin_init`. -/
def zero_lock (s : Kernel τ ℓ) : Kernel τ ℓ where
  toCore := s.set_lock lock { holder := none, mutex := { value := false }, «repeat» := 0 }
  node := Function.update (Function.update s.node (.head (.waiters lock)) ⟨none, none⟩)
    (.tail (.waiters lock)) ⟨none, none⟩

/-- The code of the tasks that `task_init` creates, and of the boot code. -/
def threads_code (idle init test t : τ) : Code :=
  if t = idle then idle_thread else if t = init then init_thread else if t = test then test_thread
  else Threads.kernel_init

/-- The threads behind `task_init`. -/
structure Threads.Starts (idle init test : τ) (m : Threads τ ℓ) : Prop where
  kernel : ∃ s, boots idle (shipped_tasks init test) s ∧ m.kernel = zero_lock lock s
  code : m.code = threads_code idle init test
  counter : ∀ t, m.counter t = 0
  console : m.console = []

/-- The states of the runs of the threads, with clock interrupts at any time. -/
abbrev Threads.Reachable (idle init test : τ) : Threads τ ℓ → Prop :=
  Runs.Reach (Threads.Starts lock idle init test) fun m m' => ∃ move, m.step lock texts move = some m'

end Machine

variable {lock : ℓ} {texts : Texts τ} {m m' : Threads τ ℓ}

omit [DecidableEq τ] [DecidableEq ℓ] in
/-- A thread is in its code when it has no kernel code left to return to. -/
theorem Threads.fetch_eq_some {stmt : Stmt} {left : Code} (hfetch : m.fetch = some (stmt, left)) :
    m.kernel.stack m.kernel.current = [] ∧ (m.code m.kernel.current).fetch = some (stmt, left) := by
  unfold Threads.fetch at hfetch
  split at hfetch
  · exact ⟨‹_›, hfetch⟩
  · exact absurd hfetch (by simp)

theorem Threads.step_stmt {stmt : Stmt} {left : Code} {kernel : Kernel τ ℓ} (hfetch : m.fetch = some (stmt, left))
    (hstep : stmt.step lock m.kernel = some kernel) :
    m.step lock texts .stmt = some { (m.log texts stmt).set_code left with kernel } := by
  simp [Threads.step, hfetch, hstep]

/-- What can happen next. -/
inductive Threads.Moves (lock : ℓ) (texts : Texts τ) (m : Threads τ ℓ) : Threads τ ℓ → Prop where
  | kernel {op : Op ℓ} {kernel : Kernel τ ℓ} (hop : op = .clock ∨ op = .resume)
      (hstep : onix.step (task_search .TASK_READY) op m.kernel = some kernel) :
      Moves lock texts m { m with kernel }
  | wake {left : Code} {kernel : Kernel τ ℓ} (hfetch : m.fetch = some (.hlt, left))
      (hstep : onix.step (task_search .TASK_READY) .clock m.kernel = some kernel) :
      Moves lock texts m { m.set_code left with kernel }
  | stmt {stmt : Stmt} {left : Code} {kernel : Kernel τ ℓ} (hfetch : m.fetch = some (stmt, left))
      (hstep : stmt.step lock m.kernel = some kernel) :
      Moves lock texts m { (m.log texts stmt).set_code left with kernel }

theorem Threads.moves {move : Move} (hmove : m.step lock texts move = some m') : m.Moves lock texts m' := by
  cases move with
  | clock =>
    obtain ⟨kernel, hstep, rfl⟩ := Option.map_eq_some_iff.mp hmove
    exact .kernel (.inl rfl) hstep
  | resume =>
    obtain ⟨kernel, hstep, rfl⟩ := Option.map_eq_some_iff.mp hmove
    exact .kernel (.inr rfl) hstep
  | wake =>
    simp only [Threads.step] at hmove
    split at hmove
    · obtain ⟨kernel, hstep, rfl⟩ := Option.map_eq_some_iff.mp hmove
      exact .wake ‹_› hstep
    · exact absurd hmove (by simp)
  | stmt =>
    simp only [Threads.step] at hmove
    split at hmove
    · obtain ⟨kernel, hstep, rfl⟩ := Option.map_eq_some_iff.mp hmove
      exact .stmt ‹_› hstep
    · exact absurd hmove (by simp)

end onix
