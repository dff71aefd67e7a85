import Onix.Kernel.Mutex

namespace onix

variable {τ ℓ : Type} [DecidableEq τ] [DecidableEq ℓ]

section Handlers

variable (search : Core τ ℓ → Option τ)

def sys_test : KernelM τ ℓ Unit := do
  match (← get).gate_task with
  | none => do
    let task ← running_task
    update_core (·.set_gate_task (some task))
    task_block search task none .TASK_BLOCKED
  | some task => do
    task_unblock task
    update_core (·.set_gate_task none)

def clock_handler (vertor : u32) : KernelM τ ℓ Unit := do
  assert .clock_vector (vertor = 0x20)
  task_wakeup
  update_core fun c => { c with jiffies := c.jiffies + 1 }
  let task ← running_task
  assert .clock_magic ((← task_at task).magic = ONIX_MAGIC)
  update_core fun c => c.set_jiffies task c.jiffies
  emit (.tick task (← task_at task).ticks (← task_at task).priority)
  update_core fun c => c.set_ticks task ((c.task task).ticks - 1)
  if (← task_at task).ticks = 0 then schedule search

/-- An interrupt gate saves the interrupt flag in the frame of `iret` and clears it. -/
def interrupt_gate (handler : KernelM τ ℓ Unit) : KernelM τ ℓ Unit := do
  let intr ← interrupt_disable
  push_frame (.iret intr)
  handler

end Handlers

/-- What the code of a thread can call. -/
inductive Call (ℓ : Type) where
  | set_interrupt_state (state : Bool)
  | yield
  | sleep (ms : u32)
  | test
  | mutex_lock (m : ℓ)
  | mutex_unlock (m : ℓ)
  | spin_lock (l : ℓ)
  | spin_unlock (l : ℓ)
  deriving DecidableEq, Repr

/-- One step of the machine: a clock interrupt, a call in the code of the running thread, or
the running task going on with the top frame of its stack. -/
inductive Op (ℓ : Type) where
  | clock
  | call (call : Call ℓ)
  | resume
  deriving DecidableEq, Repr

section Steps

variable (search : Core τ ℓ → Option τ)

def thread_call : Call ℓ → KernelM τ ℓ Unit
  | .set_interrupt_state state => set_interrupt_state state
  | .yield => interrupt_gate (task_yield search)
  | .sleep ms => interrupt_gate (task_sleep search ms)
  | .test => interrupt_gate (sys_test search)
  | .mutex_lock m => mutex_lock search m
  | .mutex_unlock m => mutex_unlock search m
  | .spin_lock l => push_frame (.spin_lock l .test)
  | .spin_unlock l => push_frame (.spin_unlock l .check_holder)

def resume_frame : Frame ℓ → KernelM τ ℓ Unit
  | .iret IF => set_interrupt_state IF
  | .mutex_lock m intr => mutex_lock_loop search m intr true
  | .mutex_unlock intr => set_interrupt_state intr
  | .spin_lock l point => spin_lock search l point
  | .spin_unlock l point => spin_unlock search l point
  | .spin e => throw e

/-- Run kernel code; a failure leaves the running task in the endless loop of `spin`. -/
def run_kernel (x : KernelM τ ℓ Unit) (s : Kernel τ ℓ) : Kernel τ ℓ :=
  match x.run s with
  | .ok _ s' => s'
  | .error e s' => { s' with toCore := s'.push_frame (.spin e) }

/-- The machine step of an operation, where it is enabled. The clock interrupts only while the
interrupt flag is set; the code of a thread runs when no kernel frame is left; the boot code,
which is in no slot of `task_table`, enables interrupts and loops. -/
def step (op : Op ℓ) (s : Kernel τ ℓ) : Option (Kernel τ ℓ) :=
  match op with
  | .clock => if s.IF then some (run_kernel (interrupt_gate (clock_handler search 0x20)) s) else none
  | .call call =>
    if s.stack s.current = [] ∧
        (some s.current ∈ s.task_table ∨ call = .set_interrupt_state true) then
      some (run_kernel (thread_call search call) s)
    else none
  | .resume =>
    match s.stack s.current with
    | [] => none
    | .spin _ :: _ => none
    | f :: _ => some (run_kernel (do update_core (·.pop_frame); resume_frame search f) s)

end Steps

section Boot

/-- The first free slot of `task_table` gets the page. -/
def get_free_task_loop (page : τ) : List (Option τ) → Option (List (Option τ))
  | [] => none
  | none :: slots => some (some page :: slots)
  | some task :: slots => (get_free_task_loop page slots).map (some task :: ·)

/-- `page` is the answer of `alloc_kpage(1)`. -/
def get_free_task (page : τ) : KernelM τ ℓ τ := do
  match get_free_task_loop page (← get).task_table with
  | some task_table =>
    update_core fun c => { c with task_table }
    return page
  | none => throw (.panic .no_more_tasks)

def task_create (page : τ) (priority : u32) : KernelM τ ℓ τ := do
  let task ← get_free_task page
  on_nodes (do set_prev (.node task) none; set_next (.node task) none)
  update_core fun c => c.set_task task
    { state := .TASK_READY, priority, ticks := priority, jiffies := 0, magic := ONIX_MAGIC }
  return task

def task_setup : KernelM τ ℓ Unit := do
  let task ← running_task
  update_core fun c => c.set_task task { c.task task with magic := ONIX_MAGIC, ticks := 1 }
  update_core fun c => { c with task_table := c.task_table.map fun _ => none }

/-- `task_init`, for any pages and any further tasks behind the idle task. -/
def task_init (idle : τ) (tasks : List (τ × u32)) : KernelM τ ℓ Unit := do
  on_nodes (list_init ListPtr.block_list.list)
  on_nodes (list_init ListPtr.sleep_list.list)
  task_setup
  let idel_task ← task_create idle 1
  update_core fun c => { c with idel_task := some idel_task }
  tasks.forM fun (page, priority) => do let _ ← task_create page priority

/-- Memory when `task_init` is called by the boot code on the page `boot`: the task table has
`NR_TASKS` slots, task pages and list nodes hold anything, and every lock is as `spin_init` leaves
it. -/
def cold (NR_TASKS : Nat) (boot : τ) (page : τ → task_t) (node : NodeHeap (NodePtr τ ℓ)) :
    Kernel τ ℓ where
  task_table := List.replicate NR_TASKS none
  idel_task := none
  task := page
  lock := fun _ => { holder := none, mutex := { value := false }, «repeat» := 0 }
  gate_task := none
  jiffies := 0
  current := boot
  IF := false
  stack := fun _ => []
  log := []
  node := fun
    | .head (.waiters m) => { prev := none, next := some (.tail (.waiters m)) }
    | .tail (.waiters m) => { prev := some (.head (.waiters m)), next := none }
    | ptr => node ptr

/-- The tasks behind the idle task that the shipped `task_init` creates. -/
def shipped_tasks (init test : τ) : List (τ × u32) := [(init, 5), (test, 5)]

end Boot

end onix
