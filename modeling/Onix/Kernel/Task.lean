import Onix.Kernel.Core

namespace onix

variable {τ ℓ : Type}

/-- Change everything but the node heap. -/
def update_core (f : Core τ ℓ → Core τ ℓ) : KernelM τ ℓ Unit :=
  modify fun s => { s with toCore := f s.toCore }

/-- Run list code on the node heap of the kernel. -/
def on_nodes {α : Type} (x : ListM (NodePtr τ ℓ) α) : KernelM τ ℓ α :=
  Outcome.zoom (fun s => s.node) (fun node s => { s with node }) x

def emit (e : Event τ ℓ) : KernelM τ ℓ Unit := update_core (·.emit e)

def running_task : KernelM τ ℓ τ := return (← get).current

def get_interrupt_state : KernelM τ ℓ Bool := return (← get).IF

def set_interrupt_state (state : Bool) : KernelM τ ℓ Unit := update_core (·.set_IF state)

def interrupt_disable : KernelM τ ℓ Bool := do
  let intr := (← get).IF
  set_interrupt_state false
  return intr

/-- `element_entry(task_t, node, ptr)`; behind a sentinel there is no task. -/
def element_entry (ptr : NodePtr τ ℓ) : KernelM τ ℓ τ :=
  match ptr with
  | .node t => pure t
  | _ => throw .wild_pointer

/-- The fields of the task at an address. -/
def task_at (t : τ) : KernelM τ ℓ task_t := return (← get).task t

variable [DecidableEq τ]

/-- The loop over the slots of `task_table`; `task` is the best candidate so far. -/
def task_search_loop (tasks : τ → task_t) (state : task_state_t) (current : τ) :
    List (Option τ) → Option τ → Option τ
  | [], task => task
  | none :: slots, task => task_search_loop tasks state current slots task
  | some ptr :: slots, task =>
    if state ≠ (tasks ptr).state then task_search_loop tasks state current slots task
    else if current = ptr then task_search_loop tasks state current slots task
    else
      match task with
      | none => task_search_loop tasks state current slots (some ptr)
      | some t =>
        if (tasks t).ticks < (tasks ptr).ticks ∨ (tasks ptr).jiffies < (tasks t).jiffies then
          task_search_loop tasks state current slots (some ptr)
        else task_search_loop tasks state current slots (some t)

def task_search (state : task_state_t) (c : Core τ ℓ) : Option τ :=
  match task_search_loop c.task state c.current c.task_table none with
  | some task => some task
  | none => if state = .TASK_READY then c.idel_task else none

/-- The saved stack pointer of `next` becomes the current one. -/
def task_switch (next : τ) : KernelM τ ℓ Unit := update_core fun c => { c with current := next }

section Scheduler

/-! The functions that give up the CPU take the search for the next task as a parameter: the
kernel's own is `task_search .TASK_READY`, and what does not depend on its choice is proved for
others as well. -/

variable (search : Core τ ℓ → Option τ)

def schedule : KernelM τ ℓ Unit := do
  assert .schedule_intr (!(← get_interrupt_state))
  let current ← running_task
  assert .task_search_intr (!(← get_interrupt_state))
  let next? := search (← get).toCore
  emit (.search current (← get).task next?)
  match next? with
  | none => throw (.assertion .schedule_next)
  | some next => do
    assert .schedule_magic ((← task_at next).magic = ONIX_MAGIC)
    if (← task_at current).state = .TASK_RUNNING then update_core (·.set_state current .TASK_READY)
    if (← task_at current).ticks = 0 then
      let priority := (← task_at current).priority
      update_core (·.set_ticks current priority)
    update_core (·.set_state next .TASK_RUNNING)
    if next = current then return
    task_switch next

def task_yield : KernelM τ ℓ Unit := schedule search

variable [DecidableEq ℓ]

def task_block (task : τ) (blist : Option (ListPtr ℓ)) (state : task_state_t) : KernelM τ ℓ Unit := do
  assert .task_block_intr (!(← get_interrupt_state))
  assert .task_block_next ((← on_nodes (get_next (.node task))).isNone)
  assert .task_block_prev ((← on_nodes (get_prev (.node task))).isNone)
  let blist := blist.getD .block_list
  on_nodes (list_push (← get).fuel blist.list (.node task))
  assert .task_block_state (state ≠ .TASK_READY ∧ state ≠ .TASK_RUNNING)
  update_core (·.set_state task state)
  if (← running_task) = task then schedule search

def task_unblock (task : τ) : KernelM τ ℓ Unit := do
  assert .task_unblock_intr (!(← get_interrupt_state))
  on_nodes (list_remove (.node task))
  assert .task_unblock_next ((← on_nodes (get_next (.node task))).isNone)
  assert .task_unblock_prev ((← on_nodes (get_prev (.node task))).isNone)
  update_core (·.set_state task .TASK_READY)

def HZ : u32 := 100

def JIFFY : u32 := 1000 / HZ

/-- The milliseconds of one time slice, a variable that nothing assigns. -/
def jiffy : u32 := JIFFY

/-- The number of time slices `task_sleep` asks for: at least one. -/
def sleep_ticks (ms : u32) : u32 :=
  if ms / jiffy > 0 then ms / jiffy else 1

/-- The insertion loop of `task_sleep`: the first sleeper that wakes later, or the tail. -/
def task_sleep_loop (current : τ) : Nat → Option (NodePtr τ ℓ) → KernelM τ ℓ (NodePtr τ ℓ)
  | 0, _ => throw .runaway_loop
  | fuel + 1, ptr =>
    if ptr = some (.tail .sleep_list) then pure (.tail .sleep_list)
    else do
      let cell ← on_nodes (deref ptr)
      let task ← element_entry cell
      if (← task_at task).ticks > (← task_at current).ticks then return cell
      task_sleep_loop current fuel (← on_nodes (get_next cell))

def task_sleep (ms : u32) : KernelM τ ℓ Unit := do
  assert .task_sleep_intr (!(← get_interrupt_state))
  let current ← running_task
  update_core fun c => c.set_ticks current (c.jiffies + sleep_ticks ms)
  let anchor ← task_sleep_loop current (← get).fuel (← on_nodes (get_next (.head .sleep_list)))
  assert .task_sleep_next ((← on_nodes (get_next (.node current))).isNone)
  assert .task_sleep_prev ((← on_nodes (get_prev (.node current))).isNone)
  on_nodes (list_insert_before anchor (.node current))
  emit (.sleep current (← task_at current).ticks)
  update_core (·.set_state current .TASK_SLEEPING)
  schedule search

/-- The loop of `task_wakeup`, which unlinks the node it has just stepped over. -/
def task_wakeup_loop : Nat → Option (NodePtr τ ℓ) → KernelM τ ℓ Unit
  | 0, _ => throw .runaway_loop
  | fuel + 1, ptr =>
    if ptr = some (.tail .sleep_list) then pure ()
    else do
      let cell ← on_nodes (deref ptr)
      let task ← element_entry cell
      if (← task_at task).ticks > (← get).jiffies then return
      let ptr ← on_nodes (get_next cell)
      update_core (·.set_ticks task 0)
      emit (.wake task)
      task_unblock task
      task_wakeup_loop fuel ptr

def task_wakeup : KernelM τ ℓ Unit := do
  assert .task_wakeup_intr (!(← get_interrupt_state))
  task_wakeup_loop (← get).fuel (← on_nodes (get_next (.head .sleep_list)))

end Scheduler

end onix
