import Onix.List.Ops

namespace onix

abbrev u32 := UInt32

def ONIX_MAGIC : u32 := 0x20231209

inductive task_state_t where
  | TASK_INIT
  | TASK_RUNNING
  | TASK_READY
  | TASK_BLOCKED
  | TASK_SLEEPING
  | TASK_WAITING
  | TASK_DIED
  deriving DecidableEq, Repr

/-- The fields of `task_t` the scheduler reads. The embedded `node` is a cell of the node heap,
and the stack pointer is replaced by the frames of `Core.stack`. -/
structure task_t where
  state : task_state_t
  priority : u32
  ticks : u32
  jiffies : u32
  magic : u32
  deriving DecidableEq, Repr

/-- `mutex_t` without its `waiters`, which is the list `ListPtr.waiters`. -/
structure mutex_t where
  value : Bool
  deriving DecidableEq, Repr

/-- `spinlock_t`; a task pointer is an address in `τ`, and `none` is `NULL`. -/
structure spinlock_t (τ : Type) where
  holder : Option τ
  mutex : mutex_t
  «repeat» : u32
  deriving DecidableEq, Repr

/-- The lists of the kernel: `block_list`, `sleep_list` and the waiters of each mutex. -/
inductive ListPtr (ℓ : Type) where
  | block_list
  | sleep_list
  | waiters (m : ℓ)
  deriving DecidableEq, Repr

/-- The addresses of list nodes: the node in a task page and the sentinels of each list. -/
inductive NodePtr (τ ℓ : Type) where
  | node (t : τ)
  | head (list : ListPtr ℓ)
  | tail (list : ListPtr ℓ)
  deriving DecidableEq, Repr

def ListPtr.list {τ ℓ : Type} (l : ListPtr ℓ) : list_t (NodePtr τ ℓ) :=
  { head := .head l, tail := .tail l }

/-- The statements of `spin_lock`, at each of which a task can be preempted. -/
inductive SpinLockPoint where
  /-- `if (lock->holder != current)` -/
  | test
  /-- `mutex_lock(&lock->mutex)` -/
  | acquire
  /-- `lock->holder = current` -/
  | hold
  /-- `assert(lock->repeat == 0)` -/
  | check
  /-- `lock->repeat = 1` -/
  | set
  /-- `lock->repeat++` -/
  | again
  deriving DecidableEq, Repr

/-- The statements of `spin_unlock`, at each of which a task can be preempted. -/
inductive SpinUnlockPoint where
  /-- `assert(lock->holder == current)` -/
  | check_holder
  /-- `if (lock->repeat > 1)` -/
  | test
  /-- `lock->repeat--; return` -/
  | drop
  /-- `assert(lock->repeat == 1)` -/
  | check_repeat
  /-- `lock->holder = NULL` -/
  | clear_holder
  /-- `lock->repeat = 0` -/
  | clear_repeat
  /-- `mutex_unlock(&lock->mutex)` -/
  | release
  deriving DecidableEq, Repr

/-- What a task does next when it is given the CPU: a point of kernel code on its own stack.
A task with an empty stack runs the code of its thread. -/
inductive Frame (ℓ : Type) where
  /-- return from an interrupt gate, restoring the saved interrupt flag -/
  | iret (IF : Bool)
  /-- in the while loop of `mutex_lock`, behind the call of `task_block` -/
  | mutex_lock (m : ℓ) (intr : Bool)
  /-- in `mutex_unlock`, behind the call of `task_yield` -/
  | mutex_unlock (intr : Bool)
  | spin_lock (l : ℓ) (point : SpinLockPoint)
  | spin_unlock (l : ℓ) (point : SpinUnlockPoint)
  /-- the endless loop of `spin` in assert.c -/
  | spin (e : Failure)
  deriving DecidableEq, Repr

/-- Observations of a run. The log is a history variable: no modelled function reads it. -/
inductive Event (τ ℓ : Type) where
  /-- `schedule` was called by `current` on these tasks, and `task_search` answered `next` -/
  | search (current : τ) (task : τ → task_t) (next : Option τ)
  /-- `clock_handler` is about to decrement `ticks` of the running task -/
  | tick (t : τ) (ticks priority : u32)
  /-- `task_sleep` put the task on `sleep_list` with this wake-up time -/
  | sleep (t : τ) (ticks : u32)
  /-- `task_wakeup` takes the task off `sleep_list` -/
  | wake (t : τ)
  /-- `mutex_lock` puts the task on `waiters`; `again` on every turn of the loop but the first -/
  | enqueue (t : τ) (m : ℓ) (again : Bool)
  /-- `mutex_lock` took the mutex for the task -/
  | acquire (t : τ) (m : ℓ)
  /-- `mutex_unlock` released the mutex and took `woken` off `waiters` -/
  | release (t : τ) (m : ℓ) (woken : Option τ)
  /-- a `spin_lock` call of the task returned -/
  | locked (t : τ) (l : ℓ)
  /-- a `spin_unlock` call of the task gave one nesting level back -/
  | unlocked (t : τ) (l : ℓ)

/-- Events of a task on mutexes and spin locks. -/
def Event.OfLock {τ ℓ : Type} (t : τ) : Event τ ℓ → Prop
  | .enqueue u _ _ => u = t
  | .acquire u _ => u = t
  | .release u _ _ => u = t
  | .locked u _ => u = t
  | .unlocked u _ => u = t
  | _ => False

/-- Events that are neither a call of `schedule` nor a clock interrupt. -/
def Event.Silent {τ ℓ : Type} : Event τ ℓ → Prop
  | .search _ _ _ => False
  | .tick _ _ _ => False
  | _ => True

theorem Event.OfLock.silent {τ ℓ : Type} {t : τ} {e : Event τ ℓ} (he : e.OfLock t) : e.Silent := by
  cases e <;> first | exact he.elim | trivial

/-- Everything but the node heap. -/
structure Core (τ ℓ : Type) where
  task_table : List (Option τ)
  idel_task : Option τ
  task : τ → task_t
  lock : ℓ → spinlock_t τ
  /-- the variable `task` of gate.c -/
  gate_task : Option τ
  jiffies : u32
  /-- the page that the stack pointer is in, as `running_task` computes it -/
  current : τ
  IF : Bool
  stack : τ → List (Frame ℓ)
  log : List (Event τ ℓ)

structure Kernel (τ ℓ : Type) extends Core τ ℓ where
  node : NodeHeap (NodePtr τ ℓ)

abbrev KernelM (τ ℓ : Type) := EStateM Failure (Kernel τ ℓ)

namespace Core

variable {τ ℓ : Type} [DecidableEq τ]

def set_task (c : Core τ ℓ) (t : τ) (v : task_t) : Core τ ℓ :=
  { c with task := Function.update c.task t v }

def set_state (c : Core τ ℓ) (t : τ) (state : task_state_t) : Core τ ℓ :=
  c.set_task t { c.task t with state }

def set_ticks (c : Core τ ℓ) (t : τ) (ticks : u32) : Core τ ℓ :=
  c.set_task t { c.task t with ticks }

def set_jiffies (c : Core τ ℓ) (t : τ) (jiffies : u32) : Core τ ℓ :=
  c.set_task t { c.task t with jiffies }

def push_frame (c : Core τ ℓ) (f : Frame ℓ) : Core τ ℓ :=
  { c with stack := Function.update c.stack c.current (f :: c.stack c.current) }

def pop_frame (c : Core τ ℓ) : Core τ ℓ :=
  { c with stack := Function.update c.stack c.current (c.stack c.current).tail }

omit [DecidableEq τ] in
def emit (c : Core τ ℓ) (e : Event τ ℓ) : Core τ ℓ := { c with log := e :: c.log }

omit [DecidableEq τ] in
def set_IF (c : Core τ ℓ) (state : Bool) : Core τ ℓ := { c with IF := state }

omit [DecidableEq τ] in
def set_gate_task (c : Core τ ℓ) (task : Option τ) : Core τ ℓ := { c with gate_task := task }

omit [DecidableEq τ] in
def set_lock [DecidableEq ℓ] (c : Core τ ℓ) (l : ℓ) (v : spinlock_t τ) : Core τ ℓ :=
  { c with lock := Function.update c.lock l v }

/-- More turns than a pointer loop over task nodes can make. -/
def fuel (c : Core τ ℓ) : Nat := c.task_table.length + 1

end Core

end onix
