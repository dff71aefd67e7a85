import Onix.Kernel.Task

namespace onix

variable {τ ℓ : Type} [DecidableEq τ] [DecidableEq ℓ]

/-- `v++` on a `bool`: one more than either value converts to `true`. -/
def bool_increment (_ : Bool) : Bool := true

/-- `v--` on a `bool`: `true - 1` is zero, `false - 1` is not. -/
def bool_decrement (v : Bool) : Bool := !v

def lock_at (l : ℓ) : KernelM τ ℓ (spinlock_t τ) := return (← get).lock l

def set_value (m : ℓ) (value : Bool) : KernelM τ ℓ Unit :=
  update_core fun c => c.set_lock m { c.lock m with mutex := { value } }

def set_holder (l : ℓ) (holder : Option τ) : KernelM τ ℓ Unit :=
  update_core fun c => c.set_lock l { c.lock l with holder }

def set_repeat (l : ℓ) (n : u32) : KernelM τ ℓ Unit :=
  update_core fun c => c.set_lock l { c.lock l with «repeat» := n }

def push_frame (f : Frame ℓ) : KernelM τ ℓ Unit := update_core (·.push_frame f)

def mutex_init (m : ℓ) : KernelM τ ℓ Unit := do
  set_value m false
  on_nodes (list_init (ListPtr.waiters m).list)

def spin_init (l : ℓ) : KernelM τ ℓ Unit := do
  set_holder l none
  set_repeat l 0
  mutex_init l

variable (search : Core τ ℓ → Option τ)

/-- `mutex_lock` from the test of its while loop on. When the mutex is taken, `task_block` gives
up the CPU, and the frame left behind tests again when the task is resumed. -/
def mutex_lock_loop (m : ℓ) (intr again : Bool) : KernelM τ ℓ Unit := do
  let current ← running_task
  if (← lock_at m).mutex.value = true then
    emit (.enqueue current m again)
    push_frame (.mutex_lock m intr)
    task_block search current (some (.waiters m)) .TASK_BLOCKED
  else
    assert .mutex_lock_free ((← lock_at m).mutex.value = false)
    let value := (← lock_at m).mutex.value
    set_value m (bool_increment value)
    assert .mutex_lock_held ((← lock_at m).mutex.value = true)
    emit (.acquire current m)
    set_interrupt_state intr

def mutex_lock (m : ℓ) : KernelM τ ℓ Unit := do
  let intr ← interrupt_disable
  mutex_lock_loop search m intr false

def mutex_unlock (m : ℓ) : KernelM τ ℓ Unit := do
  let intr ← interrupt_disable
  assert .mutex_unlock_held ((← lock_at m).mutex.value = true)
  let value := (← lock_at m).mutex.value
  set_value m (bool_decrement value)
  assert .mutex_unlock_free ((← lock_at m).mutex.value = false)
  let current ← running_task
  if !(← on_nodes (list_empty (ListPtr.waiters m).list)) then
    let cell ← on_nodes (do deref (← get_prev (.tail (.waiters m))))
    let task ← element_entry cell
    assert .mutex_unlock_magic ((← task_at task).magic = ONIX_MAGIC)
    emit (.release current m (some task))
    task_unblock task
    push_frame (.mutex_unlock intr)
    task_yield search
  else
    emit (.release current m none)
    set_interrupt_state intr

/-- The statement of `spin_lock` at a point; the frame left behind is the next statement. -/
def spin_lock (l : ℓ) (point : SpinLockPoint) : KernelM τ ℓ Unit := do
  let current ← running_task
  match point with
  | .test =>
    if (← lock_at l).holder ≠ some current then push_frame (.spin_lock l .acquire)
    else push_frame (.spin_lock l .again)
  | .acquire =>
    push_frame (.spin_lock l .hold)
    mutex_lock search l
  | .hold =>
    set_holder l (some current)
    push_frame (.spin_lock l .check)
  | .check =>
    assert .spin_lock_repeat ((← lock_at l).repeat = 0)
    push_frame (.spin_lock l .set)
  | .set =>
    set_repeat l 1
    emit (.locked current l)
  | .again =>
    let n := (← lock_at l).repeat
    set_repeat l (n + 1)
    emit (.locked current l)

/-- The statement of `spin_unlock` at a point; the frame left behind is the next statement. -/
def spin_unlock (l : ℓ) (point : SpinUnlockPoint) : KernelM τ ℓ Unit := do
  let current ← running_task
  match point with
  | .check_holder =>
    assert .spin_unlock_holder ((← lock_at l).holder = some current)
    push_frame (.spin_unlock l .test)
  | .test =>
    if (← lock_at l).repeat > 1 then push_frame (.spin_unlock l .drop)
    else push_frame (.spin_unlock l .check_repeat)
  | .drop =>
    let n := (← lock_at l).repeat
    set_repeat l (n - 1)
    emit (.unlocked current l)
  | .check_repeat =>
    assert .spin_unlock_repeat ((← lock_at l).repeat = 1)
    push_frame (.spin_unlock l .clear_holder)
  | .clear_holder =>
    set_holder l none
    push_frame (.spin_unlock l .clear_repeat)
  | .clear_repeat =>
    set_repeat l 0
    push_frame (.spin_unlock l .release)
  | .release =>
    emit (.unlocked current l)
    mutex_unlock search l

end onix
