import Onix.Kernel.Machine

namespace onix

variable {τ ℓ : Type}

namespace Core

section Definitions

variable [DecidableEq τ] [DecidableEq ℓ]

/-- An interrupt gate: save the interrupt flag on the stack and clear it. -/
def gate (c : Core τ ℓ) : Core τ ℓ := (c.set_IF false).push_frame (.iret c.IF)

/-- `task_wakeup` on one due task. -/
def wake (c : Core τ ℓ) (t : τ) : Core τ ℓ :=
  ((c.set_ticks t 0).emit (.wake t)).set_state t .TASK_READY

/-- `clock_handler` behind `task_wakeup`, up to the test of the slice. -/
def tick (c : Core τ ℓ) : Core τ ℓ :=
  let c := { c with jiffies := c.jiffies + 1 }
  let c := c.set_jiffies c.current c.jiffies
  let c := c.emit (.tick c.current (c.task c.current).ticks (c.task c.current).priority)
  c.set_ticks c.current ((c.task c.current).ticks - 1)

/-- The wake-up time that `task_sleep` computes for the running task. -/
def wake_time (c : Core τ ℓ) (ms : u32) : u32 := c.jiffies + sleep_ticks ms

/-- `task_sleep` on the running task, up to the call of `schedule`. -/
def doze (c : Core τ ℓ) (ms : u32) : Core τ ℓ :=
  ((c.set_ticks c.current (c.wake_time ms)).emit (.sleep c.current (c.wake_time ms))).set_state
    c.current .TASK_SLEEPING

/-- `schedule` once `task_search` has answered `next`. -/
def dispatch (c : Core τ ℓ) (next : τ) : Core τ ℓ :=
  let e := Event.search c.current c.task (some next)
  let c := c.emit e
  let c := if (c.task c.current).state = .TASK_RUNNING then c.set_state c.current .TASK_READY else c
  let c := if (c.task c.current).ticks = 0 then c.set_ticks c.current (c.task c.current).priority else c
  let c := c.set_state next .TASK_RUNNING
  { c with current := next }

def take_mutex (c : Core τ ℓ) (m : ℓ) (intr : Bool) : Core τ ℓ :=
  ((c.set_lock m { c.lock m with mutex := { value := true } }).emit (.acquire c.current m)).set_IF intr

def wait_mutex (c : Core τ ℓ) (m : ℓ) (intr again : Bool) : Core τ ℓ :=
  ((c.emit (.enqueue c.current m again)).push_frame (.mutex_lock m intr)).set_state
    c.current .TASK_BLOCKED

def free_mutex (c : Core τ ℓ) (m : ℓ) (woken : Option τ) : Core τ ℓ :=
  (c.set_lock m { c.lock m with mutex := { value := false } }).emit (.release c.current m woken)

/-- A failed assertion or a fault: the running task spins. -/
def fail (c : Core τ ℓ) (e : Failure) : Core τ ℓ := c.push_frame (.spin e)

/-- The statements of `spin_lock` outside the mutex. -/
def spin_lock_stmt (c : Core τ ℓ) (l : ℓ) : SpinLockPoint → Core τ ℓ
  | .test =>
    if (c.lock l).holder ≠ some c.current then c.push_frame (.spin_lock l .acquire)
    else c.push_frame (.spin_lock l .again)
  | .acquire => c
  | .hold =>
    (c.set_lock l { c.lock l with holder := some c.current }).push_frame (.spin_lock l .check)
  | .check =>
    if (c.lock l).repeat = 0 then c.push_frame (.spin_lock l .set)
    else c.fail (.assertion .spin_lock_repeat)
  | .set => (c.set_lock l { c.lock l with «repeat» := 1 }).emit (.locked c.current l)
  | .again =>
    (c.set_lock l { c.lock l with «repeat» := (c.lock l).repeat + 1 }).emit (.locked c.current l)

/-- The statements of `spin_unlock` outside the mutex. -/
def spin_unlock_stmt (c : Core τ ℓ) (l : ℓ) : SpinUnlockPoint → Core τ ℓ
  | .check_holder =>
    if (c.lock l).holder = some c.current then c.push_frame (.spin_unlock l .test)
    else c.fail (.assertion .spin_unlock_holder)
  | .test =>
    if (c.lock l).repeat > 1 then c.push_frame (.spin_unlock l .drop)
    else c.push_frame (.spin_unlock l .check_repeat)
  | .drop =>
    (c.set_lock l { c.lock l with «repeat» := (c.lock l).repeat - 1 }).emit (.unlocked c.current l)
  | .check_repeat =>
    if (c.lock l).repeat = 1 then c.push_frame (.spin_unlock l .clear_holder)
    else c.fail (.assertion .spin_unlock_repeat)
  | .clear_holder =>
    (c.set_lock l { c.lock l with holder := none }).push_frame (.spin_unlock l .clear_repeat)
  | .clear_repeat =>
    (c.set_lock l { c.lock l with «repeat» := 0 }).push_frame (.spin_unlock l .release)
  | .release => c

/-- `task_wakeup` on several due tasks, the first of the list first. -/
def wakes (c : Core τ ℓ) (ts : List τ) : Core τ ℓ := ts.foldl wake c

end Definitions

section Lemmas

variable [DecidableEq τ] (c : Core τ ℓ)

@[simp] theorem gate_frame :
    c.gate.task_table = c.task_table ∧ c.gate.idel_task = c.idel_task ∧ c.gate.task = c.task ∧
    c.gate.lock = c.lock ∧ c.gate.gate_task = c.gate_task ∧ c.gate.jiffies = c.jiffies ∧
    c.gate.current = c.current ∧ c.gate.IF = false ∧ c.gate.log = c.log ∧
    c.gate.stack = Function.update c.stack c.current (.iret c.IF :: c.stack c.current) :=
  ⟨rfl, rfl, rfl, rfl, rfl, rfl, rfl, rfl, rfl, rfl⟩

@[simp] theorem wake_frame (t : τ) :
    (c.wake t).task_table = c.task_table ∧ (c.wake t).idel_task = c.idel_task ∧
    (c.wake t).lock = c.lock ∧ (c.wake t).gate_task = c.gate_task ∧
    (c.wake t).jiffies = c.jiffies ∧ (c.wake t).current = c.current ∧
    (c.wake t).IF = c.IF ∧ (c.wake t).stack = c.stack ∧ (c.wake t).log = .wake t :: c.log :=
  ⟨rfl, rfl, rfl, rfl, rfl, rfl, rfl, rfl, rfl⟩

@[simp] theorem wake_fields (t u : τ) :
    ((c.wake t).task u).priority = (c.task u).priority ∧
    ((c.wake t).task u).jiffies = (c.task u).jiffies ∧
    ((c.wake t).task u).magic = (c.task u).magic ∧
    ((c.wake t).task u).state = (if u = t then .TASK_READY else (c.task u).state) ∧
    ((c.wake t).task u).ticks = if u = t then 0 else (c.task u).ticks := by
  simp [wake]

@[simp] theorem wakes_nil : c.wakes [] = c := rfl

theorem wakes_cons (t : τ) (ts : List τ) : c.wakes (t :: ts) = (c.wake t).wakes ts := rfl

@[simp] theorem wakes_frame (ts : List τ) :
    (c.wakes ts).task_table = c.task_table ∧ (c.wakes ts).idel_task = c.idel_task ∧
    (c.wakes ts).lock = c.lock ∧ (c.wakes ts).gate_task = c.gate_task ∧
    (c.wakes ts).jiffies = c.jiffies ∧ (c.wakes ts).current = c.current ∧
    (c.wakes ts).IF = c.IF ∧ (c.wakes ts).stack = c.stack := by
  induction ts generalizing c with
  | nil => simp
  | cons t ts ih => simp [wakes_cons, ih]

@[simp] theorem wakes_log (ts : List τ) :
    (c.wakes ts).log = (ts.map Event.wake).reverse ++ c.log := by
  induction ts generalizing c with
  | nil => simp
  | cons t ts ih => simp [wakes_cons, ih]

/-- The woken tasks are ready with `ticks` zero, and no other field changes. -/
@[simp] theorem wakes_fields (ts : List τ) (u : τ) :
    ((c.wakes ts).task u).priority = (c.task u).priority ∧
    ((c.wakes ts).task u).jiffies = (c.task u).jiffies ∧
    ((c.wakes ts).task u).magic = (c.task u).magic ∧
    ((c.wakes ts).task u).state = (if u ∈ ts then .TASK_READY else (c.task u).state) ∧
    ((c.wakes ts).task u).ticks = if u ∈ ts then 0 else (c.task u).ticks := by
  induction ts generalizing c with
  | nil => simp
  | cons t ts ih =>
    simp only [wakes_cons, ih, wake_fields, List.mem_cons, true_and]
    by_cases hts : u ∈ ts <;> by_cases ht : u = t <;> simp [hts, ht]

@[simp] theorem tick_frame :
    c.tick.task_table = c.task_table ∧ c.tick.idel_task = c.idel_task ∧ c.tick.lock = c.lock ∧
    c.tick.gate_task = c.gate_task ∧ c.tick.jiffies = c.jiffies + 1 ∧ c.tick.current = c.current ∧
    c.tick.IF = c.IF ∧ c.tick.stack = c.stack ∧
    c.tick.log = .tick c.current (c.task c.current).ticks (c.task c.current).priority :: c.log := by
  simp [tick]

/-- The running task loses a tick and is stamped with the new `jiffies`. -/
@[simp] theorem tick_fields (u : τ) :
    (c.tick.task u).priority = (c.task u).priority ∧ (c.tick.task u).magic = (c.task u).magic ∧
    (c.tick.task u).state = (c.task u).state ∧
    (c.tick.task u).jiffies = (if u = c.current then c.jiffies + 1 else (c.task u).jiffies) ∧
    (c.tick.task u).ticks = if u = c.current then (c.task u).ticks - 1 else (c.task u).ticks := by
  by_cases hu : u = c.current <;> simp [tick, hu]

@[simp] theorem dispatch_frame (next : τ) :
    (c.dispatch next).task_table = c.task_table ∧ (c.dispatch next).idel_task = c.idel_task ∧
    (c.dispatch next).lock = c.lock ∧ (c.dispatch next).gate_task = c.gate_task ∧
    (c.dispatch next).jiffies = c.jiffies ∧ (c.dispatch next).current = next ∧
    (c.dispatch next).IF = c.IF ∧ (c.dispatch next).stack = c.stack ∧
    (c.dispatch next).log = .search c.current c.task (some next) :: c.log := by
  by_cases hrunning : (c.task c.current).state = .TASK_RUNNING <;>
    by_cases hticks : (c.task c.current).ticks = 0 <;> simp [dispatch, hrunning, hticks]

/-- `schedule` makes the next task running and a running task that gives up the CPU ready, and
refills a used up slice of the task that gives up the CPU. -/
@[simp] theorem dispatch_fields (next u : τ) :
    ((c.dispatch next).task u).priority = (c.task u).priority ∧
    ((c.dispatch next).task u).jiffies = (c.task u).jiffies ∧
    ((c.dispatch next).task u).magic = (c.task u).magic ∧
    ((c.dispatch next).task u).state = (if u = next then .TASK_RUNNING
      else if u = c.current ∧ (c.task u).state = .TASK_RUNNING then .TASK_READY
      else (c.task u).state) ∧
    ((c.dispatch next).task u).ticks =
      if u = c.current ∧ (c.task u).ticks = 0 then (c.task u).priority else (c.task u).ticks := by
  by_cases hu : u = c.current
  · subst hu
    by_cases hrunning : (c.task c.current).state = .TASK_RUNNING <;>
      by_cases hticks : (c.task c.current).ticks = 0 <;> simp [dispatch, hrunning, hticks]
  · by_cases hrunning : (c.task c.current).state = .TASK_RUNNING <;>
      by_cases hticks : (c.task c.current).ticks = 0 <;> simp [dispatch, hrunning, hticks, hu]

/-- The statements of `spin_lock` write the lock, the stack and the log. -/
@[simp] theorem spin_lock_stmt_frame [DecidableEq ℓ] (l : ℓ) (point : SpinLockPoint) :
    (c.spin_lock_stmt l point).task_table = c.task_table ∧
    (c.spin_lock_stmt l point).idel_task = c.idel_task ∧
    (c.spin_lock_stmt l point).task = c.task ∧
    (c.spin_lock_stmt l point).gate_task = c.gate_task ∧
    (c.spin_lock_stmt l point).jiffies = c.jiffies ∧
    (c.spin_lock_stmt l point).current = c.current ∧ (c.spin_lock_stmt l point).IF = c.IF := by
  cases point with
  | test =>
    by_cases hholder : (c.lock l).holder = some c.current <;> simp [spin_lock_stmt, hholder]
  | check => by_cases hrepeat : (c.lock l).repeat = 0 <;> simp [spin_lock_stmt, hrepeat, fail]
  | _ => simp [spin_lock_stmt]

/-- The statements of `spin_unlock` write the lock, the stack and the log. -/
@[simp] theorem spin_unlock_stmt_frame [DecidableEq ℓ] (l : ℓ) (point : SpinUnlockPoint) :
    (c.spin_unlock_stmt l point).task_table = c.task_table ∧
    (c.spin_unlock_stmt l point).idel_task = c.idel_task ∧
    (c.spin_unlock_stmt l point).task = c.task ∧
    (c.spin_unlock_stmt l point).gate_task = c.gate_task ∧
    (c.spin_unlock_stmt l point).jiffies = c.jiffies ∧
    (c.spin_unlock_stmt l point).current = c.current ∧ (c.spin_unlock_stmt l point).IF = c.IF := by
  cases point with
  | check_holder =>
    by_cases hholder : (c.lock l).holder = some c.current <;> simp [spin_unlock_stmt, hholder, fail]
  | test => by_cases hrepeat : (c.lock l).repeat > 1 <;> simp [spin_unlock_stmt, hrepeat]
  | check_repeat =>
    by_cases hrepeat : (c.lock l).repeat = 1 <;> simp [spin_unlock_stmt, hrepeat, fail]
  | _ => simp [spin_unlock_stmt]

@[simp] theorem fail_frame (e : Failure) :
    (c.fail e).task_table = c.task_table ∧ (c.fail e).idel_task = c.idel_task ∧
    (c.fail e).task = c.task ∧ (c.fail e).lock = c.lock ∧ (c.fail e).gate_task = c.gate_task ∧
    (c.fail e).jiffies = c.jiffies ∧ (c.fail e).current = c.current ∧ (c.fail e).IF = c.IF ∧
    (c.fail e).log = c.log ∧
    (c.fail e).stack = Function.update c.stack c.current (.spin e :: c.stack c.current) :=
  ⟨rfl, rfl, rfl, rfl, rfl, rfl, rfl, rfl, rfl, rfl⟩

end Lemmas

end Core

end onix
