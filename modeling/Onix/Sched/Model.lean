import Onix.Sched.Effects

namespace onix

variable {τ ℓ : Type} [DecidableEq τ] [DecidableEq ℓ]

namespace Core

/-- The running task is in the code of its thread. -/
def Thread (c : Core τ ℓ) : Prop := c.stack c.current = [] ∧ some c.current ∈ c.task_table

/-- The ways into the loop of `mutex_lock`: a call in thread code, the call in `spin_lock`, or
the return of `task_block` to a task that has been taken off the waiters. -/
inductive LockEntry (c : Core τ ℓ) : Op ℓ → ℓ → Bool → Bool → Core τ ℓ → Prop where
  | call {m : ℓ} (hthread : c.Thread) :
      LockEntry c (.call (.mutex_lock m)) m c.IF false (c.set_IF false)
  | spin {m : ℓ} {rest : List (Frame ℓ)} (hstack : c.stack c.current = .spin_lock m .acquire :: rest) :
      LockEntry c .resume m c.IF false ((c.pop_frame.push_frame (.spin_lock m .hold)).set_IF false)
  | retry {m : ℓ} {intr : Bool} {rest : List (Frame ℓ)}
      (hstack : c.stack c.current = .mutex_lock m intr :: rest) :
      LockEntry c .resume m intr true c.pop_frame

/-- The ways into `mutex_unlock`. -/
inductive UnlockEntry (c : Core τ ℓ) : Op ℓ → ℓ → Bool → Core τ ℓ → Prop where
  | call {m : ℓ} (hthread : c.Thread) :
      UnlockEntry c (.call (.mutex_unlock m)) m c.IF (c.set_IF false)
  | spin {m : ℓ} {rest : List (Frame ℓ)} (hstack : c.stack c.current = .spin_unlock m .release :: rest) :
      UnlockEntry c .resume m c.IF ((c.pop_frame.emit (.unlocked c.current m)).set_IF false)

end Core

/-- The abstract kernel: every list of the kernel is the sequence of its tasks, head first. -/
structure Sched (τ ℓ : Type) extends Core τ ℓ where
  queue : ListPtr ℓ → List τ

namespace Sched

/-- The task is in no list. -/
def Free (a : Sched τ ℓ) (t : τ) : Prop := ∀ l, t ∉ a.queue l

/-- The sleepers `task_wakeup` wakes: it stops at the first that is not due. -/
def due (a : Sched τ ℓ) : List τ :=
  (a.queue .sleep_list).takeWhile fun t => (a.task t).ticks ≤ a.jiffies

def asleep (a : Sched τ ℓ) : List τ :=
  (a.queue .sleep_list).dropWhile fun t => (a.task t).ticks ≤ a.jiffies

def wakeup (a : Sched τ ℓ) : Sched τ ℓ where
  toCore := a.toCore.wakes a.due
  queue := Function.update a.queue .sleep_list a.asleep

def clock (a : Sched τ ℓ) : Sched τ ℓ :=
  let a := { a with toCore := a.gate }.wakeup
  { a with toCore := a.tick }

section Clock

variable (a : Sched τ ℓ)

@[simp] theorem clock_frame :
    a.clock.task_table = a.task_table ∧ a.clock.idel_task = a.idel_task ∧ a.clock.lock = a.lock ∧
    a.clock.gate_task = a.gate_task ∧ a.clock.jiffies = a.jiffies + 1 ∧
    a.clock.current = a.current ∧ a.clock.IF = false ∧
    a.clock.stack = Function.update a.stack a.current (.iret a.IF :: a.stack a.current) ∧
    a.clock.queue = Function.update a.queue .sleep_list a.asleep := by
  refine ⟨?_, ?_, ?_, ?_, ?_, ?_, ?_, ?_, rfl⟩ <;> simp [clock, wakeup]

/-- The due sleepers are ready with `ticks` zero, and the running task loses a tick. -/
@[simp] theorem clock_fields (u : τ) :
    (a.clock.task u).priority = (a.task u).priority ∧ (a.clock.task u).magic = (a.task u).magic ∧
    (a.clock.task u).state = (if u ∈ a.due then .TASK_READY else (a.task u).state) ∧
    (a.clock.task u).jiffies = (if u = a.current then a.jiffies + 1 else (a.task u).jiffies) ∧
    (a.clock.task u).ticks = (if u ∈ a.due then 0 else (a.task u).ticks) -
      if u = a.current then 1 else 0 := by
  have hdue : due { a with toCore := a.gate } = a.due := rfl
  by_cases hu : u = a.current <;> simp [clock, wakeup, hdue, hu]

theorem clock_log :
    a.clock.log = .tick a.current (if a.current ∈ a.due then 0 else (a.task a.current).ticks)
      (a.task a.current).priority :: ((a.due.map Event.wake).reverse ++ a.log) := by
  have hdue : due { a with toCore := a.gate } = a.due := rfl
  simp [clock, wakeup, hdue]

omit [DecidableEq τ] [DecidableEq ℓ] in
theorem due_subset {t : τ} (ht : t ∈ a.due) : t ∈ a.queue .sleep_list :=
  List.takeWhile_subset _ ht

omit [DecidableEq τ] [DecidableEq ℓ] in
theorem asleep_subset {t : τ} (ht : t ∈ a.asleep) : t ∈ a.queue .sleep_list :=
  (List.dropWhile_sublist _).subset ht

end Clock

/-- The sleep list with a task put in front of the first that wakes later than `ticks`. -/
def insert_sleeper (a : Sched τ ℓ) (t : τ) (ticks : u32) : List τ :=
  (a.queue .sleep_list).takeWhile (fun u => (a.task u).ticks ≤ ticks) ++
    t :: (a.queue .sleep_list).dropWhile (fun u => (a.task u).ticks ≤ ticks)

/-- What an operation does up to its call of `schedule`, and whether it makes that call. -/
inductive Act (a : Sched τ ℓ) : Op ℓ → Bool → Sched τ ℓ → Prop where
  | tick (hIF : a.IF = true) (hticks : (a.clock.task a.current).ticks ≠ 0) : Act a .clock false a.clock
  | expire (hIF : a.IF = true) (hticks : (a.clock.task a.current).ticks = 0) : Act a .clock true a.clock
  | set_interrupt_state {state : Bool} (hstack : a.stack a.current = [])
      (hboot : some a.current ∈ a.task_table ∨ state = true) :
      Act a (.call (.set_interrupt_state state)) false ⟨a.set_IF state, a.queue⟩
  | yield (hthread : a.Thread) : Act a (.call .yield) true ⟨a.gate, a.queue⟩
  | sleep {ms : u32} (hthread : a.Thread) (hfree : a.Free a.current) :
      Act a (.call (.sleep ms)) true ⟨a.gate.doze ms,
        Function.update a.queue .sleep_list (a.insert_sleeper a.current (a.wake_time ms))⟩
  | sleep_refused {ms : u32} (hthread : a.Thread) (hlinked : ¬ a.Free a.current) :
      Act a (.call (.sleep ms)) false
        ⟨(a.gate.set_ticks a.current (a.wake_time ms)).fail (.assertion .task_sleep_next), a.queue⟩
  | test_block (hthread : a.Thread) (hgate : a.gate_task = none) (hfree : a.Free a.current) :
      Act a (.call .test) true
        ⟨(a.gate.set_gate_task (some a.current)).set_state a.current .TASK_BLOCKED,
          Function.update a.queue .block_list (a.current :: a.queue .block_list)⟩
  | test_refused (hthread : a.Thread) (hgate : a.gate_task = none) (hlinked : ¬ a.Free a.current) :
      Act a (.call .test) false
        ⟨(a.gate.set_gate_task (some a.current)).fail (.assertion .task_block_next), a.queue⟩
  | test_wake {t : τ} (hthread : a.Thread) (hgate : a.gate_task = some t) :
      Act a (.call .test) false
        ⟨(a.gate.set_state t .TASK_READY).set_gate_task none,
          Function.update a.queue .block_list ((a.queue .block_list).erase t)⟩
  | take {op : Op ℓ} {m : ℓ} {intr again : Bool} {c : Core τ ℓ}
      (hentry : a.LockEntry op m intr again c) (hvalue : (a.lock m).mutex.value = false) :
      Act a op false ⟨c.take_mutex m intr, a.queue⟩
  | wait {op : Op ℓ} {m : ℓ} {intr again : Bool} {c : Core τ ℓ}
      (hentry : a.LockEntry op m intr again c) (hvalue : (a.lock m).mutex.value = true)
      (hfree : a.Free a.current) :
      Act a op true ⟨c.wait_mutex m intr again,
        Function.update a.queue (.waiters m) (a.current :: a.queue (.waiters m))⟩
  | wait_refused {op : Op ℓ} {m : ℓ} {intr again : Bool} {c : Core τ ℓ}
      (hentry : a.LockEntry op m intr again c) (hvalue : (a.lock m).mutex.value = true)
      (hlinked : ¬ a.Free a.current) :
      Act a op false ⟨((c.emit (.enqueue c.current m again)).push_frame (.mutex_lock m intr)).fail
        (.assertion .task_block_next), a.queue⟩
  | release_refused {op : Op ℓ} {m : ℓ} {intr : Bool} {c : Core τ ℓ}
      (hentry : a.UnlockEntry op m intr c) (hvalue : (a.lock m).mutex.value = false) :
      Act a op false ⟨c.fail (.assertion .mutex_unlock_held), a.queue⟩
  | release {op : Op ℓ} {m : ℓ} {intr : Bool} {c : Core τ ℓ}
      (hentry : a.UnlockEntry op m intr c) (hvalue : (a.lock m).mutex.value = true)
      (hempty : a.queue (.waiters m) = []) :
      Act a op false ⟨(c.free_mutex m none).set_IF intr, a.queue⟩
  | handoff {op : Op ℓ} {m : ℓ} {intr : Bool} {c : Core τ ℓ} {waiters : List τ} {t : τ}
      (hentry : a.UnlockEntry op m intr c) (hvalue : (a.lock m).mutex.value = true)
      (hlast : a.queue (.waiters m) = waiters ++ [t]) :
      Act a op true
        ⟨((c.free_mutex m (some t)).set_state t .TASK_READY).push_frame (.mutex_unlock intr),
          Function.update a.queue (.waiters m) waiters⟩
  | iret {IF : Bool} {rest : List (Frame ℓ)} (hstack : a.stack a.current = .iret IF :: rest) :
      Act a .resume false ⟨a.pop_frame.set_IF IF, a.queue⟩
  | unlock_return {intr : Bool} {rest : List (Frame ℓ)}
      (hstack : a.stack a.current = .mutex_unlock intr :: rest) :
      Act a .resume false ⟨a.pop_frame.set_IF intr, a.queue⟩
  | call_spin_lock {l : ℓ} (hthread : a.Thread) :
      Act a (.call (.spin_lock l)) false ⟨a.push_frame (.spin_lock l .test), a.queue⟩
  | call_spin_unlock {l : ℓ} (hthread : a.Thread) :
      Act a (.call (.spin_unlock l)) false ⟨a.push_frame (.spin_unlock l .check_holder), a.queue⟩
  | spin_lock {l : ℓ} {point : SpinLockPoint} {rest : List (Frame ℓ)}
      (hstack : a.stack a.current = .spin_lock l point :: rest) (hpoint : point ≠ .acquire) :
      Act a .resume false ⟨a.pop_frame.spin_lock_stmt l point, a.queue⟩
  | spin_unlock {l : ℓ} {point : SpinUnlockPoint} {rest : List (Frame ℓ)}
      (hstack : a.stack a.current = .spin_unlock l point :: rest) (hpoint : point ≠ .release) :
      Act a .resume false ⟨a.pop_frame.spin_unlock_stmt l point, a.queue⟩

/-- A clock interrupt comes with interrupts on, and ends the slice at its last tick. -/
theorem Act.of_clock {a b : Sched τ ℓ} {calls : Bool} (hact : a.Act .clock calls b) :
    a.IF = true ∧ b = a.clock ∧ (calls = true ↔ (a.clock.task a.current).ticks = 0) := by
  cases hact with
  | tick hIF hticks => exact ⟨hIF, rfl, by simpa using hticks⟩
  | expire hIF hticks => exact ⟨hIF, rfl, by simpa using hticks⟩
  | take hentry hvalue => cases hentry
  | wait hentry hvalue hfree => cases hentry
  | wait_refused hentry hvalue hlinked => cases hentry
  | release_refused hentry hvalue => cases hentry
  | release hentry hvalue hempty => cases hentry
  | handoff hentry hvalue hlast => cases hentry

/-- A step of the abstract kernel: an act, and the dispatch of the chosen task if it gives up
the CPU. -/
inductive Step (search : Core τ ℓ → Option τ) (a : Sched τ ℓ) (op : Op ℓ) : Sched τ ℓ → Prop where
  | stay {b : Sched τ ℓ} (hact : Act a op false b) : Step search a op b
  | switch {b : Sched τ ℓ} {next : τ} (hact : Act a op true b)
      (hsearch : search b.toCore = some next) : Step search a op ⟨b.dispatch next, b.queue⟩

end Sched

end onix
