import Onix.Kernel.State

namespace onix

namespace Core

variable {τ ℓ : Type}

section Frame

/-! What an update of the core leaves unchanged, and what it makes of the field it writes. -/

variable [DecidableEq τ] (c : Core τ ℓ)

@[simp] theorem set_task_frame (t : τ) (v : task_t) :
    (c.set_task t v).task_table = c.task_table ∧ (c.set_task t v).idel_task = c.idel_task ∧
    (c.set_task t v).lock = c.lock ∧ (c.set_task t v).gate_task = c.gate_task ∧
    (c.set_task t v).jiffies = c.jiffies ∧ (c.set_task t v).current = c.current ∧
    (c.set_task t v).IF = c.IF ∧ (c.set_task t v).stack = c.stack ∧
    (c.set_task t v).log = c.log :=
  ⟨rfl, rfl, rfl, rfl, rfl, rfl, rfl, rfl, rfl⟩

@[simp] theorem set_state_frame (t : τ) (state : task_state_t) :
    (c.set_state t state).task_table = c.task_table ∧ (c.set_state t state).idel_task = c.idel_task ∧
    (c.set_state t state).lock = c.lock ∧ (c.set_state t state).gate_task = c.gate_task ∧
    (c.set_state t state).jiffies = c.jiffies ∧ (c.set_state t state).current = c.current ∧
    (c.set_state t state).IF = c.IF ∧ (c.set_state t state).stack = c.stack ∧
    (c.set_state t state).log = c.log :=
  ⟨rfl, rfl, rfl, rfl, rfl, rfl, rfl, rfl, rfl⟩

@[simp] theorem set_ticks_frame (t : τ) (ticks : u32) :
    (c.set_ticks t ticks).task_table = c.task_table ∧ (c.set_ticks t ticks).idel_task = c.idel_task ∧
    (c.set_ticks t ticks).lock = c.lock ∧ (c.set_ticks t ticks).gate_task = c.gate_task ∧
    (c.set_ticks t ticks).jiffies = c.jiffies ∧ (c.set_ticks t ticks).current = c.current ∧
    (c.set_ticks t ticks).IF = c.IF ∧ (c.set_ticks t ticks).stack = c.stack ∧
    (c.set_ticks t ticks).log = c.log :=
  ⟨rfl, rfl, rfl, rfl, rfl, rfl, rfl, rfl, rfl⟩

@[simp] theorem set_jiffies_frame (t : τ) (jiffies : u32) :
    (c.set_jiffies t jiffies).task_table = c.task_table ∧ (c.set_jiffies t jiffies).idel_task = c.idel_task ∧
    (c.set_jiffies t jiffies).lock = c.lock ∧ (c.set_jiffies t jiffies).gate_task = c.gate_task ∧
    (c.set_jiffies t jiffies).jiffies = c.jiffies ∧ (c.set_jiffies t jiffies).current = c.current ∧
    (c.set_jiffies t jiffies).IF = c.IF ∧ (c.set_jiffies t jiffies).stack = c.stack ∧
    (c.set_jiffies t jiffies).log = c.log :=
  ⟨rfl, rfl, rfl, rfl, rfl, rfl, rfl, rfl, rfl⟩

@[simp] theorem push_frame_frame (f : Frame ℓ) :
    (c.push_frame f).task_table = c.task_table ∧ (c.push_frame f).idel_task = c.idel_task ∧
    (c.push_frame f).task = c.task ∧ (c.push_frame f).lock = c.lock ∧
    (c.push_frame f).gate_task = c.gate_task ∧ (c.push_frame f).jiffies = c.jiffies ∧
    (c.push_frame f).current = c.current ∧ (c.push_frame f).IF = c.IF ∧
    (c.push_frame f).log = c.log :=
  ⟨rfl, rfl, rfl, rfl, rfl, rfl, rfl, rfl, rfl⟩

@[simp] theorem pop_frame_frame :
    c.pop_frame.task_table = c.task_table ∧ c.pop_frame.idel_task = c.idel_task ∧
    c.pop_frame.task = c.task ∧ c.pop_frame.lock = c.lock ∧
    c.pop_frame.gate_task = c.gate_task ∧ c.pop_frame.jiffies = c.jiffies ∧
    c.pop_frame.current = c.current ∧ c.pop_frame.IF = c.IF ∧
    c.pop_frame.log = c.log :=
  ⟨rfl, rfl, rfl, rfl, rfl, rfl, rfl, rfl, rfl⟩

omit [DecidableEq τ] in
@[simp] theorem emit_frame (e : Event τ ℓ) :
    (c.emit e).task_table = c.task_table ∧ (c.emit e).idel_task = c.idel_task ∧
    (c.emit e).task = c.task ∧ (c.emit e).lock = c.lock ∧
    (c.emit e).gate_task = c.gate_task ∧ (c.emit e).jiffies = c.jiffies ∧
    (c.emit e).current = c.current ∧ (c.emit e).IF = c.IF ∧
    (c.emit e).stack = c.stack :=
  ⟨rfl, rfl, rfl, rfl, rfl, rfl, rfl, rfl, rfl⟩

omit [DecidableEq τ] in
@[simp] theorem set_IF_frame (state : Bool) :
    (c.set_IF state).task_table = c.task_table ∧ (c.set_IF state).idel_task = c.idel_task ∧
    (c.set_IF state).task = c.task ∧ (c.set_IF state).lock = c.lock ∧
    (c.set_IF state).gate_task = c.gate_task ∧ (c.set_IF state).jiffies = c.jiffies ∧
    (c.set_IF state).current = c.current ∧ (c.set_IF state).stack = c.stack ∧
    (c.set_IF state).log = c.log :=
  ⟨rfl, rfl, rfl, rfl, rfl, rfl, rfl, rfl, rfl⟩

omit [DecidableEq τ] in
@[simp] theorem set_gate_task_frame (task : Option τ) :
    (c.set_gate_task task).task_table = c.task_table ∧ (c.set_gate_task task).idel_task = c.idel_task ∧
    (c.set_gate_task task).task = c.task ∧ (c.set_gate_task task).lock = c.lock ∧
    (c.set_gate_task task).jiffies = c.jiffies ∧ (c.set_gate_task task).current = c.current ∧
    (c.set_gate_task task).IF = c.IF ∧ (c.set_gate_task task).stack = c.stack ∧
    (c.set_gate_task task).log = c.log ∧ (c.set_gate_task task).gate_task = task :=
  ⟨rfl, rfl, rfl, rfl, rfl, rfl, rfl, rfl, rfl, rfl⟩

omit [DecidableEq τ] in
@[simp] theorem set_lock_frame [DecidableEq ℓ] (l : ℓ) (v : spinlock_t τ) :
    (c.set_lock l v).task_table = c.task_table ∧ (c.set_lock l v).idel_task = c.idel_task ∧
    (c.set_lock l v).task = c.task ∧ (c.set_lock l v).gate_task = c.gate_task ∧
    (c.set_lock l v).jiffies = c.jiffies ∧ (c.set_lock l v).current = c.current ∧
    (c.set_lock l v).IF = c.IF ∧ (c.set_lock l v).stack = c.stack ∧
    (c.set_lock l v).log = c.log :=
  ⟨rfl, rfl, rfl, rfl, rfl, rfl, rfl, rfl, rfl⟩

@[simp] theorem push_frame_stack (f : Frame ℓ) :
    (c.push_frame f).stack = Function.update c.stack c.current (f :: c.stack c.current) := rfl

@[simp] theorem pop_frame_stack :
    c.pop_frame.stack = Function.update c.stack c.current (c.stack c.current).tail := rfl

omit [DecidableEq τ] in
@[simp] theorem emit_log (e : Event τ ℓ) : (c.emit e).log = e :: c.log := rfl

omit [DecidableEq τ] in
@[simp] theorem set_IF_IF (state : Bool) : (c.set_IF state).IF = state := rfl

omit [DecidableEq τ] in
@[simp] theorem set_lock_lock [DecidableEq ℓ] (l : ℓ) (v : spinlock_t τ) :
    (c.set_lock l v).lock = Function.update c.lock l v := rfl

end Frame

section Task

/-! The fields of the tasks behind an update of one field of one task. -/

variable [DecidableEq τ] (c : Core τ ℓ) (t u : τ)

theorem set_task_of_ne {t u : τ} (hne : u ≠ t) (v : task_t) : (c.set_task t v).task u = c.task u := by
  simp [set_task, hne]

@[simp] theorem set_task_self (v : task_t) : (c.set_task t v).task t = v := by
  simp [set_task]

theorem set_state_of_ne {t u : τ} (hne : u ≠ t) (state : task_state_t) :
    (c.set_state t state).task u = c.task u :=
  c.set_task_of_ne hne _

theorem set_ticks_of_ne {t u : τ} (hne : u ≠ t) (ticks : u32) :
    (c.set_ticks t ticks).task u = c.task u :=
  c.set_task_of_ne hne _

theorem set_jiffies_of_ne {t u : τ} (hne : u ≠ t) (jiffies : u32) :
    (c.set_jiffies t jiffies).task u = c.task u :=
  c.set_task_of_ne hne _

@[simp] theorem set_state_state (state : task_state_t) :
    ((c.set_state t state).task u).state = if u = t then state else (c.task u).state := by
  by_cases hu : u = t
  · subst hu
    simp [set_state]
  · simp [set_state_of_ne c hu, hu]

@[simp] theorem set_ticks_ticks (ticks : u32) :
    ((c.set_ticks t ticks).task u).ticks = if u = t then ticks else (c.task u).ticks := by
  by_cases hu : u = t
  · subst hu
    simp [set_ticks]
  · simp [set_ticks_of_ne c hu, hu]

@[simp] theorem set_jiffies_jiffies (jiffies : u32) :
    ((c.set_jiffies t jiffies).task u).jiffies = if u = t then jiffies else (c.task u).jiffies := by
  by_cases hu : u = t
  · subst hu
    simp [set_jiffies]
  · simp [set_jiffies_of_ne c hu, hu]

/-- `set_state` writes no other field of a task. -/
@[simp] theorem set_state_fields (state : task_state_t) :
    ((c.set_state t state).task u).priority = (c.task u).priority ∧
    ((c.set_state t state).task u).ticks = (c.task u).ticks ∧
    ((c.set_state t state).task u).jiffies = (c.task u).jiffies ∧
    ((c.set_state t state).task u).magic = (c.task u).magic := by
  by_cases hu : u = t
  · subst hu
    simp [set_state]
  · simp [set_state_of_ne c hu]

/-- `set_ticks` writes no other field of a task. -/
@[simp] theorem set_ticks_fields (ticks : u32) :
    ((c.set_ticks t ticks).task u).priority = (c.task u).priority ∧
    ((c.set_ticks t ticks).task u).state = (c.task u).state ∧
    ((c.set_ticks t ticks).task u).jiffies = (c.task u).jiffies ∧
    ((c.set_ticks t ticks).task u).magic = (c.task u).magic := by
  by_cases hu : u = t
  · subst hu
    simp [set_ticks]
  · simp [set_ticks_of_ne c hu]

/-- `set_jiffies` writes no other field of a task. -/
@[simp] theorem set_jiffies_fields (jiffies : u32) :
    ((c.set_jiffies t jiffies).task u).priority = (c.task u).priority ∧
    ((c.set_jiffies t jiffies).task u).state = (c.task u).state ∧
    ((c.set_jiffies t jiffies).task u).ticks = (c.task u).ticks ∧
    ((c.set_jiffies t jiffies).task u).magic = (c.task u).magic := by
  by_cases hu : u = t
  · subst hu
    simp [set_jiffies]
  · simp [set_jiffies_of_ne c hu]

end Task

end Core

end onix
