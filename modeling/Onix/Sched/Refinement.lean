import Onix.Sched.Runs

namespace onix

variable {τ ℓ : Type}

/-- Kernel code that runs with interrupts off until it is done. -/
def Frame.Atomic : Frame ℓ → Prop
  | .iret _ => True
  | .mutex_lock _ _ => True
  | .mutex_unlock _ => True
  | _ => False

/-- The frames are points of `spin_lock`, of `spin_unlock` or of `spin`. -/
def Preemptible (frames : List (Frame ℓ)) : Prop := ∀ f ∈ frames, ¬ f.Atomic

@[simp] theorem preemptible_nil : Preemptible ([] : List (Frame ℓ)) := by simp [Preemptible]

@[simp] theorem preemptible_cons {f : Frame ℓ} {frames : List (Frame ℓ)} :
    Preemptible (f :: frames) ↔ ¬ f.Atomic ∧ Preemptible frames := by
  simp [Preemptible]

namespace Core

/-- The pages in the task table. -/
def tasks (c : Core τ ℓ) : Set τ := {t | some t ∈ c.task_table}

@[simp] theorem mem_tasks {c : Core τ ℓ} {t : τ} : t ∈ c.tasks ↔ some t ∈ c.task_table := Iff.rfl

/-- The running task spins with interrupts off: the machine has no further step. -/
def Stuck (c : Core τ ℓ) : Prop := c.IF = false ∧ ∃ e rest, c.stack c.current = .spin e :: rest

/-- What every state of a run satisfies, whatever its tasks do. -/
structure WF (c : Core τ ℓ) : Prop where
  idle : ∃ idle, c.idel_task = some idle ∧ some idle ∈ c.task_table
  magic : ∀ t, some t ∈ c.task_table → (c.task t).magic = ONIX_MAGIC
  current : (c.task c.current).magic = ONIX_MAGIC
  intr : ∀ f rest, c.stack c.current = f :: rest → f.Atomic → c.IF = false
  shape : ∀ t, Preemptible (c.stack t).tail
  /-- The boot code has made no call yet, and its first clock interrupt ends its slice. -/
  boot : some c.current ∈ c.task_table ∨
    c.stack c.current = [] ∧ (c.task c.current).ticks = 1

end Core

/-- The scheduler always finds a task: it may answer any task of the table. -/
def Sound (search : Core τ ℓ → Option τ) : Prop :=
  ∀ c : Core τ ℓ, (∃ idle, c.idel_task = some idle ∧ some idle ∈ c.task_table) →
    ∃ next, search c = some next ∧ some next ∈ c.task_table

namespace Sched

/-- The queues of an abstract state hold tasks of the table, and `block_list` the task that
gate.c keeps. -/
structure WF (a : Sched τ ℓ) : Prop extends Core.WF a.toCore where
  member : ∀ l t, t ∈ a.queue l → some t ∈ a.task_table
  gate : a.queue .block_list = a.gate_task.toList
  nodup : ∀ l, (a.queue l).Nodup
  disjoint : ∀ l l' t, t ∈ a.queue l → t ∈ a.queue l' → l = l'

end Sched

/-- The kernel state is the abstract state with its queues laid out in the node heap. -/
structure Refines (s : Kernel τ ℓ) (a : Sched τ ℓ) : Prop where
  core : s.toCore = a.toCore
  represents : Represents a.tasks s.node a.queue

section Runs

variable [DecidableEq τ] {s s' : Kernel τ ℓ} {x : KernelM τ ℓ Unit}

theorem run_kernel_of_ok (hx : x.run s = .ok () s') : run_kernel x s = s' := by
  rw [run_kernel, hx]

theorem run_kernel_of_error {e : Failure} (hx : x.run s = .error e s') :
    run_kernel x s = ⟨s'.toCore.fail e, s'.node⟩ := by
  rw [run_kernel, hx]
  rfl

theorem run_kernel_gate : run_kernel (interrupt_gate x) s = run_kernel x ⟨s.toCore.gate, s.node⟩ := rfl

end Runs

section Simulation

variable {search : Core τ ℓ → Option τ} {a : Sched τ ℓ}
  {node : NodeHeap (NodePtr τ ℓ)}

/-- No queue is longer than the task table. -/
theorem Sched.WF.fuel (hwf : a.WF) (l : ListPtr ℓ) : (a.queue l).length < a.fuel := by
  have hsub : (a.queue l).map some ⊆ a.task_table := by
    intro slot hslot
    obtain ⟨t, ht, rfl⟩ := List.mem_map.mp hslot
    exact hwf.member l t ht
  have hnodup : ((a.queue l).map some).Nodup := (hwf.nodup l).map (Option.some_injective τ)
  have hle := (hnodup.subperm hsub).length_le
  rw [List.length_map] at hle
  rw [Core.fuel]
  omega

/-- `schedule` finds a live task wherever the task table and the magic numbers are intact. -/
theorem Sound.dispatchable (hsound : Sound search) {c d : Core τ ℓ} (hwf : c.WF)
    (htable : d.task_table = c.task_table) (hidle : d.idel_task = c.idel_task)
    (hmagic : ∀ t, (d.task t).magic = (c.task t).magic) :
    ∃ next, search d = some next ∧ some next ∈ c.task_table ∧ (d.task next).magic = ONIX_MAGIC := by
  obtain ⟨next, hsearch, hmem⟩ := hsound d (by rw [htable, hidle]; exact hwf.idle)
  rw [htable] at hmem
  exact ⟨next, hsearch, hmem, by rw [hmagic, hwf.magic next hmem]⟩

variable [DecidableEq τ]

/-- The ways into `mutex_lock` only write the stack and the interrupt flag. -/
theorem Core.LockEntry.frame {c d : Core τ ℓ} {op : Op ℓ} {m : ℓ} {intr again : Bool}
    (hentry : c.LockEntry op m intr again d) :
    d.task_table = c.task_table ∧ d.idel_task = c.idel_task ∧ d.task = c.task ∧ d.lock = c.lock ∧
      d.gate_task = c.gate_task ∧ d.jiffies = c.jiffies ∧ d.current = c.current ∧ d.log = c.log := by
  cases hentry <;> simp

theorem Core.UnlockEntry.frame {c d : Core τ ℓ} {op : Op ℓ} {m : ℓ} {intr : Bool}
    (hentry : c.UnlockEntry op m intr d) :
    d.task_table = c.task_table ∧ d.idel_task = c.idel_task ∧ d.task = c.task ∧ d.lock = c.lock ∧
      d.gate_task = c.gate_task ∧ d.jiffies = c.jiffies ∧ d.current = c.current ∧ d.IF = false := by
  cases hentry <;> simp

/-- Only a task of the table gets to the while loop of `mutex_lock`, with interrupts off. -/
theorem Core.LockEntry.enabled {c d : Core τ ℓ} {op : Op ℓ} {m : ℓ} {intr again : Bool}
    (hentry : c.LockEntry op m intr again d) (hwf : c.WF) :
    some c.current ∈ c.task_table ∧ d.IF = false := by
  cases hentry with
  | call hthread => exact ⟨hthread.2, rfl⟩
  | spin hstack => exact ⟨hwf.boot.resolve_right (by simp [hstack]), rfl⟩
  | retry hstack =>
    exact ⟨hwf.boot.resolve_right (by simp [hstack]), hwf.intr _ _ hstack trivial⟩

theorem Core.UnlockEntry.mem {c d : Core τ ℓ} {op : Op ℓ} {m : ℓ} {intr : Bool}
    (hentry : c.UnlockEntry op m intr d) (hwf : c.WF) : some c.current ∈ c.task_table := by
  cases hentry with
  | call hthread => exact hthread.2
  | spin hstack => exact hwf.boot.resolve_right (by simp [hstack])

variable [DecidableEq ℓ]

/-- Some abstract step of the operation ends in a state the kernel state refines. -/
def Simulates (search : Core τ ℓ → Option τ) (a : Sched τ ℓ) (op : Op ℓ) (s : Kernel τ ℓ) : Prop :=
  ∃ b, a.Step search op b ∧ Refines s b

theorem Simulates.stay {op : Op ℓ} {b : Sched τ ℓ} (hact : a.Act op false b)
    (htable : b.task_table = a.task_table) (h : Represents a.tasks node b.queue) :
    Simulates search a op ⟨b.toCore, node⟩ :=
  ⟨b, .stay hact, rfl, by rwa [Core.tasks, htable]⟩

theorem Simulates.switch {op : Op ℓ} {b : Sched τ ℓ} {next : τ} (hact : a.Act op true b)
    (hsearch : search b.toCore = some next) (htable : b.task_table = a.task_table)
    (h : Represents a.tasks node b.queue) : Simulates search a op ⟨b.dispatch next, node⟩ :=
  ⟨⟨b.dispatch next, b.queue⟩, .switch hact hsearch, rfl, by simpa [Core.tasks, htable] using h⟩

theorem clock_simulates (hsound : Sound search) (hwf : a.WF) (h : Represents a.tasks node a.queue)
    (hIF : a.IF = true) :
    Simulates search a .clock
      (run_kernel (interrupt_gate (clock_handler search 0x20)) ⟨a.toCore, node⟩) := by
  obtain ⟨node', hrep, hrun⟩ := clock_handler_run search ⟨a.gate, a.queue⟩ h rfl
    hwf.current hwf.fuel
  rw [run_kernel_gate]
  by_cases hticks : (a.clock.task a.current).ticks = 0
  · obtain ⟨next, hsearch, -, hmagic⟩ := hsound.dispatchable (d := a.clock.toCore) hwf.toWF
      (by simp) (by simp) (by simp)
    have hschedule := schedule_run search node' (c := a.clock.toCore)
      (by simp) hsearch hmagic
    rw [run_kernel_of_ok (hrun.trans ((congrArg (EStateM.run · _) (if_pos hticks)).trans hschedule))]
    exact .switch (.expire hIF hticks) hsearch (by simp) hrep
  · rw [run_kernel_of_ok (hrun.trans (congrArg (EStateM.run · _) (if_neg hticks)))]
    exact .stay (.tick hIF hticks) (by simp) hrep

theorem yield_simulates (hsound : Sound search) (hwf : a.WF) (h : Represents a.tasks node a.queue)
    (hthread : a.Thread) :
    Simulates search a (.call .yield) (run_kernel (thread_call search .yield) ⟨a.toCore, node⟩) := by
  obtain ⟨next, hsearch, -, hmagic⟩ := hsound.dispatchable (d := a.gate) hwf.toWF
    (by simp) (by simp) (by simp)
  have hyield := schedule_run search node rfl hsearch hmagic
  rw [thread_call, run_kernel_gate, task_yield, run_kernel_of_ok hyield]
  exact .switch (.yield hthread) hsearch (by simp) h

theorem sleep_simulates (hsound : Sound search) (hwf : a.WF) (h : Represents a.tasks node a.queue)
    (hthread : a.Thread) (ms : u32) :
    Simulates search a (.call (.sleep ms))
      (run_kernel (thread_call search (.sleep ms)) ⟨a.toCore, node⟩) := by
  rw [thread_call, run_kernel_gate]
  by_cases hfree : a.Free a.current
  · obtain ⟨next, hsearch, -, hmagic⟩ := hsound.dispatchable (d := a.gate.doze ms) hwf.toWF
      (by simp [Core.doze]) (by simp [Core.doze]) (by simp [Core.doze])
    obtain ⟨node', hrep, hsleep⟩ := task_sleep_run (c := a.gate) h rfl hthread.2 hfree hwf.fuel
      hsearch hmagic
    rw [run_kernel_of_ok hsleep]
    exact .switch (b := ⟨_, _⟩) (.sleep hthread hfree) hsearch (by simp) hrep
  · rw [run_kernel_of_error (task_sleep_refused (c := a.gate) h rfl hfree hwf.fuel)]
    exact .stay (b := ⟨_, _⟩) (.sleep_refused hthread hfree) (by simp) h

/-- `sys_test` blocks its first caller, and the next caller takes that one off `block_list`. -/
theorem test_simulates (hsound : Sound search) (hwf : a.WF) (h : Represents a.tasks node a.queue)
    (hthread : a.Thread) :
    Simulates search a (.call .test) (run_kernel (thread_call search .test) ⟨a.toCore, node⟩) := by
  rw [thread_call, run_kernel_gate]
  cases hgate : a.gate_task with
  | none =>
    have hrun : (sys_test search).run ⟨a.gate, node⟩ =
        (task_block search a.current none .TASK_BLOCKED).run
          ⟨a.gate.set_gate_task (some a.current), node⟩ := by
      simp [sys_test, EStateM.run_bind, hgate]
    by_cases hfree : a.Free a.current
    · obtain ⟨next, hsearch, -, hmagic⟩ := hsound.dispatchable
        (d := (a.gate.set_gate_task (some a.current)).set_state a.current .TASK_BLOCKED) hwf.toWF
        (by simp) (by simp) (by simp)
      obtain ⟨node', hrep, hblock⟩ := task_block_run search
        (c := a.gate.set_gate_task (some a.current)) h rfl none .TASK_BLOCKED (by decide) hthread.2 hfree
        hwf.fuel hsearch hmagic
      rw [run_kernel_of_ok (hrun.trans hblock)]
      exact .switch (b := ⟨_, _⟩) (.test_block hthread hgate hfree) hsearch (by simp) hrep
    · have hblock := task_block_refused search (t := a.current)
        (c := a.gate.set_gate_task (some a.current)) h rfl none .TASK_BLOCKED hfree
      rw [run_kernel_of_error (hrun.trans hblock)]
      exact .stay (b := ⟨_, _⟩) (.test_refused hthread hgate hfree) (by simp) h
  | some t =>
    have hmem : t ∈ a.queue .block_list := by simp [hwf.gate, hgate]
    obtain ⟨node', hrep, hunblock⟩ := task_unblock_run (c := a.gate) h rfl hmem
    have hrun : (sys_test search).run ⟨a.gate, node⟩ =
        .ok () ⟨(a.gate.set_state t .TASK_READY).set_gate_task none, node'⟩ := by
      simp [sys_test, EStateM.run_bind, hgate, hunblock]
    rw [run_kernel_of_ok hrun]
    exact .stay (b := ⟨_, _⟩) (.test_wake hthread hgate) (by simp) hrep

theorem mutex_lock_loop_simulates (hsound : Sound search) (hwf : a.WF)
    (h : Represents a.tasks node a.queue) {op : Op ℓ} {m : ℓ} {intr again : Bool} {c : Core τ ℓ}
    (hentry : a.LockEntry op m intr again c) :
    Simulates search a op (run_kernel (mutex_lock_loop search m intr again) ⟨c, node⟩) := by
  obtain ⟨htable, hidle, htask, hlock, -, -, hcurrent, -⟩ := hentry.frame
  obtain ⟨hmem, hIF⟩ := hentry.enabled hwf.toWF
  cases hvalue : (a.lock m).mutex.value with
  | false =>
    rw [run_kernel_of_ok (mutex_lock_loop_take (by rw [hlock, hvalue]))]
    exact .stay (b := ⟨_, _⟩) (.take hentry hvalue) (by simp [htable]) h
  | true =>
    by_cases hfree : a.Free a.current
    · obtain ⟨next, hsearch, -, hmagic⟩ := hsound.dispatchable (d := c.wait_mutex m intr again)
        hwf.toWF (by simp [Core.wait_mutex, htable]) (by simp [Core.wait_mutex, hidle])
        (by simp [Core.wait_mutex, htask])
      have hfuel : ∀ l, (a.queue l).length < c.fuel := fun l => by
        rw [Core.fuel, htable]
        exact hwf.fuel l
      obtain ⟨node', hrep, hwait⟩ := mutex_lock_loop_wait h hIF (by rw [hlock, hvalue])
        (by rw [hcurrent]; exact hmem) (by rw [hcurrent]; exact hfree) hfuel hsearch hmagic
      rw [run_kernel_of_ok hwait]
      rw [hcurrent] at hrep
      exact .switch (b := ⟨_, _⟩) (.wait hentry hvalue hfree) hsearch
        (by simp [htable]) hrep
    · rw [run_kernel_of_error (mutex_lock_loop_refused h hIF (by rw [hlock, hvalue])
        (by rw [hcurrent]; exact hfree))]
      exact .stay (b := ⟨_, _⟩) (.wait_refused hentry hvalue hfree) (by simp [htable]) h

theorem mutex_unlock_simulates (hsound : Sound search) (hwf : a.WF)
    (h : Represents a.tasks node a.queue) {op : Op ℓ} {m : ℓ} {intr : Bool} {c : Core τ ℓ}
    (hentry : a.UnlockEntry op m intr c) {d : Core τ ℓ} (hd : d.IF = intr) (hoff : d.set_IF false = c) :
    Simulates search a op (run_kernel (mutex_unlock search m) ⟨d, node⟩) := by
  subst hd hoff
  obtain ⟨htable, hidle, htask, hlock, -, -, hcurrent, -⟩ := hentry.frame
  simp only [Core.set_IF_frame] at htable hidle htask hlock hcurrent
  cases hvalue : (a.lock m).mutex.value with
  | false =>
    rw [run_kernel_of_error (mutex_unlock_refused (by rw [hlock, hvalue]))]
    exact .stay (b := ⟨_, _⟩) (.release_refused hentry hvalue) (by simp [htable]) h
  | true =>
    rcases List.eq_nil_or_concat (a.queue (.waiters m)) with hempty | ⟨waiters, t, hlast⟩
    · rw [run_kernel_of_ok (mutex_unlock_release h (by rw [hlock, hvalue]) hempty)]
      exact .stay (b := ⟨_, _⟩) (.release hentry hvalue hempty) (by simp [Core.free_mutex, htable]) h
    · rw [List.concat_eq_append] at hlast
      obtain ⟨next, hsearch, -, hmagic⟩ := hsound.dispatchable
        (d := (((d.set_IF false).free_mutex m (some t)).set_state t .TASK_READY).push_frame
          (.mutex_unlock d.IF)) hwf.toWF
        (by simp [Core.free_mutex, htable]) (by simp [Core.free_mutex, hidle])
        (by simp [Core.free_mutex, htask])
      have hwoken := hwf.magic t (hwf.member (.waiters m) t (by simp [hlast]))
      obtain ⟨node', hrep, hhandoff⟩ := mutex_unlock_handoff h (by rw [hlock, hvalue]) hlast
        (by rw [htask]; exact hwoken) hsearch (by simpa [Core.free_mutex] using hmagic)
      rw [run_kernel_of_ok hhandoff]
      exact .switch (b := ⟨_, _⟩) (.handoff hentry hvalue hlast) hsearch
        (by simp [Core.free_mutex, htable]) hrep

/-- The statements of `spin_lock` outside the mutex touch no list. -/
theorem spin_lock_run {c : Core τ ℓ} {l : ℓ} {point : SpinLockPoint} (hpoint : point ≠ .acquire) :
    run_kernel (spin_lock search l point) ⟨c, node⟩ = ⟨c.spin_lock_stmt l point, node⟩ := by
  cases point with
  | acquire => contradiction
  | hold => rfl
  | set => rfl
  | again => rfl
  | test =>
    by_cases hholder : (c.lock l).holder = some c.current <;>
      simp [run_kernel, spin_lock, EStateM.run_bind, Core.spin_lock_stmt, hholder]
  | check =>
    by_cases hrepeat : (c.lock l).repeat = 0 <;>
      simp [run_kernel, spin_lock, EStateM.run_bind, Core.spin_lock_stmt, hrepeat, Core.fail]

/-- The statements of `spin_unlock` outside the mutex touch no list. -/
theorem spin_unlock_run {c : Core τ ℓ} {l : ℓ} {point : SpinUnlockPoint} (hpoint : point ≠ .release) :
    run_kernel (spin_unlock search l point) ⟨c, node⟩ = ⟨c.spin_unlock_stmt l point, node⟩ := by
  cases point with
  | release => contradiction
  | drop => rfl
  | clear_holder => rfl
  | clear_repeat => rfl
  | check_holder =>
    by_cases hholder : (c.lock l).holder = some c.current <;>
      simp [run_kernel, spin_unlock, EStateM.run_bind, Core.spin_unlock_stmt, hholder, Core.fail]
  | test =>
    by_cases hrepeat : (c.lock l).repeat > 1 <;>
      simp [run_kernel, spin_unlock, EStateM.run_bind, Core.spin_unlock_stmt, hrepeat]
  | check_repeat =>
    by_cases hrepeat : (c.lock l).repeat = 1 <;>
      simp [run_kernel, spin_unlock, EStateM.run_bind, Core.spin_unlock_stmt, hrepeat, Core.fail]

theorem call_simulates (hsound : Sound search) (hwf : a.WF) (h : Represents a.tasks node a.queue)
    (hstack : a.stack a.current = []) {call : Call ℓ}
    (hboot : some a.current ∈ a.task_table ∨ call = .set_interrupt_state true) :
    Simulates search a (.call call) (run_kernel (thread_call search call) ⟨a.toCore, node⟩) := by
  by_cases hset : ∃ state, call = .set_interrupt_state state
  · obtain ⟨state, rfl⟩ := hset
    have hact : a.Act (.call (.set_interrupt_state state)) false ⟨a.set_IF state, a.queue⟩ :=
      .set_interrupt_state hstack (by simpa using hboot)
    exact .stay hact rfl h
  have hthread : a.Thread := ⟨hstack, hboot.resolve_right fun heq => hset ⟨true, heq⟩⟩
  cases call with
  | set_interrupt_state state => exact absurd ⟨state, rfl⟩ hset
  | yield => exact yield_simulates hsound hwf h hthread
  | sleep ms => exact sleep_simulates hsound hwf h hthread ms
  | test => exact test_simulates hsound hwf h hthread
  | mutex_lock m =>
    have hlock : run_kernel (thread_call search (.mutex_lock m)) ⟨a.toCore, node⟩ =
        run_kernel (mutex_lock_loop search m a.IF false) ⟨a.set_IF false, node⟩ := by
      simp [run_kernel, thread_call, mutex_lock, EStateM.run_bind]
    rw [hlock]
    exact mutex_lock_loop_simulates hsound hwf h (.call hthread)
  | mutex_unlock m => exact mutex_unlock_simulates hsound hwf h (.call hthread) rfl rfl
  | spin_lock l => exact .stay (b := ⟨_, _⟩) (.call_spin_lock hthread) rfl h
  | spin_unlock l => exact .stay (b := ⟨_, _⟩) (.call_spin_unlock hthread) rfl h

/-- The call of `mutex_lock` in `spin_lock`. -/
theorem spin_lock_acquire_run {c : Core τ ℓ} {m : ℓ} :
    run_kernel (spin_lock search m .acquire) ⟨c, node⟩ = run_kernel (mutex_lock_loop search m c.IF false)
      ⟨(c.push_frame (.spin_lock m .hold)).set_IF false, node⟩ := by
  simp [run_kernel, spin_lock, mutex_lock, EStateM.run_bind]

/-- The call of `mutex_unlock` in `spin_unlock`. -/
theorem spin_unlock_release_run {c : Core τ ℓ} {m : ℓ} :
    run_kernel (spin_unlock search m .release) ⟨c, node⟩ =
      run_kernel (mutex_unlock search m) ⟨c.emit (.unlocked c.current m), node⟩ := by
  simp [run_kernel, spin_unlock, EStateM.run_bind]

theorem resume_simulates (hsound : Sound search) (hwf : a.WF) (h : Represents a.tasks node a.queue)
    {f : Frame ℓ} {rest : List (Frame ℓ)} (hstack : a.stack a.current = f :: rest)
    (hspin : ∀ e, f ≠ .spin e) :
    Simulates search a .resume
      (run_kernel (do update_core (·.pop_frame); resume_frame search f) ⟨a.toCore, node⟩) := by
  have hresume : ∀ x : KernelM τ ℓ Unit, run_kernel (do update_core (·.pop_frame); x) ⟨a.toCore, node⟩ =
      run_kernel x ⟨a.pop_frame, node⟩ := fun _ => rfl
  rw [hresume]
  cases f with
  | iret IF => exact .stay (b := ⟨_, _⟩) (.iret hstack) rfl h
  | mutex_lock m intr => exact mutex_lock_loop_simulates hsound hwf h (.retry hstack)
  | mutex_unlock intr => exact .stay (b := ⟨_, _⟩) (.unlock_return hstack) rfl h
  | spin_lock l point =>
    by_cases hpoint : point = .acquire
    · subst hpoint
      rw [resume_frame, spin_lock_acquire_run]
      exact mutex_lock_loop_simulates hsound hwf h (.spin hstack)
    · rw [resume_frame, spin_lock_run hpoint]
      exact .stay (b := ⟨_, _⟩) (.spin_lock hstack hpoint) (Core.spin_lock_stmt_frame _ l point).1 h
  | spin_unlock l point =>
    by_cases hpoint : point = .release
    · subst hpoint
      rw [resume_frame, spin_unlock_release_run]
      exact mutex_unlock_simulates hsound hwf h (.spin hstack) rfl rfl
    · rw [resume_frame, spin_unlock_run hpoint]
      exact .stay (b := ⟨_, _⟩) (.spin_unlock hstack hpoint) (Core.spin_unlock_stmt_frame _ l point).1 h
  | spin e => exact absurd rfl (hspin e)

/-- Every step of the machine is a step of the abstract kernel. -/
theorem step_refines (hsound : Sound search) (hwf : a.WF) {s s' : Kernel τ ℓ} (href : Refines s a)
    {op : Op ℓ} (hstep : step search op s = some s') : Simulates search a op s' := by
  obtain ⟨c, node⟩ := s
  obtain ⟨hcore, h⟩ := href
  obtain rfl : c = a.toCore := hcore
  cases op with
  | clock =>
    by_cases hIF : a.IF = true
    · obtain rfl : _ = s' := by simpa [step, hIF] using hstep
      exact clock_simulates hsound hwf h hIF
    · simp [step, hIF] at hstep
  | call call =>
    by_cases henabled : a.stack a.current = [] ∧
        (some a.current ∈ a.task_table ∨ call = .set_interrupt_state true)
    · obtain rfl : _ = s' := Option.some.inj ((if_pos henabled).symm.trans hstep)
      exact call_simulates hsound hwf h henabled.1 henabled.2
    · exact absurd ((if_neg henabled).symm.trans hstep) (by simp)
  | resume =>
    cases hstack : a.stack a.current with
    | nil => simp [step, hstack] at hstep
    | cons f rest =>
      by_cases hspin : ∃ e, f = .spin e
      · obtain ⟨e, rfl⟩ := hspin
        simp [step, hstack] at hstep
      · have hresume : step search .resume ⟨a.toCore, node⟩ = some (run_kernel
            (do update_core (·.pop_frame); resume_frame search f) ⟨a.toCore, node⟩) := by
          cases f <;> simp_all [step]
        obtain rfl : _ = s' := Option.some.inj (hresume.symm.trans hstep)
        exact resume_simulates hsound hwf h hstack fun e he => hspin ⟨e, he⟩

end Simulation

end onix
