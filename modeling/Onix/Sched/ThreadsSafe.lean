import Onix.Sched.ThreadsTracked

open ReentrantLock

namespace DoublyLinked

/-- The sentinels of an empty list. -/
theorem Deque.empty_cells {α : Type} {h : α → Link α} {head tail : α} (d : Deque h head tail []) :
    h head = ⟨none, some tail⟩ ∧ h tail = ⟨some head, none⟩ := by
  obtain ⟨hnext, hprev⟩ : Linked h head tail := by simpa [Path] using d.path
  have hfirst := d.first
  have hlast := d.last
  constructor
  · rw [← hfirst, ← hnext]
  · rw [← hprev, ← hlast]

end DoublyLinked

namespace onix

variable {τ ℓ : Type} [DecidableEq τ] [DecidableEq ℓ]

section Boot

variable {idle : τ} {tasks : List (τ × u32)} {s : Kernel τ ℓ} {lock : ℓ}

/-- What `task_init` leaves behind. -/
theorem boots.booting (hboots : boots idle tasks s) : ∃ boot free, (boot :: idle :: tasks.map Prod.fst).Nodup ∧
    s.idel_task = some idle ∧ Booting boot ((idle, 1) :: tasks) free s := by
  obtain ⟨NR_TASKS, boot, page, node, hnodup, hslots, hrun⟩ := hboots
  obtain ⟨s', hrun', hidle, hboot⟩ := task_init_run page node hnodup hslots
  obtain rfl : s' = s := by
    rw [hrun] at hrun'
    cases hrun'
    rfl
  exact ⟨boot, _, hnodup, hidle, hboot⟩

/-- The fields of a lock are as `spin_init` leaves them. -/
def Core.Unlocked (c : Core τ ℓ) (lock : ℓ) : Prop :=
  c.lock lock = { holder := none, mutex := { value := false }, «repeat» := 0 }

omit [DecidableEq τ] in
theorem set_lock_unlocked {c : Core τ ℓ} (h : c.Unlocked lock) :
    c.set_lock lock { holder := none, mutex := { value := false }, «repeat» := 0 } = c := by
  rw [Core.set_lock, ← h, Function.update_eq_self]

/-- In the zeroed memory of the BSS only the waiters of a lock are not as `spin_init` leaves them. -/
theorem zero_lock_core (h : s.Unlocked lock) : zero_lock lock s = ⟨s.toCore, (zero_lock lock s).node⟩ := by
  conv_lhs => rw [zero_lock, set_lock_unlocked h]
  rfl

theorem zero_lock_node {ptr : NodePtr τ ℓ} (hhead : ptr ≠ .head (.waiters lock)) (htail : ptr ≠ .tail (.waiters lock)) :
    (zero_lock lock s).node ptr = s.node ptr := by
  dsimp only [zero_lock]
  rw [Function.update_of_ne htail, Function.update_of_ne hhead]

/-- `spin_init` makes the lock in zeroed memory one with no waiters. -/
theorem spin_init_zero_lock (h : s.Unlocked lock)
    (hhead : s.node (.head (.waiters lock)) = ⟨none, some (.tail (.waiters lock))⟩)
    (htail : s.node (.tail (.waiters lock)) = ⟨some (.head (.waiters lock)), none⟩) :
    run_kernel (spin_init lock) (zero_lock lock s) = s := by
  rw [zero_lock_core h, run_kernel_of_ok (spin_init_run lock _)]
  dsimp only
  rw [set_lock_unlocked h]
  congr 1
  funext ptr
  by_cases htail' : ptr = .tail (.waiters lock)
  · rw [htail', htail, Function.update_self]
  · rw [Function.update_of_ne htail']
    by_cases hhead' : ptr = .head (.waiters lock)
    · rw [hhead', hhead, Function.update_self]
    · rw [Function.update_of_ne hhead', zero_lock_node hhead' htail']

end Boot

/-- A clock interrupt at the last tick of the running task, while no task sleeps. -/
theorem step_clock_last {search : Core τ ℓ → Option τ} {c : Core τ ℓ} {node : NodeHeap (NodePtr τ ℓ)} {next : τ}
    (hIF : c.IF = true) (hsleep : (node (.head .sleep_list)).next = some (.tail .sleep_list))
    (hmagic : (c.task c.current).magic = ONIX_MAGIC) (hticks : (c.task c.current).ticks = 1)
    (hsearch : search c.gate.tick = some next) (hnext : (c.task next).magic = ONIX_MAGIC) :
    step search .clock ⟨c, node⟩ = some ⟨c.gate.tick.dispatch next, node⟩ := by
  have hschedule := schedule_run search node (c := c.gate.tick) rfl hsearch (by simpa using hnext)
  have hwakeup : task_wakeup.run ⟨c.gate, node⟩ = .ok () ⟨c.gate, node⟩ := by
    simp [task_wakeup, EStateM.run_bind, hsleep, Core.fuel, task_wakeup_loop]
  have hrun : (interrupt_gate (clock_handler search 0x20)).run ⟨c, node⟩ =
      .ok () ⟨c.gate.tick.dispatch next, node⟩ := by
    have hgate : (interrupt_gate (clock_handler search 0x20)).run ⟨c, node⟩ =
        (clock_handler search 0x20).run ⟨c.gate, node⟩ := rfl
    have htick : (c.gate.tick.task c.current).ticks = 0 := by simp [hticks]
    rw [hgate, clock_handler, EStateM.run_bind]
    simp only [decide_true, assert_true]
    rw [Outcome.bind_of_ok hwakeup]
    have hmagic' : (c.gate.task c.gate.current).magic = ONIX_MAGIC := hmagic
    simp only [EStateM.run_bind, update_core_run, running_task_run, task_at_run, emit_run,
      Core.set_jiffies_fields, hmagic', decide_true, assert_true]
    rw [if_pos (by simpa [Core.tick] using htick)]
    simpa [Core.tick] using hschedule
  rw [step, if_pos hIF, run_kernel_of_ok hrun]

/-- What holds of the kernel while tasks keep to the protocol of a spin lock. -/
theorem reachable_spinning {idle : τ} {tasks : List (τ × u32)} {lock : ℓ} {s : Kernel τ ℓ}
    (hreach : Reachable idle tasks (Nested lock) s) :
    ∃ a, Holds (fun a => a.Regular ∧ a.Framed ∧ a.Spinning lock) s a :=
  reachable_invariant (fun a => a.Regular ∧ a.Framed ∧ a.Spinning lock) (fun _ _ _ h => h.sound)
    (fun _ _ hbooted => ⟨hbooted.regular, hbooted.framed, hbooted.spinning⟩)
    (fun _ _ _ _ hwf ⟨hregular, hframed, hspinning⟩ hallowed hstep =>
      ⟨hstep.regular hwf hallowed.toDisciplined hregular, hstep.framed hwf hregular hframed,
        hstep.spinning hallowed (hframed.shaped _) hspinning⟩) hreach

/-- With interrupts off a thread goes on in its code. -/
theorem Threads.Moves.of_off {lock : ℓ} {texts : Texts τ} {m m' : Threads τ ℓ} (hmove : m.Moves lock texts m')
    (hnil : m.kernel.stack m.kernel.current = []) (hIF : m.kernel.IF = false) :
    ∃ stmt left kernel, (m.code m.kernel.current).fetch = some (stmt, left) ∧
      stmt.step lock m.kernel = some kernel ∧ m' = { (m.log texts stmt).set_code left with kernel } := by
  cases hmove with
  | kernel hop hstep =>
    obtain rfl | rfl := hop
    · simp [onix.step, hIF] at hstep
    · simp [onix.step, hnil] at hstep
  | wake hfetch hstep => simp [onix.step, hIF] at hstep
  | stmt hfetch hstep => exact ⟨_, _, _, (Threads.fetch_eq_some hfetch).2, hstep, rfl⟩

/-- The loop behind `kernel_init` waits for the clock. -/
theorem Threads.Moves.of_done {lock : ℓ} {texts : Texts τ} {m m' : Threads τ ℓ} (hmove : m.Moves lock texts m')
    (hnil : m.kernel.stack m.kernel.current = []) (hdone : (m.code m.kernel.current).fetch = none) :
    ∃ kernel, onix.step (task_search .TASK_READY) .clock m.kernel = some kernel ∧ m' = { m with kernel } := by
  cases hmove with
  | kernel hop hstep =>
    obtain rfl | rfl := hop
    · exact ⟨_, hstep, rfl⟩
    · simp [onix.step, hnil] at hstep
  | wake hfetch hstep =>
    rw [(Threads.fetch_eq_some hfetch).2] at hdone
    exact absurd hdone (by simp)
  | stmt hfetch hstep =>
    rw [(Threads.fetch_eq_some hfetch).2] at hdone
    exact absurd hdone (by simp)

section Early

variable {idle init test : τ} {s : Kernel τ ℓ} {lock : ℓ} {boot : τ}

/-- The code of the threads when the boot code has turned interrupts on. -/
def enabled_code (idle init test boot : τ) : τ → Code :=
  Function.update (threads_code idle init test) boot { rest := [], body := [] }

/-- The kernel when the boot code has turned interrupts on. -/
def enabled_kernel (s : Kernel τ ℓ) : Kernel τ ℓ := ⟨s.set_IF true, s.node⟩

/-- The kernel behind the first clock interrupt. -/
def scheduled_kernel (init : τ) (s : Kernel τ ℓ) : Kernel τ ℓ :=
  ⟨(s.set_IF true).gate.tick.dispatch init, s.node⟩

/-- What happens before `spin_init`: the boot code turns interrupts on, and the first clock interrupt
takes the CPU from it and gives it to the init task. -/
inductive Early (lock : ℓ) (idle init test boot : τ) (s : Kernel τ ℓ) : Kernel τ ℓ → (τ → Code) → Prop where
  | boot : Early lock idle init test boot s (zero_lock lock s) (threads_code idle init test)
  | enabled : Early lock idle init test boot s (zero_lock lock (enabled_kernel s)) (enabled_code idle init test boot)
  | scheduled : Early lock idle init test boot s (zero_lock lock (scheduled_kernel init s))
      (enabled_code idle init test boot)

/-- The loop of `task_search` passes over free slots. -/
theorem task_search_loop_free (tasks : τ → task_t) (state : task_state_t) (current : τ) (free : Nat) (task : Option τ) :
    task_search_loop tasks state current (List.replicate free none) task = task := by
  induction free with
  | zero => rfl
  | succ free ih => exact ih

omit [DecidableEq τ] in
theorem ne_of_nodup (hnodup : [boot, idle, init, test].Nodup) :
    (boot ≠ idle ∧ boot ≠ init ∧ boot ≠ test) ∧ (idle ≠ init ∧ idle ≠ test) ∧ init ≠ test := by
  simpa using hnodup

omit [DecidableEq ℓ] in
/-- The search of the first clock interrupt: the first of the tasks with the largest slice. -/
theorem task_search_first {free : Nat} (hnodup : [boot, idle, init, test].Nodup)
    (hboot : Booting boot ((idle, 1) :: shipped_tasks init test) free s) :
    task_search .TASK_READY (s.set_IF true).gate.tick = some init := by
  obtain ⟨⟨hidle, hinit, htest⟩, -⟩ := ne_of_nodup hnodup
  obtain ⟨c, hc⟩ : ∃ c, c = (s.set_IF true).gate.tick := ⟨_, rfl⟩
  have htable : c.task_table = some idle :: some init :: some test :: List.replicate free none := by
    simp [hc, hboot.table, shipped_tasks]
  have hcurrent : c.current = boot := by simp [hc, hboot.current]
  have hfields : ∀ t priority, boot ≠ t → (t, priority) ∈ (idle, 1) :: shipped_tasks init test →
      (c.task t).state = .TASK_READY ∧ (c.task t).ticks = priority ∧ (c.task t).jiffies = 0 := by
    intro t priority hne hmem
    simp [hc, hboot.current, hboot.task t priority hmem, created, Ne.symm hne]
  obtain ⟨hstate₁, hticks₁, hjiffies₁⟩ := hfields idle 1 hidle (by simp)
  obtain ⟨hstate₂, hticks₂, hjiffies₂⟩ := hfields init 5 hinit (by simp [shipped_tasks])
  obtain ⟨hstate₃, hticks₃, hjiffies₃⟩ := hfields test 5 htest (by simp [shipped_tasks])
  rw [← hc, task_search, htable, hcurrent]
  clear hc
  simp [task_search_loop, task_search_loop_free, hidle, hinit, htest, hstate₁, hticks₁, hjiffies₁, hstate₂, hticks₂,
    hjiffies₂, hstate₃, hticks₃, hjiffies₃]

section Steps

variable {free : Nat} (hnodup : [boot, idle, init, test].Nodup)
  (hboot : Booting boot ((idle, 1) :: shipped_tasks init test) free s)
include hboot

theorem step_enable_boot (node : NodeHeap (NodePtr τ ℓ)) :
    step (task_search .TASK_READY) enable (⟨s.toCore, node⟩ : Kernel τ ℓ) = some ⟨s.set_IF true, node⟩ := by
  rw [step, if_pos ⟨hboot.stack _, .inr rfl⟩]
  rfl

include hnodup

theorem step_clock_boot {node : NodeHeap (NodePtr τ ℓ)}
    (hsleep : (node (.head .sleep_list)).next = some (.tail .sleep_list)) :
    step (task_search .TASK_READY) .clock ⟨s.set_IF true, node⟩ =
      some ⟨(s.set_IF true).gate.tick.dispatch init, node⟩ := by
  have hcurrent : (s.set_IF true).current = boot := hboot.current
  have hinit : s.task init = created 5 := hboot.task init 5 (by simp [shipped_tasks])
  refine step_clock_last rfl hsleep ?_ ?_ (task_search_first hnodup hboot) ?_
  · rw [hcurrent]
    exact hboot.boot_magic
  · rw [hcurrent]
    exact hboot.boot_ticks
  · change (s.task init).magic = _
    rw [hinit]
    rfl

/-- The init task runs, before any thread has called anything. -/
theorem scheduled_tracked (lock : ℓ) (hboots : boots idle (shipped_tasks init test) s) (hidel : s.idel_task = some idle) :
    ∃ a, Tracked lock idle init test (scheduled_kernel init s) (Function.update (enabled_code idle init test boot)
      init { rest := [.set_interrupt_state true], body := init_thread.body }) a := by
  obtain ⟨⟨hidle, hinit, htest⟩, ⟨hidle_init, hidle_test⟩, hinit_test⟩ := ne_of_nodup hnodup
  have hsleep := (hboot.represents.deque .sleep_list).next_eq_tail_iff.mpr rfl
  have hnested : ∀ {c : Core τ ℓ} {op : Op ℓ}, op = .clock ∨ op = enable →
      Nested lock c (task_search .TASK_READY) op := by
    rintro c op (rfl | rfl)
    · exact ⟨⟨task_search_sound, task_search_picks, fun _ => trivial⟩, nofun, nofun, nofun, nofun⟩
    · exact ⟨⟨task_search_sound, task_search_picks, fun _ => trivial⟩, nofun, nofun, nofun, nofun⟩
  have hreach : Reachable idle (shipped_tasks init test) (Nested lock) (scheduled_kernel init s) :=
    .step (.step (.init hboots) ⟨_, _, hnested (.inr rfl), step_enable_boot hboot s.node⟩)
      ⟨_, _, hnested (.inl rfl), step_clock_boot hnodup hboot hsleep⟩
  obtain ⟨a, hholds⟩ := reachable_spinning hreach
  obtain ⟨c, hc⟩ : ∃ c, c = (scheduled_kernel init s).toCore := ⟨_, rfl⟩
  have hcore : a.toCore = c := by rw [hc, hholds.refines.core]
  have htable : c.task_table = some idle :: some init :: some test :: List.replicate free none := by
    simp [hc, scheduled_kernel, hboot.table, shipped_tasks]
  have hmem : ∀ t, some t ∈ c.task_table ↔ t = idle ∨ t = init ∨ t = test := by simp [htable]
  have hcurrent : c.current = init := by simp [hc, scheduled_kernel]
  have hne : ∀ t, some t ∈ c.task_table → t ≠ boot := by
    intro t ht
    obtain rfl | rfl | rfl := (hmem t).mp ht
    · exact hidle.symm
    · exact hinit.symm
    · exact htest.symm
  have hstack : ∀ t, c.stack t = if t = boot then [.iret true] else [] := by
    intro t
    by_cases ht : t = boot <;> simp [hc, scheduled_kernel, hboot.current, hboot.stack, ht]
  have hlog : ∀ t, depth lock t c.log = 0 := by simp [hc, scheduled_kernel, hboot.log, depth]
  have hIF : c.IF = false := by simp [hc, scheduled_kernel]
  obtain ⟨code, hcode⟩ : ∃ code, code = Function.update (enabled_code idle init test boot) init
      { rest := [.set_interrupt_state true], body := init_thread.body } := ⟨_, rfl⟩
  have hidle_code : code idle = idle_thread := by
    simp [hcode, enabled_code, threads_code, hidle_init, hidle.symm]
  have hinit_code : code init = { rest := [.set_interrupt_state true], body := init_thread.body } := by simp [hcode]
  have htest_code : code test = test_thread := by
    simp [hcode, enabled_code, threads_code, hidle_test.symm, hinit_test.symm, htest.symm]
  -- none of the three has turned interrupts on
  have hfresh : ∀ t, some t ∈ c.task_table → (code t).Fresh := by
    intro t ht
    obtain rfl | rfl | rfl := (hmem t).mp ht
    · rw [hidle_code]
      rfl
    · rw [hinit_code]
      rfl
    · rw [htest_code]
      rfl
  rw [← hcode]
  have hmem_current : some c.current ∈ c.task_table := (hmem _).mpr (by simp [hcurrent])
  refine ⟨a, hholds, hnodup.of_cons, by rwa [hcore], by rw [hcore, hc]; simp [scheduled_kernel, hidel], ?_,
    fun t ht => ?_, fun t ht => ?_, ?_⟩
  · rw [hidle_code]
    exact ⟨rfl, .inl rfl⟩
  · obtain rfl | rfl := ht
    · rw [hinit_code]
    · rw [htest_code]
      rfl
  · have ht' := (hmem t).mpr (.inr ht)
    rw [hfresh t ht', hcore, hstack, if_neg (hne t ht'), hlog]
    exact .start
  · refine ⟨by rwa [hcore], fun t f hf => ?_, fun t ht _ => ?_, fun t ht _ hnot => ?_, fun hnot => ?_⟩
    · rw [hcore, hstack] at hf
      split_ifs at hf with hboot'
      · obtain rfl := List.mem_singleton.mp hf
        rfl
      · exact absurd hf List.not_mem_nil
    · rw [hcore] at ht ⊢
      exact ⟨by rw [hstack, if_neg (hne t ht)], fun _ => hIF⟩
    · rw [hcore] at ht
      exact absurd (hfresh t ht) hnot
    · rw [hcore] at hnot
      exact absurd (hfresh _ hmem_current) hnot

/-- Every move before `spin_init` is the one that the boot makes, and behind it the threads are in their
code. -/
theorem Early.move {texts : Texts τ} {m m' : Threads τ ℓ} (hboots : boots idle (shipped_tasks init test) s)
    (hidel : s.idel_task = some idle) (h : Early lock idle init test boot s m.kernel m.code)
    (hmove : m.Moves lock texts m') :
    Early lock idle init test boot s m'.kernel m'.code ∨ ∃ a, Tracked lock idle init test m'.kernel m'.code a := by
  obtain ⟨⟨hidle, hinit, htest⟩, ⟨hidle_init, hidle_test⟩, hinit_test⟩ := ne_of_nodup hnodup
  have hlock : s.Unlocked lock := hboot.lock lock
  have hzero : ∀ {k : Kernel τ ℓ}, k.Unlocked lock → k.node = s.node →
      zero_lock lock k = ⟨k.toCore, (zero_lock lock s).node⟩ := by
    intro k hunlocked hnode
    rw [zero_lock_core hunlocked]
    simp only [zero_lock, hnode]
  generalize hkernel : m.kernel = kernel at h
  generalize hcode : m.code = code at h
  cases h with
  | boot =>
    have hcurrent : m.kernel.current = boot := by rw [hkernel]; exact hboot.current
    obtain ⟨stmt, left, kernel, hfetch, hstep, rfl⟩ := hmove.of_off (by rw [hkernel]; exact hboot.stack _)
      (by rw [hkernel]; exact hboot.IF)
    rw [hcurrent, hcode] at hfetch
    have hfetch' : threads_code idle init test boot = Threads.kernel_init := by simp [threads_code, hidle, hinit, htest]
    rw [hfetch'] at hfetch
    obtain ⟨rfl, rfl⟩ := Prod.mk.inj (Option.some.inj hfetch)
    rw [hkernel, hzero hlock rfl] at hstep
    have hkernel' := Option.some.inj ((step_enable_boot hboot _).symm.trans hstep)
    refine .inl ?_
    change Early lock idle init test boot s kernel (Function.update m.code m.kernel.current _)
    rw [← hkernel', hcurrent, hcode]
    have henabled : zero_lock lock (enabled_kernel s) = ⟨s.set_IF true, (zero_lock lock s).node⟩ := hzero hlock rfl
    rw [← henabled]
    exact .enabled
  | enabled =>
    have hcurrent : m.kernel.current = boot := by rw [hkernel]; exact hboot.current
    obtain ⟨kernel, hstep, rfl⟩ := hmove.of_done (by rw [hkernel]; exact hboot.stack _)
      (by rw [hcurrent, hcode]; simp [enabled_code, Code.fetch])
    have hsleep : ((zero_lock lock s).node (.head .sleep_list)).next = some (.tail .sleep_list) := by
      rw [zero_lock_node (by simp) (by simp)]
      exact (hboot.represents.deque .sleep_list).next_eq_tail_iff.mpr rfl
    rw [hkernel, hzero (k := enabled_kernel s) hlock rfl] at hstep
    have hkernel' := Option.some.inj ((step_clock_boot hnodup hboot hsleep).symm.trans hstep)
    refine .inl ?_
    change Early lock idle init test boot s kernel m.code
    have hscheduled : zero_lock lock (scheduled_kernel init s) =
        ⟨(s.set_IF true).gate.tick.dispatch init, (zero_lock lock s).node⟩ :=
      hzero (by simpa [Core.Unlocked, scheduled_kernel] using hlock) rfl
    rw [← hkernel', hcode, ← hscheduled]
    exact .scheduled
  | scheduled =>
    have hcurrent : m.kernel.current = init := by rw [hkernel]; simp [zero_lock, scheduled_kernel]
    have hnil : m.kernel.stack m.kernel.current = [] := by
      rw [hcurrent, hkernel]
      simp [zero_lock, scheduled_kernel, hboot.current, hboot.stack, hinit.symm]
    have hoff : m.kernel.IF = false := by rw [hkernel]; simp [zero_lock, scheduled_kernel]
    obtain ⟨stmt, left, kernel, hfetch, hstep, rfl⟩ := hmove.of_off hnil hoff
    have hfetch' : enabled_code idle init test boot init = init_thread := by
      simp [enabled_code, threads_code, hidle_init.symm, hinit.symm]
    rw [hcurrent, hcode, hfetch'] at hfetch
    obtain ⟨rfl, rfl⟩ := Prod.mk.inj (Option.some.inj hfetch)
    obtain ⟨hhead, htail⟩ := (hboot.represents.deque (.waiters lock)).empty_cells
    have hwaiters : scheduled_kernel init s = kernel := by
      have hunlocked : (scheduled_kernel init s).Unlocked lock := by
        simpa [Core.Unlocked, scheduled_kernel] using hlock
      have hinit_run := spin_init_zero_lock hunlocked hhead htail
      rw [hkernel] at hstep
      exact hinit_run.symm.trans (Option.some.inj hstep)
    obtain ⟨a, ha⟩ := scheduled_tracked hnodup hboot lock hboots hidel
    refine .inr ⟨a, ?_⟩
    change Tracked lock idle init test kernel (Function.update m.code m.kernel.current _) a
    rw [hcurrent, hcode, ← hwaiters]
    exact ha

end Steps

end Early

variable {lock : ℓ} {texts : Texts τ} {idle init test : τ} {m : Threads τ ℓ}

/-- A run of the threads is still in the boot, or behind `spin_init`. -/
theorem threads_tracked (hreach : Threads.Reachable lock texts idle init test m) :
    (∃ boot s free, [boot, idle, init, test].Nodup ∧ Booting boot ((idle, 1) :: shipped_tasks init test) free s ∧
      boots idle (shipped_tasks init test) s ∧ s.idel_task = some idle ∧
        Early lock idle init test boot s m.kernel m.code) ∨
      ∃ a, Tracked lock idle init test m.kernel m.code a := by
  induction hreach with
  | init hinit =>
    obtain ⟨⟨s, hboots, hkernel⟩, hcode, -, -⟩ := hinit
    obtain ⟨boot, free, hnodup, hidel, hboot⟩ := hboots.booting
    refine .inl ⟨boot, s, free, hnodup, hboot, hboots, hidel, ?_⟩
    rw [hkernel, hcode]
    exact .boot
  | step hreach hnext ih =>
    obtain ⟨move, hmove⟩ := hnext
    have hmoves := Threads.moves hmove
    obtain ⟨boot, s, free, hnodup, hboot, hboots, hidel, hearly⟩ | ⟨a, ha⟩ := ih
    · obtain hearly' | htracked := hearly.move hnodup hboot hboots hidel hmoves
      · exact .inl ⟨boot, s, free, hnodup, hboot, hboots, hidel, hearly'⟩
      · exact .inr htracked
    · exact .inr (ha.move hmoves)

/-- The thread is in `LOGK` or about to call `spin_unlock`, and no call of `spin_lock` is left to return. -/
structure Threads.Prints (lock : ℓ) (m : Threads τ ℓ) (t : τ) : Prop where
  rest : (m.code t).rest ≠ []
  suffix : (m.code t).rest <:+ LOGK ++ [.spin_unlock]
  returned : ∀ point, .spin_lock lock point ∉ m.kernel.stack t

/-- The shipped threads are safe. No assertion fails in any of them, and the running one can go on unless it
waits for the clock with interrupts on, in `hlt` or in the loop behind `kernel_init`; the lock is
initialised before another thread runs; and while a thread prints, it holds the lock and the other one does
not print. -/
structure ThreadsSafe (lock : ℓ) (texts : Texts τ) (idle init test : τ) (m : Threads τ ℓ) : Prop where
  alive : ∀ t e, .spin e ∉ m.kernel.stack t
  goes_on : (∃ m', m.step lock texts .resume = some m' ∨ m.step lock texts .stmt = some m') ∨
    (m.fetch.map Prod.fst = some .hlt ∨ some m.kernel.current ∉ m.kernel.task_table ∧ m.fetch = none) ∧
      ∃ m', m.step lock texts .clock = some m'
  initialised : .spin_init ∈ (m.code init).rest → m.code idle = idle_thread ∧ m.code test = test_thread ∧
    m.kernel.stack idle = [] ∧ m.kernel.stack test = []
  held : ∀ t, t = init ∨ t = test → m.Prints lock t → m.kernel.lock lock =
    { holder := some t, mutex := { value := true }, «repeat» := 1 }
  exclusive : ¬ (m.Prints lock init ∧ m.Prints lock test)

/-- Every statement but `hlt` can be carried out. -/
theorem Stmt.step_isSome (lock : ℓ) {s : Kernel τ ℓ} (hnil : s.stack s.current = [])
    (hmem : some s.current ∈ s.task_table)
    {stmt : Stmt} (hne : stmt ≠ .hlt) : ∃ s', stmt.step lock s = some s' := by
  have hcall : ∀ call, ∃ s', onix.step (task_search .TASK_READY) (.call call) s = some s' := fun call =>
    ⟨_, if_pos ⟨hnil, .inl hmem⟩⟩
  cases stmt with
  | hlt => exact absurd rfl hne
  | spin_init => exact ⟨_, rfl⟩
  | debugk => exact ⟨s, rfl⟩
  | printk => exact ⟨s, rfl⟩
  | console_write => exact ⟨s, rfl⟩
  | _ => exact hcall _

section Tracked

variable {a : Sched τ ℓ} (h : Tracked lock idle init test m.kernel m.code a)
include h

/-- A thread that takes the lock has a frame of `spin_lock`. -/
theorem Tracked.spin_lock_mem {t : τ} (htaking : (place lock (a.stack t)).Taking) :
    ∃ point, .spin_lock lock point ∈ a.stack t := by
  have hplain : ∀ {frames : List (Frame ℓ)}, Plain frames → (place lock frames).Taking →
      ∃ point, .spin_lock lock point ∈ frames ∨ ∃ e, .spin e ∈ frames := by
    intro frames hplain htaking
    cases hplain with
    | thread => exact htaking.elim
    | spin_lock l point =>
      by_cases hl : l = lock
      · exact ⟨point, .inl (by simp [hl])⟩
      · simp [place, hl, Place.Taking] at htaking
    | spin_unlock l point =>
      by_cases hl : l = lock
      · cases point <;> simp [place, hl, SpinUnlockPoint.place, Place.Taking] at htaking
      · simp [place, hl, Place.Taking] at htaking
    | spin e rest => exact ⟨.test, .inr ⟨e, by simp⟩⟩
  have halive : ∀ e, .spin e ∉ a.stack t := fun e he => h.steady.frames t _ he
  have hshaped := h.framed.shaped t
  have hwaits := h.spinning.waits t
  generalize a.stack t = frames at htaking hshaped halive hwaits ⊢
  cases hshaped with
  | plain hframes =>
    obtain ⟨point, hmem | ⟨e, he⟩⟩ := hplain hframes htaking
    · exact ⟨point, hmem⟩
    · exact absurd he (halive e)
  | interrupted IF hframes =>
    obtain ⟨point, hmem | ⟨e, he⟩⟩ := hplain hframes htaking
    · exact ⟨point, List.mem_cons_of_mem _ hmem⟩
    · exact absurd (List.mem_cons_of_mem _ he) (halive e)
  | locking l intr =>
    by_cases hl : l = lock
    · subst hl
      exact absurd (hwaits intr [] rfl) (by simp)
    · simp [place, hl, Place.Taking] at htaking
  | spin_locking l intr =>
    by_cases hl : l = lock
    · exact ⟨.hold, by simp [hl]⟩
    · simp [place, hl, Place.Taking] at htaking
  | unlocking intr => exact htaking.elim

/-- A thread that prints has the lock. -/
theorem Tracked.prints {t : τ} (ht : t = init ∨ t = test) (hprints : m.Prints lock t) :
    place lock (a.stack t) = .out ∧ depth lock t a.log = 1 := by
  have hposition := h.position t ht
  have hrest := hprints.rest
  have hsuffix := hprints.suffix
  generalize hplace : place lock (a.stack t) = p at hposition ⊢
  generalize depth lock t a.log = d at hposition ⊢
  generalize (m.code t).rest = rest at hposition hrest hsuffix
  cases hposition with
  | start => simp [LOGK, List.suffix_cons_iff] at hsuffix
  | free => exact absurd rfl hrest
  | taking htaking =>
    obtain ⟨point, hmem⟩ := h.spin_lock_mem (hplace ▸ htaking)
    rw [← h.core] at hmem
    exact absurd hmem (hprints.returned point)
  | inside hne hsuffix' => exact ⟨rfl, rfl⟩
  | leaving hleaving => exact absurd rfl hrest

/-- The running thread goes on, unless it waits for the clock in `hlt`. -/
theorem Tracked.goes_on (texts : Texts τ) :
    (∃ m', m.step lock texts .resume = some m' ∨ m.step lock texts .stmt = some m') ∨
    m.fetch.map Prod.fst = some .hlt ∧ ∃ m', m.step lock texts .clock = some m' := by
  have hcurrent : m.kernel.current = a.current := by rw [h.core]
  have hframes : ∀ f ∈ m.kernel.stack m.kernel.current, f.OfThread lock := by
    rw [hcurrent, h.core]
    exact h.steady.frames _
  cases hstack : m.kernel.stack m.kernel.current with
  | cons f rest =>
    rw [hstack] at hframes
    have hresume : ∃ k, onix.step (task_search .TASK_READY) .resume m.kernel = some k := by
      cases f with
      | spin e => exact (hframes _ List.mem_cons_self).elim
      | _ => simp [onix.step, hstack]
    obtain ⟨k, hk⟩ := hresume
    exact .inl ⟨_, .inl (Option.map_eq_some_iff.mpr ⟨k, hk, rfl⟩)⟩
  | nil =>
    obtain ⟨stmt, left, hfetch⟩ : ∃ stmt left, (m.code a.current).fetch = some (stmt, left) := by
      have hbody : (m.code a.current).body ≠ [] := by
        obtain hidle | ⟨-, hworker⟩ := h.running
        · rw [hidle, h.idles.body]
          simp [idle_thread]
        · rw [h.body _ hworker]
          simp [init_thread]
      unfold Code.fetch
      split
      · exact ⟨_, _, rfl⟩
      · exact ⟨_, _, rfl⟩
      · exact absurd ‹_› hbody
    have hfetch' : m.fetch = some (stmt, left) := by
      rw [Threads.fetch, hstack, hcurrent]
      exact hfetch
    by_cases hhlt : stmt = .hlt
    · subst hhlt
      refine .inr ⟨by rw [hfetch']; rfl, ?_⟩
      have hfresh : ¬ (m.code a.current).Fresh := fun hfresh => by
        have hrest : (m.code a.current).rest = [.set_interrupt_state true] := hfresh
        simp [Code.fetch, hrest] at hfetch
      have hnil : a.stack a.current = [] := by rwa [hcurrent, h.core] at hstack
      have hIF : a.IF = true := (h.steady.flag hfresh).resolve_right (hnil ▸ not_suspended_nil)
      obtain ⟨k, hk⟩ : ∃ k, onix.step (task_search .TASK_READY) .clock m.kernel = some k :=
        ⟨_, if_pos (by rw [h.core]; exact hIF)⟩
      exact ⟨_, Option.map_eq_some_iff.mpr ⟨k, hk, rfl⟩⟩
    · obtain ⟨k, hk⟩ := Stmt.step_isSome lock hstack (by rw [h.core]; exact h.steady.current) hhlt
      exact .inl ⟨_, .inr (Threads.step_stmt hfetch' hk)⟩

/-- The threads behind `spin_init` are safe. -/
theorem Tracked.safe : ThreadsSafe lock texts idle init test m := by
  have hheld : ∀ t, t = init ∨ t = test → m.Prints lock t → (m.kernel.lock lock) =
      { holder := some t, mutex := { value := true }, «repeat» := 1 } := by
    intro t ht hprints
    obtain ⟨hplace, hdepth⟩ := h.prints ht hprints
    have hshared := h.spinning.inv.owner t _ (by simp only [Core.view, hplace, hdepth]; rfl)
    have hvalue : (a.lock lock).mutex.value = true := congrArg Lock.held hshared
    have hholder : (a.lock lock).holder = some t := congrArg Lock.holder hshared
    have hlevels : (a.lock lock).repeat = 1 := UInt32.toNat_inj.mp (congrArg Lock.levels hshared)
    rw [h.core]
    generalize a.lock lock = l at hvalue hholder hlevels ⊢
    obtain ⟨holder, ⟨value⟩, levels⟩ := l
    subst hvalue hholder hlevels
    rfl
  refine ⟨fun t e he => ?_, ?_, fun hspin => ?_, hheld, fun hboth => ?_⟩
  · rw [h.core] at he
    exact h.steady.frames t _ he
  · obtain hgoes | ⟨hhlt, hclock⟩ := h.goes_on texts
    · exact .inl hgoes
    · exact .inr ⟨.inl hhlt, hclock⟩
  · have hposition := h.position init (.inl rfl)
    generalize (m.code init).rest = rest at hposition hspin
    generalize place lock (a.stack init) = p at hposition
    generalize depth lock init a.log = d at hposition
    cases hposition with
    | inside hne hsuffix =>
      have hmem := hsuffix.subset hspin
      simp [LOGK] at hmem
    | _ => simp [LOGK] at hspin
  · obtain ⟨hinit, htest⟩ := hboth
    have heq := h.spinning.inv.exclusive (h.prints (.inl rfl) hinit).2.ge (h.prints (.inr rfl) htest).2.ge
    have hnodup := h.nodup
    simp [heq] at hnodup

end Tracked

/-- Before `spin_init` the threads have all of their code left. -/
theorem Early.code_eq {s : Kernel τ ℓ} {boot : τ} {kernel : Kernel τ ℓ} {code : τ → Code}
    (hnodup : [boot, idle, init, test].Nodup) (h : Early lock idle init test boot s kernel code) :
    code idle = idle_thread ∧ code init = init_thread ∧ code test = test_thread ∧
      (code boot = Threads.kernel_init ∨ code boot = { rest := [], body := [] }) := by
  obtain ⟨⟨hidle, hinit, htest⟩, ⟨hidle_init, hidle_test⟩, hinit_test⟩ := ne_of_nodup hnodup
  cases h <;> simp [enabled_code, threads_code, hidle, hinit, htest, hidle.symm, hinit.symm, htest.symm,
    hidle_init.symm, hidle_test.symm, hinit_test.symm]

/-- The threads are safe before `spin_init`, when none of them has called anything. -/
theorem Early.safe {s : Kernel τ ℓ} {boot : τ} {free : Nat} (hnodup : [boot, idle, init, test].Nodup)
    (hboot : Booting boot ((idle, 1) :: shipped_tasks init test) free s)
    (h : Early lock idle init test boot s m.kernel m.code) : ThreadsSafe lock texts idle init test m := by
  obtain ⟨⟨hidle, hinit, htest⟩, -⟩ := ne_of_nodup hnodup
  have hstack : ∀ t, m.kernel.stack t = [] ∨ t = boot ∧ m.kernel.stack t = [.iret true] := by
    intro t
    generalize m.kernel = kernel at h
    generalize m.code = code at h
    cases h with
    | boot => exact .inl (hboot.stack t)
    | enabled => exact .inl (hboot.stack t)
    | scheduled =>
      by_cases ht : t = boot <;> simp [zero_lock, scheduled_kernel, hboot.current, hboot.stack, ht]
  obtain ⟨hidle_code, hinit_code, htest_code, -⟩ := h.code_eq hnodup
  have hprints : ∀ t, t = init ∨ t = test → ¬ m.Prints lock t := by
    intro t ht hprints
    have hsuffix := hprints.suffix
    obtain rfl | rfl := ht
    · simp [hinit_code, init_thread, LOGK, List.suffix_cons_iff] at hsuffix
    · simp [htest_code, test_thread, LOGK, List.suffix_cons_iff] at hsuffix
  refine ⟨fun t e he => ?_, ?_, fun _ => ⟨hidle_code, htest_code, ?_, ?_⟩, fun t ht hp => absurd hp (hprints t ht),
    fun hp => hprints init (.inl rfl) hp.1⟩
  · obtain hnil | ⟨-, hiret⟩ := hstack t
    · rw [hnil] at he
      exact absurd he List.not_mem_nil
    · rw [hiret] at he
      exact absurd he (by simp)
  · generalize hkernel : m.kernel = kernel at h
    generalize hcodes : m.code = code at h
    have hfetch : ∀ t, m.kernel.current = t → m.kernel.stack t = [] → m.fetch = (code t).fetch := by
      rintro t rfl hnil
      rw [Threads.fetch, hnil, hcodes]
    cases h with
    | boot =>
      have hcurrent : m.kernel.current = boot := by rw [hkernel]; exact hboot.current
      have hfetch := hfetch boot hcurrent (by rw [hkernel]; exact hboot.stack _)
      have hstmt : threads_code idle init test boot = Threads.kernel_init := by simp [threads_code, hidle, hinit, htest]
      obtain ⟨k, hk⟩ : ∃ k, step (task_search .TASK_READY) enable m.kernel = some k :=
        ⟨_, if_pos ⟨by rw [hkernel]; exact hboot.stack _, .inr rfl⟩⟩
      rw [hstmt] at hfetch
      exact .inl ⟨_, .inr (Threads.step_stmt hfetch hk)⟩
    | enabled =>
      have hcurrent : m.kernel.current = boot := by rw [hkernel]; exact hboot.current
      have hfetch := hfetch boot hcurrent (by rw [hkernel]; exact hboot.stack _)
      refine .inr ⟨.inr ⟨?_, ?_⟩, ?_⟩
      · have htable : m.kernel.task_table = s.task_table := by rw [hkernel]; rfl
        rw [← hkernel, hcurrent, htable, hboot.table]
        simp [shipped_tasks, hidle, hinit, htest]
      · rw [hfetch]
        simp [enabled_code, Code.fetch]
      · obtain ⟨k, hk⟩ : ∃ k, step (task_search .TASK_READY) .clock m.kernel = some k :=
          ⟨_, if_pos (by rw [hkernel]; rfl)⟩
        exact ⟨_, Option.map_eq_some_iff.mpr ⟨k, hk, rfl⟩⟩
    | scheduled =>
      have hcurrent : m.kernel.current = init := by rw [hkernel]; simp [zero_lock, scheduled_kernel]
      have hfetch := hfetch init hcurrent ((hstack init).resolve_right fun h => hinit h.1.symm)
      rw [← hcodes, hinit_code] at hfetch
      exact .inl ⟨_, .inr (Threads.step_stmt hfetch rfl)⟩
  · exact (hstack idle).resolve_right fun h => hidle h.1.symm
  · exact (hstack test).resolve_right fun h => htest h.1.symm

/-- In every run of the threads, whenever the clock interrupts. -/
theorem threads_safe (hreach : Threads.Reachable lock texts idle init test m) :
    ThreadsSafe lock texts idle init test m := by
  obtain ⟨boot, s, free, hnodup, hboot, -, -, hearly⟩ | ⟨a, ha⟩ := threads_tracked hreach
  · exact hearly.safe hnodup hboot
  · exact ha.safe

/-- The threads behind the `task_init` of the shipped kernel, with no texts. -/
def shipped_threads : Threads Nat Nat where
  kernel := zero_lock 0 shipped_kernel
  code := threads_code 1 2 3
  counter := fun _ => 0
  debugk_buf := []
  printk_buf := []
  console := []

/-- A run through a list of moves. -/
def Threads.run (lock : ℓ) (texts : Texts τ) : List Move → Threads τ ℓ → Option (Threads τ ℓ)
  | [], m => some m
  | move :: moves, m => (m.step lock texts move).bind (run lock texts moves)

theorem Threads.reachable_run {moves : List Move} {m' : Threads τ ℓ}
    (hreach : Threads.Reachable lock texts idle init test m) (hrun : m.run lock texts moves = some m') :
    Threads.Reachable lock texts idle init test m' := by
  induction moves generalizing m with
  | nil =>
    obtain rfl : m = m' := Option.some.inj hrun
    exact hreach
  | cons move moves ih =>
    obtain ⟨m₁, hstep, hrest⟩ := Option.bind_eq_some_iff.mp hrun
    exact ih (.step hreach ⟨move, hstep⟩) hrest

/-- The state that a run of the shipped threads ends in. -/
theorem exists_threads_reachable (texts : Texts Nat) (moves : List Move) (check : Threads Nat Nat → Bool)
    (hrun : (shipped_threads.run 0 texts moves).any check = true) :
    ∃ m, Threads.Reachable 0 texts 1 2 3 m ∧ check m = true := by
  obtain ⟨m, hm, hcheck⟩ := Option.any_eq_true _ _ |>.mp hrun
  have hstarts : Threads.Starts 0 1 2 3 shipped_threads :=
    ⟨⟨shipped_kernel, boots_shipped_kernel, rfl⟩, rfl, fun _ => rfl, rfl⟩
  exact ⟨m, Threads.reachable_run (.init hstarts) hm, hcheck⟩

/-- Texts that name the task and the number. -/
def short_texts : Texts Nat where
  message t counter := [UInt8.ofNat t, counter.toUInt8]
  line _ message := 0 :: message

/-- The boot, and the init task up to the point where it has taken the lock. -/
def boot_moves : List Move :=
  [.stmt, .clock, .stmt, .stmt, .stmt, .resume, .resume, .resume, .resume, .resume]

/-- The init task is taken off the CPU while it prints, and the test task waits for the lock. -/
theorem threads_safe_shipped : ∃ m : Threads Nat Nat, Threads.Reachable 0 short_texts 1 2 3 m ∧ m.Prints 0 2 ∧
    m.kernel.stack 3 = [.mutex_lock 0 true, .spin_lock 0 .hold] ∧ ThreadsSafe 0 short_texts 1 2 3 m := by
  obtain ⟨m, hreach, hcheck⟩ := exists_threads_reachable short_texts
    (boot_moves ++ [.stmt, .clock, .resume, .clock, .resume, .clock, .resume, .clock, .resume, .clock, .stmt, .stmt,
      .resume, .resume])
    (fun m => (m.code 2).rest = [.printk, .console_write, .spin_unlock] ∧ m.kernel.stack 2 = [.iret true] ∧
      m.kernel.stack 3 = [.mutex_lock 0 true, .spin_lock 0 .hold]) (by decide +kernel)
  obtain ⟨hrest, hstack, hwaits⟩ := of_decide_eq_true hcheck
  refine ⟨m, hreach, ⟨?_, ?_, ?_⟩, hwaits, threads_safe hreach⟩
  · simp [hrest]
  · simp [hrest, LOGK]
  · simp [hstack]

end onix
