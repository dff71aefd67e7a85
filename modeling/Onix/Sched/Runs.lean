import Onix.Sched.Queues
import Onix.Sched.Model

open DoublyLinked

namespace onix

variable {τ ℓ : Type}

section Primitives

@[simp] theorem update_core_run (f : Core τ ℓ → Core τ ℓ) (s : Kernel τ ℓ) :
    (update_core f).run s = .ok () ⟨f s.toCore, s.node⟩ := rfl

@[simp] theorem emit_run (e : Event τ ℓ) (s : Kernel τ ℓ) :
    (emit e).run s = .ok () ⟨s.toCore.emit e, s.node⟩ := rfl

@[simp] theorem running_task_run (s : Kernel τ ℓ) : running_task.run s = .ok s.current s := rfl

@[simp] theorem get_interrupt_state_run (s : Kernel τ ℓ) :
    get_interrupt_state.run s = .ok s.IF s := rfl

@[simp] theorem set_interrupt_state_run (state : Bool) (s : Kernel τ ℓ) :
    (set_interrupt_state state).run s = .ok () ⟨s.toCore.set_IF state, s.node⟩ := rfl

@[simp] theorem interrupt_disable_run (s : Kernel τ ℓ) :
    interrupt_disable.run s = .ok s.IF ⟨s.toCore.set_IF false, s.node⟩ := rfl

@[simp] theorem task_at_run (t : τ) (s : Kernel τ ℓ) : (task_at t).run s = .ok (s.task t) s := rfl

@[simp] theorem lock_at_run (l : ℓ) (s : Kernel τ ℓ) : (lock_at l).run s = .ok (s.lock l) s := rfl

@[simp] theorem element_entry_run (t : τ) (s : Kernel τ ℓ) :
    (element_entry (.node t)).run s = .ok t s := rfl

@[simp] theorem on_nodes_get_next_run (a : NodePtr τ ℓ) (s : Kernel τ ℓ) :
    (on_nodes (get_next a)).run s = .ok (s.node a).next s := rfl

@[simp] theorem on_nodes_get_prev_run (a : NodePtr τ ℓ) (s : Kernel τ ℓ) :
    (on_nodes (get_prev a)).run s = .ok (s.node a).prev s := rfl

@[simp] theorem on_nodes_deref_run (a : NodePtr τ ℓ) (s : Kernel τ ℓ) :
    (on_nodes (deref (some a))).run s = .ok a s := rfl

theorem on_nodes_run {α : Type} {x : ListM (NodePtr τ ℓ) α} {c : Core τ ℓ}
    {node node' : NodeHeap (NodePtr τ ℓ)} {a : α} (hx : x.run node = .ok a node') :
    (on_nodes x).run ⟨c, node⟩ = .ok a ⟨c, node'⟩ :=
  Outcome.zoom_of_ok (fun s : Kernel τ ℓ => s.node) hx

@[simp] theorem push_frame_run [DecidableEq τ] (f : Frame ℓ) (s : Kernel τ ℓ) :
    (push_frame f).run s = .ok () ⟨s.toCore.push_frame f, s.node⟩ := rfl

end Primitives

variable [DecidableEq τ] {search : Core τ ℓ → Option τ} {c : Core τ ℓ}
  {tasks : Set τ} {node : NodeHeap (NodePtr τ ℓ)} {queue : ListPtr ℓ → List τ}

/-- With interrupts off, `schedule` dispatches the task the search answers. -/
theorem schedule_run (search : Core τ ℓ → Option τ) (node : NodeHeap (NodePtr τ ℓ)) (hIF : c.IF = false)
    {next : τ} (hsearch : search c = some next)
    (hmagic : (c.task next).magic = ONIX_MAGIC) :
    (schedule search).run ⟨c, node⟩ = .ok () ⟨c.dispatch next, node⟩ := by
  by_cases hrunning : (c.task c.current).state = .TASK_RUNNING <;>
    by_cases hticks : (c.task c.current).ticks = 0 <;>
    by_cases hnext : next = c.current
  all_goals
    try subst hnext
    simp [*, schedule, EStateM.run_bind, Core.emit, Core.dispatch, Core.set_state, Core.set_ticks,
      Core.set_task, task_switch]

variable [DecidableEq ℓ]

/-- `task_unblock` on a queued task takes it off its queue and makes it ready. -/
theorem task_unblock_run (h : Represents tasks node queue) (hIF : c.IF = false) {l : ListPtr ℓ} {t : τ}
    (ht : t ∈ queue l) :
    ∃ node', Represents tasks node' (Function.update queue l ((queue l).erase t)) ∧
      (task_unblock t).run ⟨c, node⟩ = .ok () ⟨c.set_state t .TASK_READY, node'⟩ := by
  obtain ⟨l₁, l₂, -, hl, herase⟩ := List.exists_erase_eq ht
  obtain ⟨node', hremove, hcleared, hrep⟩ := h.list_remove hl
  refine ⟨node', herase ▸ hrep, ?_⟩
  simp [task_unblock, EStateM.run_bind, hIF, on_nodes_run hremove, hcleared]

/-- `task_block` on the running task pushes it on the list and gives up the CPU. -/
theorem task_block_run (search : Core τ ℓ → Option τ) (h : Represents tasks node queue)
    (hIF : c.IF = false) (blist : Option (ListPtr ℓ)) (state : task_state_t)
    (hstate : state ≠ .TASK_READY ∧ state ≠ .TASK_RUNNING)
    (hcurrent : c.current ∈ tasks)
    (hfree : ∀ l, c.current ∉ queue l) (hfuel : ∀ l, (queue l).length < c.fuel) {next : τ}
    (hsearch : search (c.set_state c.current state) = some next)
    (hmagic : ((c.set_state c.current state).task next).magic = ONIX_MAGIC) :
    ∃ node', Represents tasks node' (Function.update queue (blist.getD .block_list)
        (c.current :: queue (blist.getD .block_list))) ∧
      (task_block search c.current blist state).run ⟨c, node⟩ =
        .ok () ⟨(c.set_state c.current state).dispatch next, node'⟩ := by
  obtain ⟨node', hpush, hrep⟩ := h.list_push (blist.getD .block_list) hfree (hfuel _)
  refine ⟨node', hrep, ?_⟩
  have hschedule := schedule_run search node' (c := c.set_state c.current state) hIF hsearch hmagic
  simp [task_block, EStateM.run_bind, hIF, h.free _ hcurrent hfree, on_nodes_run hpush, hstate, hschedule]

/-- A task that still is in a list is refused by the assertion on its node. -/
theorem task_block_refused (search : Core τ ℓ → Option τ) (h : Represents tasks node queue)
    (hIF : c.IF = false) {t : τ} (blist : Option (ListPtr ℓ)) (state : task_state_t) (hlinked : ¬ ∀ l, t ∉ queue l) :
    (task_block search t blist state).run ⟨c, node⟩ =
      .error (.assertion .task_block_next) ⟨c, node⟩ := by
  simp [task_block, EStateM.run_bind, hIF, h.next_isNone_of_linked hlinked]

/-- The insertion loop of `task_sleep` stops at the cell behind the sleepers that wake no later. -/
theorem task_sleep_loop_run (h : Represents tasks node queue) (current : τ) (done : List τ) {rest : List τ}
    (hqueue : queue .sleep_list = done ++ rest) {fuel : Nat} (hfuel : rest.length < fuel)
    {p : τ → Bool} (hp : ∀ u ∈ rest, p u = decide ((c.task u).ticks ≤ (c.task current).ticks)) :
    (task_sleep_loop current fuel (some (front .sleep_list rest))).run ⟨c, node⟩ =
      .ok (front .sleep_list (rest.dropWhile p)) ⟨c, node⟩ := by
  induction rest generalizing done fuel with
  | nil =>
    obtain ⟨fuel, rfl⟩ := Nat.exists_eq_succ_of_ne_zero (by omega : fuel ≠ 0)
    rfl
  | cons t rest ih =>
    obtain ⟨fuel, rfl⟩ := Nat.exists_eq_succ_of_ne_zero (by omega : fuel ≠ 0)
    have ht := hp t (by simp)
    by_cases hlater : (c.task t).ticks > (c.task current).ticks
    · rw [List.dropWhile_cons_of_neg (by simpa [ht] using hlater)]
      simp [task_sleep_loop, EStateM.run_bind, hlater]
    · rw [List.dropWhile_cons_of_pos (by simpa [ht] using hlater)]
      have hrest := ih (done ++ [t]) (by simp [hqueue])
        (Nat.lt_of_succ_lt_succ hfuel) (fun u hu => hp u (by simp [hu]))
      simpa [task_sleep_loop, EStateM.run_bind, hlater, h.node_next hqueue] using hrest

/-- The insertion of `task_sleep`: its loop, its assertions on the node, and `list_insert_before`. -/
def sleep_insert (current : τ) : KernelM τ ℓ Unit := do
  let anchor ← task_sleep_loop current (← get).fuel (← on_nodes (get_next (.head .sleep_list)))
  assert .task_sleep_next ((← on_nodes (get_next (.node current))).isNone)
  assert .task_sleep_prev ((← on_nodes (get_prev (.node current))).isNone)
  on_nodes (list_insert_before anchor (.node current))

theorem task_sleep_eq (search : Core τ ℓ → Option τ) (ms : u32) :
    task_sleep search ms = (do
      assert .task_sleep_intr (!(← get_interrupt_state))
      let current ← running_task
      update_core fun c => c.set_ticks current (c.jiffies + sleep_ticks ms)
      sleep_insert current
      emit (.sleep current (← task_at current).ticks)
      update_core (·.set_state current .TASK_SLEEPING)
      schedule search) := by
  unfold task_sleep sleep_insert
  simp only [bind_assoc]

theorem sleep_insert_run (h : Represents tasks node queue) {t : τ} (ht : t ∈ tasks) (hfree : ∀ l, t ∉ queue l)
    (hfuel : (queue .sleep_list).length < c.fuel) {p : τ → Bool}
    (hp : ∀ u ∈ queue .sleep_list, p u = decide ((c.task u).ticks ≤ (c.task t).ticks)) :
    (sleep_insert t).run ⟨c, node⟩ = (on_nodes (list_insert_before
      (front .sleep_list ((queue .sleep_list).dropWhile p)) (.node t))).run ⟨c, node⟩ := by
  have hloop := task_sleep_loop_run h t [] rfl hfuel hp
  unfold sleep_insert
  simp only [EStateM.run_bind, EStateM.run_get, on_nodes_get_next_run, on_nodes_get_prev_run, h.head_next, hloop,
    h.free t ht hfree, Option.isNone_none, assert_true]

/-- `task_sleep` inserts the running task by its wake-up time and gives up the CPU. -/
theorem task_sleep_run (h : Represents tasks node queue) (hIF : c.IF = false) {ms : u32}
    (hcurrent : c.current ∈ tasks)
    (hfree : ∀ l, c.current ∉ queue l) (hfuel : ∀ l, (queue l).length < c.fuel) {next : τ}
    (hsearch : search (c.doze ms) = some next)
    (hmagic : ((c.doze ms).task next).magic = ONIX_MAGIC) :
    ∃ node', Represents tasks node' (Function.update queue .sleep_list
        ((queue .sleep_list).takeWhile (fun u => (c.task u).ticks ≤ c.wake_time ms) ++
          c.current :: (queue .sleep_list).dropWhile (fun u => (c.task u).ticks ≤ c.wake_time ms))) ∧
      (task_sleep search ms).run ⟨c, node⟩ = .ok () ⟨(c.doze ms).dispatch next, node'⟩ := by
  obtain ⟨node', hinsert, hrep⟩ := h.list_insert_before (l := .sleep_list) (t := c.current)
    (List.takeWhile_append_dropWhile (p := fun u => (c.task u).ticks ≤ c.wake_time ms)).symm hfree
  refine ⟨node', hrep, ?_⟩
  have hsorted := sleep_insert_run (c := c.set_ticks c.current (c.wake_time ms)) h hcurrent hfree
    (hfuel .sleep_list) (p := fun u => (c.task u).ticks ≤ c.wake_time ms) fun u hu => by
      have hne : u ≠ c.current := fun heq => hfree .sleep_list (heq ▸ hu)
      simp [hne]
  have hschedule := schedule_run search node' (c := c.doze ms) hIF hsearch hmagic
  have hwake : c.jiffies + sleep_ticks ms = c.wake_time ms := rfl
  simp [task_sleep_eq, EStateM.run_bind, hIF, hwake, hsorted, on_nodes_run hinsert]
  exact hschedule

/-- A running task that still is in a list is refused, behind the write of its `ticks`. -/
theorem task_sleep_refused (h : Represents tasks node queue) (hIF : c.IF = false) {ms : u32}
    (hlinked : ¬ ∀ l, c.current ∉ queue l) (hfuel : ∀ l, (queue l).length < c.fuel) :
    (task_sleep search ms).run ⟨c, node⟩ =
      .error (.assertion .task_sleep_next) ⟨c.set_ticks c.current (c.wake_time ms), node⟩ := by
  have hloop := task_sleep_loop_run (c := c.set_ticks c.current (c.wake_time ms)) h c.current [] rfl
    (hfuel .sleep_list) (p := fun u => decide (((c.set_ticks c.current (c.wake_time ms)).task u).ticks ≤
      ((c.set_ticks c.current (c.wake_time ms)).task c.current).ticks)) fun u _ => rfl
  have hwake : c.jiffies + sleep_ticks ms = c.wake_time ms := rfl
  simp only [Core.fuel] at hloop
  simp [task_sleep, EStateM.run_bind, hIF, h.next_isNone_of_linked hlinked, h.head_next, hwake,
    Core.fuel, hloop]

/-- The loop of `task_wakeup` takes the due sleepers off the front of the list. -/
theorem task_wakeup_loop_run (h : Represents tasks node queue) (hIF : c.IF = false) {ts : List τ}
    (hts : queue .sleep_list = ts) {fuel : Nat} (hfuel : ts.length < fuel) {p : τ → Bool}
    (hp : ∀ u ∈ ts, p u = decide ((c.task u).ticks ≤ c.jiffies)) :
    ∃ node', Represents tasks node' (Function.update queue .sleep_list (ts.dropWhile p)) ∧
      (task_wakeup_loop fuel (some (front .sleep_list ts))).run ⟨c, node⟩ =
        .ok () ⟨c.wakes (ts.takeWhile p), node'⟩ := by
  induction ts generalizing fuel c node queue with
  | nil =>
    obtain ⟨fuel, rfl⟩ := Nat.exists_eq_succ_of_ne_zero (by omega : fuel ≠ 0)
    exact ⟨node, by simpa [← hts, List.dropWhile] using h, rfl⟩
  | cons t ts ih =>
    obtain ⟨fuel, rfl⟩ := Nat.exists_eq_succ_of_ne_zero (by omega : fuel ≠ 0)
    have ht := hp t (by simp)
    by_cases hlater : (c.task t).ticks > c.jiffies
    · refine ⟨node, ?_, ?_⟩
      · rw [List.dropWhile_cons_of_neg (by simpa [ht] using hlater), ← hts, Function.update_eq_self]
        exact h
      · rw [List.takeWhile_cons_of_neg (by simpa [ht] using hlater)]
        simp [task_wakeup_loop, EStateM.run_bind, hlater]
    · have hdue : p t = true := by simpa [ht] using hlater
      have hmem : t ∈ queue .sleep_list := by simp [hts]
      have hnodup := h.nodup .sleep_list
      rw [hts, List.nodup_cons] at hnodup
      obtain ⟨node₁, hrep₁, hunblock⟩ := task_unblock_run
        (c := (c.set_ticks t 0).emit (.wake t)) h hIF hmem
      rw [hts, List.erase_cons_head] at hrep₁
      obtain ⟨node₂, hrep₂, hrest⟩ := ih (c := c.wake t) hrep₁ hIF (by simp)
        (Nat.lt_of_succ_lt_succ hfuel) fun u hu => by
          have hne : u ≠ t := fun heq => hnodup.1 (heq ▸ hu)
          simp [Core.wake, hne, hp u (by simp [hu])]
      refine ⟨node₂, ?_, ?_⟩
      · rw [List.dropWhile_cons_of_pos hdue]
        simpa using hrep₂
      · have hnext := h.node_next (show queue .sleep_list = [] ++ t :: ts from hts)
        rw [List.takeWhile_cons_of_pos hdue]
        simp [task_wakeup_loop, EStateM.run_bind, hlater, hnext, hunblock]
        exact hrest

/-- `task_wakeup` wakes the due sleepers and leaves the others asleep. -/
theorem task_wakeup_run (a : Sched τ ℓ) (h : Represents tasks node a.queue) (hIF : a.IF = false)
    (hfuel : ∀ l, (a.queue l).length < a.fuel) :
    ∃ node', Represents tasks node' a.wakeup.queue ∧
      task_wakeup.run ⟨a.toCore, node⟩ = .ok () ⟨a.wakeup.toCore, node'⟩ := by
  obtain ⟨node', hrep, hloop⟩ := task_wakeup_loop_run h hIF rfl (hfuel .sleep_list)
    (p := fun t => (a.task t).ticks ≤ a.jiffies) fun u _ => rfl
  refine ⟨node', hrep, ?_⟩
  simp [task_wakeup, EStateM.run_bind, hIF, h.head_next, hloop, Sched.wakeup, Sched.due]

/-- The while loop of `mutex_lock` ends at a free mutex, which is then taken. -/
theorem mutex_lock_loop_take {m : ℓ} {intr again : Bool} (hvalue : (c.lock m).mutex.value = false) :
    (mutex_lock_loop search m intr again).run ⟨c, node⟩ = .ok () ⟨c.take_mutex m intr, node⟩ := by
  simp [mutex_lock_loop, EStateM.run_bind, hvalue, set_value, bool_increment, Core.take_mutex]

/-- At a taken mutex the running task is put on the waiters. -/
theorem mutex_lock_loop_wait (h : Represents tasks node queue) (hIF : c.IF = false) {m : ℓ}
    {intr again : Bool} (hvalue : (c.lock m).mutex.value = true) (hcurrent : c.current ∈ tasks)
    (hfree : ∀ l, c.current ∉ queue l)
    (hfuel : ∀ l, (queue l).length < c.fuel) {next : τ}
    (hsearch : search (c.wait_mutex m intr again) = some next)
    (hmagic : ((c.wait_mutex m intr again).task next).magic = ONIX_MAGIC) :
    ∃ node', Represents tasks node'
        (Function.update queue (.waiters m) (c.current :: queue (.waiters m))) ∧
      (mutex_lock_loop search m intr again).run ⟨c, node⟩ =
        .ok () ⟨(c.wait_mutex m intr again).dispatch next, node'⟩ := by
  obtain ⟨node', hrep, hblock⟩ := task_block_run search
    (c := (c.emit (.enqueue c.current m again)).push_frame (.mutex_lock m intr)) h hIF
    (some (.waiters m)) .TASK_BLOCKED (by decide) hcurrent hfree hfuel hsearch hmagic
  refine ⟨node', hrep, ?_⟩
  simp only [Core.push_frame_frame, Core.emit_frame] at hblock
  simp [mutex_lock_loop, EStateM.run_bind, hvalue, hblock, Core.wait_mutex]

theorem mutex_lock_loop_refused (h : Represents tasks node queue) (hIF : c.IF = false) {m : ℓ}
    {intr again : Bool} (hvalue : (c.lock m).mutex.value = true)
    (hlinked : ¬ ∀ l, c.current ∉ queue l) :
    (mutex_lock_loop search m intr again).run ⟨c, node⟩ = .error (.assertion .task_block_next)
      ⟨(c.emit (.enqueue c.current m again)).push_frame (.mutex_lock m intr), node⟩ := by
  have hblock := task_block_refused search
    (c := (c.emit (.enqueue c.current m again)).push_frame (.mutex_lock m intr)) h hIF
    (some (.waiters m)) .TASK_BLOCKED hlinked
  simp [mutex_lock_loop, EStateM.run_bind, hvalue, hblock]

theorem mutex_unlock_refused {m : ℓ} (hvalue : (c.lock m).mutex.value = false) :
    (mutex_unlock search m).run ⟨c, node⟩ =
      .error (.assertion .mutex_unlock_held) ⟨c.set_IF false, node⟩ := by
  simp [mutex_unlock, EStateM.run_bind, hvalue]

/-- Without waiters `mutex_unlock` frees the mutex and returns. -/
theorem mutex_unlock_release (h : Represents tasks node queue) {m : ℓ}
    (hvalue : (c.lock m).mutex.value = true) (hempty : queue (.waiters m) = []) :
    (mutex_unlock search m).run ⟨c, node⟩ =
      .ok () ⟨((c.set_IF false).free_mutex m none).set_IF c.IF, node⟩ := by
  have hlist := on_nodes_run (c := (c.set_IF false).set_lock m
    { c.lock m with mutex := { value := false } }) (h.list_empty (.waiters m))
  simp [mutex_unlock, EStateM.run_bind, hvalue, set_value, bool_decrement, hlist, hempty,
    Core.free_mutex]

/-- With waiters `mutex_unlock` makes the longest waiting task ready and gives up the CPU. -/
theorem mutex_unlock_handoff (h : Represents tasks node queue) {m : ℓ} {waiters : List τ} {t : τ}
    (hvalue : (c.lock m).mutex.value = true) (hlast : queue (.waiters m) = waiters ++ [t])
    (hwoken : (c.task t).magic = ONIX_MAGIC) {next : τ}
    (hsearch : search ((((c.set_IF false).free_mutex m (some t)).set_state t .TASK_READY).push_frame
      (.mutex_unlock c.IF)) = some next)
    (hmagic : (c.task next).magic = ONIX_MAGIC) :
    ∃ node', Represents tasks node' (Function.update queue (.waiters m) waiters) ∧
      (mutex_unlock search m).run ⟨c, node⟩ = .ok ()
        ⟨((((c.set_IF false).free_mutex m (some t)).set_state t .TASK_READY).push_frame
          (.mutex_unlock c.IF)).dispatch next, node'⟩ := by
  have hmem : t ∈ queue (.waiters m) := by simp [hlast]
  have hlist := on_nodes_run (c := (c.set_IF false).set_lock m
    { c.lock m with mutex := { value := false } }) (h.list_empty (.waiters m))
  have hcell : (do deref (← get_prev (NodePtr.tail (ListPtr.waiters m)))).run node =
      .ok (.node t) node := by
    simp [EStateM.run_bind, h.tail_prev hlast]
  obtain ⟨node', hrep, hunblock⟩ := task_unblock_run
    (c := (c.set_IF false).free_mutex m (some t)) h rfl hmem
  have hnodup := h.nodup (.waiters m)
  rw [hlast, List.nodup_append] at hnodup
  have hnot : t ∉ waiters := fun ht => hnodup.2.2 t ht t (by simp) rfl
  rw [hlast, List.erase_append_right _ hnot, List.erase_cons_head, List.append_nil] at hrep
  have hschedule := schedule_run search node'
    (c := (((c.set_IF false).free_mutex m (some t)).set_state t .TASK_READY).push_frame
      (.mutex_unlock c.IF)) rfl hsearch (by simpa [Core.free_mutex] using hmagic)
  refine ⟨node', hrep, ?_⟩
  simp only [Core.free_mutex, Core.set_IF_frame] at hunblock hschedule
  simp [mutex_unlock, EStateM.run_bind, hvalue, set_value, bool_decrement, hlist, hlast,
    on_nodes_run hcell, hwoken, hunblock, task_yield, hschedule, Core.free_mutex]

/-- `clock_handler` wakes the due sleepers and takes a tick from the running task, which gives up
the CPU when that was its last. -/
theorem clock_handler_run (search : Core τ ℓ → Option τ) (a : Sched τ ℓ) (h : Represents tasks node a.queue)
    (hIF : a.IF = false)
    (hmagic : (a.task a.current).magic = ONIX_MAGIC) (hfuel : ∀ l, (a.queue l).length < a.fuel) :
    ∃ node', Represents tasks node' a.wakeup.queue ∧
      (clock_handler search 0x20).run ⟨a.toCore, node⟩ =
        (if (a.wakeup.tick.task a.current).ticks = 0 then schedule search else pure ()).run
          ⟨a.wakeup.tick, node'⟩ := by
  obtain ⟨node', hrep, hwakeup⟩ := task_wakeup_run a h hIF hfuel
  refine ⟨node', hrep, ?_⟩
  have hcurrent : a.wakeup.current = a.current := by simp [Sched.wakeup]
  have hmagic' : (a.wakeup.task a.current).magic = ONIX_MAGIC := by simpa [Sched.wakeup] using hmagic
  rw [clock_handler, EStateM.run_bind]
  simp only [decide_true, assert_true]
  rw [Outcome.bind_of_ok hwakeup]
  simp only [EStateM.run_bind, update_core_run, running_task_run, task_at_run, emit_run,
    Core.set_jiffies_fields, hcurrent, hmagic', decide_true, assert_true]
  split <;> simp_all [Core.tick]

end onix
