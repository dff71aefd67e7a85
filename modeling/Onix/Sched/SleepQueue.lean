import Onix.Sched.Sleep

open DoublyLinked TimerQueue

namespace onix

variable {τ ℓ : Type} [DecidableEq τ] [DecidableEq ℓ]

namespace Sched

variable {a b : Sched τ ℓ} {op : Op ℓ}

/-- A step that is no clock interrupt ends no sleep. -/
theorem Step.sleepers_prefix {search : Core τ ℓ → Option τ} (hstep : a.Step search op b)
    (hop : op ≠ .clock) : sleepers a.log <+: sleepers b.log := by
  have hact' : ∀ {c : Sched τ ℓ} {calls}, a.Act op calls c → sleepers a.log <+: sleepers c.log := by
    intro c calls hact
    rcases hact.time_cases with ⟨hclock, -⟩ | ⟨ms, -, -, -, -, rfl⟩ | ⟨⟨es, hlog, hes⟩, -, -, -⟩
    · exact absurd hclock hop
    · exact List.prefix_append _ _
    · rw [hlog, sleepers_append_lock hes]
  cases hstep with
  | stay hact => exact hact' hact
  | switch hact hsearch => simpa [sleepers] using hact' hact

/-- A clock interrupt calls `schedule` when the running task, which does not sleep, has one tick
left. -/
theorem Step.of_clock {search : Core τ ℓ → Option τ} (hstep : a.Step search .clock b)
    (hdue : a.current ∉ a.due) :
    (a.task a.current).ticks ≠ 1 ∧ b = a.clock ∨
      (a.task a.current).ticks = 1 ∧ ∃ next, b = ⟨a.clock.dispatch next, a.clock.queue⟩ := by
  have hticks : (a.clock.task a.current).ticks = 0 ↔ (a.task a.current).ticks = 1 := by
    simp only [clock_fields, hdue, if_false, if_true]
    rw [UInt32.sub_eq_iff_eq_add, UInt32.zero_add]
  cases hstep with
  | stay hact =>
    obtain ⟨-, rfl, hcalls⟩ := hact.of_clock
    exact .inl ⟨fun hone => by simpa using hcalls.mpr (hticks.mpr hone), rfl⟩
  | @switch c next hact hsearch =>
    obtain ⟨-, rfl, hcalls⟩ := hact.of_clock
    exact .inr ⟨hticks.mp (hcalls.mp rfl), next, rfl⟩

end Sched

/-- The sleep list in the heap: the sleeping tasks by the wake-up times that their calls of
`task_sleep` recorded, tasks of one wake-up time in the order of these calls, and none of them
behind its time. -/
structure SleepQueue (s : Kernel τ ℓ) (queue : ListPtr ℓ → List τ) : Prop where
  deque : ∀ l, Deque s.node (.head l) (.tail l) ((queue l).map .node)
  sleeping : ∀ t, some t ∈ s.task_table ∧ (s.task t).state = .TASK_SLEEPING ↔ t ∈ queue .sleep_list
  in_order : InOrder ((queue .sleep_list).map fun t => (t, (s.task t).ticks.toNat)) (sleepers s.log)
  ahead : ∀ t ∈ queue .sleep_list, s.jiffies ≤ (s.task t).ticks

/-- What a clock interrupt does to the tasks. It ends exactly the sleeps whose wake-up time `jiffies`
has reached. A woken task has no ticks and a null node, and it is ready or dispatched at once. No
other task changes its state but by the call of `schedule` at the end of a slice, and the only link
of another task that changes is the `prev` of the first sleeper that stays. -/
structure Rings (s s' : Kernel τ ℓ) (queue : ListPtr ℓ → List τ) : Prop where
  slept : sleepers s'.log = (sleepers s.log).filter (s.jiffies.toNat < ·.2)
  woken : ∀ t ∈ queue .sleep_list, (s.task t).ticks ≤ s.jiffies →
    (s'.task t).ticks = 0 ∧ s'.node (.node t) = ⟨none, none⟩ ∧
      (s'.task t).state = if t = s'.current then .TASK_RUNNING else .TASK_READY
  switch : (s.task s.current).ticks ≠ 1 → s'.current = s.current
  state : ∀ t, ¬ (t ∈ queue .sleep_list ∧ (s.task t).ticks ≤ s.jiffies) →
    (s'.task t).state = (s.task t).state ∨ (s.task s.current).ticks = 1 ∧
      (t = s'.current ∧ (s'.task t).state = .TASK_RUNNING ∨
        t = s.current ∧ (s'.task t).state = .TASK_READY)
  node : ∀ t, some t ∈ s.task_table → ¬ (t ∈ queue .sleep_list ∧ (s.task t).ticks ≤ s.jiffies) →
    s'.node (.node t) = s.node (.node t) ∨
      ((queue .sleep_list).filter fun u => s.jiffies < (s.task u).ticks).head? = some t ∧
        s'.node (.node t) = { s.node (.node t) with prev := some (.head .sleep_list) }
  lists : ∀ l, Deque s'.node (.head l) (.tail l) ((Function.update queue .sleep_list
    ((queue .sleep_list).filter fun u => s.jiffies < (s.task u).ticks) l).map .node)

namespace Sched

variable {a b : Sched τ ℓ} {idle : τ}

omit [DecidableEq ℓ] in
theorem Restful.sleep_queue (h : a.Restful idle) {node : NodeHeap (NodePtr τ ℓ)}
    (hrep : Represents a.tasks node a.queue) : SleepQueue ⟨a.toCore, node⟩ a.queue := by
  refine ⟨hrep.deque, fun t => ⟨fun ⟨ht, hstate⟩ => ?_, fun hmem => ?_⟩, h.on_time.in_order,
    fun t ht => (h.on_time.ahead t ht).1⟩
  · have hne : t ≠ idle := fun heq => h.awake.2 (heq ▸ hstate)
    exact (h.agrees.settled t ht hne).1.mem_sleep_list hstate
  · have ht := h.member _ t hmem
    have hne : t ≠ idle := fun heq => h.awake.1 (heq ▸ hmem)
    rcases (h.agrees.settled t ht hne).1.of_mem hmem fun l' hl' => hrep.disjoint _ _ t hl' hmem with
      hstate | hstate
    · exact ⟨ht, hstate.1⟩
    · exact hstate.2.elim

omit [DecidableEq ℓ] in
theorem OnTime.asleep_eq_filter (h : a.OnTime) (hwf : a.WF) :
    a.asleep = (a.queue .sleep_list).filter fun t => a.jiffies < (a.task t).ticks := by
  rw [← due_append_asleep, List.filter_append, List.filter_eq_nil_iff.mpr, List.nil_append, List.filter_eq_self.mpr]
  · intro t ht
    obtain ⟨hmem, hdue⟩ := (mem_asleep hwf).mp ht
    simpa using fun hle => hdue (h.mem_due.mpr ⟨hmem, UInt32.not_lt.mp hle⟩)
  · intro t ht
    simpa using ticks_le_of_mem_due ht

/-- A clock interrupt takes the tasks that are due off the sleep list. -/
theorem Step.queue_of_clock {search : Core τ ℓ → Option τ} (hstep : a.Step search .clock b)
    (hdue : a.current ∉ a.due) : b.queue = Function.update a.queue .sleep_list a.asleep := by
  rcases hstep.of_clock hdue with ⟨-, rfl⟩ | ⟨-, next, rfl⟩ <;> rfl

omit [DecidableEq ℓ] in
theorem Restful.current_not_due (h : a.Restful idle) : a.current ∉ a.due :=
  fun hdue => h.current_notMem (due_subset a hdue)

/-- The link of a task that is not due changes only where it is the first sleeper that stays. -/
theorem Restful.links {search : Core τ ℓ → Option τ} (hstep : a.Step search .clock b)
    (h : a.Restful idle) (hwf : a.WF) {node node' : NodeHeap (NodePtr τ ℓ)}
    (hrep : Represents a.tasks node a.queue) (hrep' : Represents b.tasks node' b.queue) {t : τ}
    (ht : t ∈ a.tasks) (hstay : t ∉ a.due) :
    node' (.node t) = node (.node t) ∨ a.asleep.head? = some t ∧
      node' (.node t) = { node (.node t) with prev := some (.head .sleep_list) } := by
  have hqueue := hstep.queue_of_clock h.current_not_due
  by_cases hmem : ∃ l, t ∈ a.queue l
  · obtain ⟨l, hl⟩ := hmem
    have hd := hrep.deque l
    have hd' := hrep'.deque l
    rw [hqueue] at hd'
    by_cases hsleep : l = .sleep_list
    · subst hsleep
      rw [Function.update_self] at hd'
      rw [← due_append_asleep, List.map_append] at hd
      have htstay : t ∈ a.asleep := (mem_asleep hwf).mpr ⟨hl, hstay⟩
      obtain hcell | ⟨hhead, hcell⟩ := hd.cell_of_suffix hd' (List.mem_map_of_mem htstay)
      · exact .inl hcell
      · exact .inr ⟨by simpa using hhead, hcell⟩
    · rw [Function.update_of_ne hsleep] at hd'
      exact .inl (hd.cell_eq hd' (List.mem_map_of_mem hl))
  · have hfree : ∀ l, t ∉ a.queue l := fun l hl => hmem ⟨l, hl⟩
    have hfree' : ∀ l, t ∉ b.queue l := by
      intro l hl
      rw [hqueue] at hl
      by_cases hsleep : l = .sleep_list
      · subst hsleep
        rw [Function.update_self] at hl
        exact hfree _ (asleep_subset a hl)
      · rw [Function.update_of_ne hsleep] at hl
        exact hfree l hl
    have ht' : t ∈ b.tasks := by
      rw [Core.mem_tasks, hstep.frame.1]
      exact Core.mem_tasks.mp ht
    exact .inl ((hrep'.free t ht' hfree').trans (hrep.free t ht hfree).symm)

theorem Restful.rings {search : Core τ ℓ → Option τ} (hstep : a.Step search .clock b)
    (h : a.Restful idle) (hwf : a.WF) {node node' : NodeHeap (NodePtr τ ℓ)}
    (hrep : Represents a.tasks node a.queue) (hrep' : Represents b.tasks node' b.queue) :
    Rings ⟨a.toCore, node⟩ ⟨b.toCore, node'⟩ a.queue := by
  have hcurrent := h.current_notMem
  have hdue := h.current_not_due
  have hasleep := h.on_time.asleep_eq_filter hwf
  have hqueue := hstep.queue_of_clock hdue
  have hlog : sleepers b.log = sleepers a.clock.log := by
    rcases hstep.of_clock hdue with ⟨-, rfl⟩ | ⟨-, next, rfl⟩
    · rfl
    · simp [sleepers]
  have hlists := hrep'.deque
  rw [hqueue] at hlists
  have hgone : ∀ t ∈ a.due, b.Free t := by
    intro t ht l hl
    rw [hqueue] at hl
    exact not_mem_update_remove (· ∈ a.due) (fun u => mem_asleep hwf) ht (due_subset a ht)
      hwf.disjoint hl
  refine ⟨hlog.trans h.on_time.sleepers_clock, fun t ht hticks => ?_, fun hone => ?_, fun t ht => ?_,
    fun t ht hstay => ?_, ?_⟩
  · have htdue : t ∈ a.due := h.on_time.mem_due.mpr ⟨ht, hticks⟩
    have hne : t ≠ a.current := fun heq => hcurrent (heq ▸ ht)
    refine ⟨?_, hrep'.free t ?_ (hgone t htdue), ?_⟩
    · rcases hstep.of_clock hdue with ⟨-, rfl⟩ | ⟨-, next, rfl⟩ <;> simp [htdue, hne]
    · rw [Core.mem_tasks, hstep.frame.1]
      exact hwf.member _ t ht
    · rcases hstep.of_clock hdue with ⟨-, rfl⟩ | ⟨-, next, rfl⟩ <;> simp [htdue, hne]
  · rcases hstep.of_clock hdue with ⟨-, rfl⟩ | ⟨hone', -⟩
    · simp
    · exact absurd hone' hone
  · have htdue : t ∉ a.due := fun htdue => ht (h.on_time.mem_due.mp htdue)
    rcases hstep.of_clock hdue with ⟨-, rfl⟩ | ⟨hone, next, rfl⟩
    · exact .inl (by simp [htdue])
    · have hstate := (a.clock.dispatch_fields next t).2.2.2.1
      simp only [clock_fields, clock_frame, htdue, if_false] at hstate
      split_ifs at hstate with hnext hback
      · exact .inr ⟨hone, .inl ⟨by simp [hnext], hstate⟩⟩
      · exact .inr ⟨hone, .inr ⟨hback.1, hstate⟩⟩
      · exact .inl hstate
  · rw [← hasleep]
    exact h.links hstep hwf hrep hrep' (Core.mem_tasks.mpr ht) fun htdue => hstay (h.on_time.mem_due.mp htdue)
  · rw [← hasleep]
    exact hlists

end Sched

/-- With an idle task that does not sleep and wake-up times in the range of `jiffies`, the sleep list
is exact in every reachable state, clock interrupts wake exactly the tasks whose time has come, and
no other step wakes a sleeper. -/
theorem sleep_queue_exact {idle : τ} {tasks : List (τ × u32)} {s : Kernel τ ℓ}
    (hreach : Reachable idle tasks InRange s) :
    ∃ queue, SleepQueue s queue ∧
      (∀ s', step (task_search .TASK_READY) .clock s = some s' → Rings s s' queue) ∧
      ∀ op s', op ≠ .clock → step (task_search .TASK_READY) op s = some s' →
        sleepers s.log <+: sleepers s'.log := by
  obtain ⟨a, hholds⟩ := reachable_invariant (Sched.Restful idle)
    (fun _ _ _ h => h.search_eq ▸ task_search_sound) (fun _ _ hbooted => hbooted.restful)
    (fun _ _ _ _ hwf hrest hallowed hstep => hstep.restful hwf hallowed hrest) hreach
  obtain ⟨c, node⟩ := s
  have href := hholds.refines
  obtain rfl : c = a.toCore := href.core
  refine ⟨a.queue, hholds.inv.sleep_queue href.represents, fun s' hstep => ?_, fun op s' hop hstep => ?_⟩
  · obtain ⟨hwf, b, hab, href', -⟩ := hholds.step task_search_sound hstep
    obtain ⟨c, node'⟩ := s'
    obtain rfl : c = b.toCore := href'.core
    exact hholds.inv.rings hab hwf href.represents href'.represents
  · obtain ⟨-, b, hab, href', -⟩ := hholds.step task_search_sound hstep
    rw [href'.core]
    exact hab.sleepers_prefix hop

/-- The test of a run in which the idle task does not sleep and wake-up times are in range. -/
def in_range (c : Core τ ℓ) : Op ℓ → Bool
  | .call (.sleep ms) =>
    c.idel_task ≠ some c.current ∧ c.jiffies.toNat + (sleep_ticks ms).toNat < 2 ^ 32
  | _ => true

omit [DecidableEq ℓ] in
theorem in_range_allowed (c : Core τ ℓ) (op : Op ℓ) (hok : in_range c op = true) :
    InRange c (task_search .TASK_READY) op := by
  refine ⟨rfl, ?_, ?_⟩
  · rintro hidle ms rfl
    exact (of_decide_eq_true hok).1 hidle
  · rintro ms rfl
    exact (of_decide_eq_true hok).2

/-- The init task sleeps until the second clock interrupt and the test task until the third. -/
def two_sleepers : List (Op Nat) :=
  [enable, .clock, .call (.sleep 10), .call (.sleep 20), enable, .clock, .resume]

/-- A clock interrupt that wakes one sleeper changes the node of another that stays asleep. -/
theorem wakeup_relinks_sleeper : ∃ s s' : Kernel Nat Nat, Reachable 1 (shipped_tasks 2 3) InRange s ∧
    step (task_search .TASK_READY) .clock s = some s' ∧ (s.task 3).state = .TASK_SLEEPING ∧
      s.jiffies < (s.task 3).ticks ∧ s'.node (.node 3) ≠ s.node (.node 3) := by
  obtain ⟨s, hreach, hcheck⟩ := exists_reachable boots_shipped_kernel in_range_allowed two_sleepers
    (fun s => (step (task_search .TASK_READY) .clock s).any fun s' =>
      (s.task 3).state = .TASK_SLEEPING ∧ s.jiffies < (s.task 3).ticks ∧
        s'.node (.node 3) ≠ s.node (.node 3)) (by decide +kernel)
  obtain ⟨s', hstep, hcheck⟩ := Option.any_eq_true _ _ |>.mp hcheck
  exact ⟨s, s', hreach, hstep, of_decide_eq_true hcheck⟩

/-- The sleep list of the two sleepers, one clock interrupt before the first of them is woken. -/
theorem sleep_queue_exact_shipped : ∃ s : Kernel Nat Nat, Reachable 1 (shipped_tasks 2 3) InRange s ∧
    s.jiffies = 2 ∧ sleepers s.log = [(2, 2), (3, 3)] ∧
    ∃ queue, SleepQueue s queue ∧
      (∀ s', step (task_search .TASK_READY) .clock s = some s' → Rings s s' queue) ∧
      ∀ op s', op ≠ .clock → step (task_search .TASK_READY) op s = some s' →
        sleepers s.log <+: sleepers s'.log := by
  obtain ⟨s, hreach, hcheck⟩ := exists_reachable boots_shipped_kernel in_range_allowed two_sleepers
    (fun s => s.jiffies = 2 ∧ sleepers s.log = [(2, 2), (3, 3)]) (by decide +kernel)
  obtain ⟨hjiffies, hsleepers⟩ := of_decide_eq_true hcheck
  exact ⟨s, hreach, hjiffies, hsleepers, sleep_queue_exact hreach⟩

end onix
