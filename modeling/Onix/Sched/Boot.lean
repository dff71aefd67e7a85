import Onix.Sched.Invariant

open DoublyLinked

namespace onix

variable {τ ℓ : Type}

/-- The first free slot behind the slots that are taken. -/
theorem get_free_task_loop_append (page : τ) (taken : List τ) (slots : List (Option τ)) :
    get_free_task_loop page (taken.map some ++ none :: slots) =
      some (taken.map some ++ some page :: slots) := by
  induction taken with
  | nil => rfl
  | cons t taken ih => simp [get_free_task_loop, ih]

variable [DecidableEq τ] [DecidableEq ℓ]

/-- `list_init` makes the sentinels of a list point at each other, whatever they held. -/
theorem list_init_run {α : Type} [DecidableEq α] (list : list_t α) (h : NodeHeap α)
    (hne : list.head ≠ list.tail) :
    (list_init list).run h = .ok () (Function.update (Function.update h list.head
      ⟨none, some list.tail⟩) list.tail ⟨some list.head, none⟩) := by
  simp only [list_init, EStateM.run_bind, set_prev_run, set_next_run]
  congr 1
  funext a
  by_cases h₁ : a = list.tail
  · subst h₁
    simp [Ne.symm hne]
  · by_cases h₂ : a = list.head
    · subst h₂
      simp [hne]
    · simp [h₁, h₂]

/-- `spin_init` leaves the lock as it is in cold memory, and with it its mutex. -/
theorem spin_init_run (l : ℓ) (s : Kernel τ ℓ) :
    (spin_init l).run s = .ok ()
      ⟨s.set_lock l { holder := none, mutex := { value := false }, «repeat» := 0 },
        Function.update (Function.update s.node (.head (.waiters l)) ⟨none, some (.tail (.waiters l))⟩)
          (.tail (.waiters l)) ⟨some (.head (.waiters l)), none⟩⟩ := by
  have hinit := fun c : Core τ ℓ => on_nodes_run (c := c)
    (list_init_run (ListPtr.waiters l).list s.node (by simp [ListPtr.list]))
  simp only [spin_init, set_holder, set_repeat, mutex_init, set_value, EStateM.run_bind,
    update_core_run, hinit]
  simp [Core.set_lock, ListPtr.list]

/-- The fields `task_create` gives a task. -/
def created (priority : u32) : task_t :=
  { state := .TASK_READY, priority, ticks := priority, jiffies := 0, magic := ONIX_MAGIC }

/-- Memory in the course of `task_init`, when these tasks are created and so many slots are free. -/
structure Booting (boot : τ) (done : List (τ × u32)) (free : Nat) (s : Kernel τ ℓ) : Prop where
  table : s.task_table = (done.map Prod.fst).map some ++ List.replicate free none
  task : ∀ t priority, (t, priority) ∈ done → s.task t = created priority
  boot_ticks : (s.task boot).ticks = 1
  boot_magic : (s.task boot).magic = ONIX_MAGIC
  current : s.current = boot
  IF : s.IF = false
  jiffies : s.jiffies = 0
  gate_task : s.gate_task = none
  stack : ∀ t, s.stack t = []
  log : s.log = []
  lock : ∀ l, s.lock l = { holder := none, mutex := { value := false }, «repeat» := 0 }
  represents : Represents s.tasks s.node fun _ => []

/-- `task_create` on a page of its own takes the first free slot. -/
theorem task_create_run {boot : τ} {done : List (τ × u32)} {free : Nat} {s : Kernel τ ℓ}
    (hboot : Booting boot done (free + 1) s) {page : τ} (hpage : page ≠ boot)
    (hnew : page ∉ done.map Prod.fst) (priority : u32) :
    ∃ s', (task_create page priority).run s = .ok page s' ∧ s'.idel_task = s.idel_task ∧
      Booting boot (done ++ [(page, priority)]) free s' := by
  have htable : s.task_table = (done.map Prod.fst).map some ++ none :: List.replicate free none :=
    hboot.table
  obtain ⟨slots, hslots⟩ : ∃ slots, slots = (done.map Prod.fst).map some ++ some page ::
      List.replicate free none := ⟨_, rfl⟩
  refine ⟨⟨({ s.toCore with task_table := slots } : Core τ ℓ).set_task page (created priority),
    Function.update s.node (.node page) ⟨none, none⟩⟩, ?_, rfl, ?_⟩
  · have hclear : (do set_prev (NodePtr.node page) none; set_next (NodePtr.node page) none).run s.node =
        .ok () (Function.update s.node (NodePtr.node page : NodePtr τ ℓ) ⟨none, none⟩) := by
      simp [EStateM.run_bind]
    have hslot : get_free_task_loop page s.task_table = some slots := by
      rw [htable, hslots, get_free_task_loop_append]
    simp only [task_create, get_free_task, EStateM.run_bind, EStateM.run_get, hslot, update_core_run,
      EStateM.run_pure, on_nodes_run hclear, created]
  · have hother : ∀ {t : τ}, t ≠ page → ∀ c : Core τ ℓ, (c.set_task page (created priority)).task t =
        c.task t := fun ht c => c.set_task_of_ne ht _
    constructor
    · simp [hslots]
    · intro t p ht
      rcases List.mem_append.mp ht with hdone | hnow
      · have hne : t ≠ page := fun heq => hnew (heq ▸ List.mem_map_of_mem hdone)
        rw [hother hne]
        exact hboot.task t p hdone
      · obtain ⟨rfl, rfl⟩ : t = page ∧ p = priority := by simpa using hnow
        simp
    · rw [hother hpage.symm]
      exact hboot.boot_ticks
    · rw [hother hpage.symm]
      exact hboot.boot_magic
    · exact hboot.current
    · exact hboot.IF
    · exact hboot.jiffies
    · exact hboot.gate_task
    · exact hboot.stack
    · exact hboot.log
    · exact hboot.lock
    · refine ⟨fun l => (hboot.represents.deque l).congr fun a ha => ?_,
        hboot.represents.disjoint, fun t ht hfree => ?_⟩
      · have hne : a ≠ .node page := by
          rintro rfl
          simp at ha
        exact Function.update_of_ne hne _ _
      · by_cases htp : t = page
        · subst htp
          simp
        · have hmem : t ∈ s.tasks := by
            have ht' : some t ∈ slots := ht
            simpa [Core.tasks, htable, hslots, htp] using ht'
          have hne : NodePtr.node (ℓ := ℓ) t ≠ .node page := by simpa using htp
          simpa [Function.update_of_ne hne] using hboot.represents.free t hmem hfree

/-- `task_create` for each task of a list. -/
theorem task_creates_run {boot : τ} {done tasks : List (τ × u32)} {free : Nat} {s : Kernel τ ℓ}
    (hboot : Booting boot done (free + tasks.length) s)
    (hnodup : (boot :: (done ++ tasks).map Prod.fst).Nodup) :
    ∃ s', (tasks.forM fun (page, priority) => do
        let _ ← task_create page priority : KernelM τ ℓ Unit).run s = .ok () s' ∧
      s'.idel_task = s.idel_task ∧ Booting boot (done ++ tasks) free s' := by
  induction tasks generalizing done s with
  | nil => exact ⟨s, rfl, rfl, by simpa using hboot⟩
  | cons t tasks ih =>
    obtain ⟨page, priority⟩ := t
    have hboot' : Booting boot done (free + tasks.length + 1) s := hboot
    have hpage : page ≠ boot ∧ page ∉ done.map Prod.fst := by
      simp only [List.map_append, List.map_cons, List.nodup_cons, List.nodup_append, List.mem_append,
        List.mem_cons, not_or] at hnodup
      exact ⟨Ne.symm hnodup.1.2.1, fun hmem => hnodup.2.2.2 page hmem page (.inl rfl) rfl⟩
    obtain ⟨s₁, hrun, hidle, hboot₁⟩ := task_create_run hboot' hpage.1 hpage.2 priority
    obtain ⟨s₂, hruns, hidle₂, hboot₂⟩ := ih hboot₁ (by simpa using hnodup)
    refine ⟨s₂, ?_, by rw [hidle₂, hidle], by simpa using hboot₂⟩
    simp only [List.forM, EStateM.run_bind, hrun]
    exact hruns

/-- The states in which `task_init` leaves cold memory: an idle task of priority one and further
tasks, each on a page of its own, in a table that has a slot for each. -/
def boots (idle : τ) (tasks : List (τ × u32)) (s : Kernel τ ℓ) : Prop :=
  ∃ NR_TASKS boot page node, (boot :: idle :: tasks.map Prod.fst).Nodup ∧ tasks.length < NR_TASKS ∧
    (task_init idle tasks).run (cold NR_TASKS boot page node) = .ok () s

/-- The first half of `task_init`: the lists are empty and the task table is cleared. -/
theorem task_setup_run (NR_TASKS : Nat) (boot : τ) (page : τ → task_t)
    (node : NodeHeap (NodePtr τ ℓ)) :
    ∃ s, (do
        on_nodes (list_init ListPtr.block_list.list)
        on_nodes (list_init ListPtr.sleep_list.list)
        task_setup : KernelM τ ℓ Unit).run (cold NR_TASKS boot page node) = .ok () s ∧
      Booting boot [] NR_TASKS s := by
  have hinit := fun (l : ListPtr ℓ) (c : Core τ ℓ) (h : NodeHeap (NodePtr τ ℓ)) =>
    on_nodes_run (c := c) (list_init_run l.list h (by simp [ListPtr.list]))
  have hcold : cold NR_TASKS boot page node =
      ⟨(cold NR_TASKS boot page node).toCore, (cold NR_TASKS boot page node).node⟩ := rfl
  rw [hcold]
  simp only [EStateM.run_bind, hinit, task_setup, running_task_run, update_core_run]
  refine ⟨_, rfl, ?_⟩
  constructor
  · simp [cold, Core.set_task]
  · simp
  · simp [cold]
  · simp [cold]
  · rfl
  · rfl
  · rfl
  · rfl
  · exact fun t => rfl
  · rfl
  · exact fun l => rfl
  · refine ⟨fun l => ?_, by simp, ?_⟩
    · cases l with
      | block_list => exact Deque.nil (by simp) (by simp [ListPtr.list]) (by simp [ListPtr.list])
      | sleep_list => exact Deque.nil (by simp) (by simp [ListPtr.list]) (by simp [ListPtr.list])
      | waiters m =>
        exact Deque.nil (by simp) (by simp [ListPtr.list, cold]) (by simp [ListPtr.list, cold])
    · simp [Core.tasks, cold]

/-- `task_init` on cold memory does not fail. -/
theorem task_init_run {boot idle : τ} {tasks : List (τ × u32)} {NR_TASKS : Nat} (page : τ → task_t)
    (node : NodeHeap (NodePtr τ ℓ)) (hnodup : (boot :: idle :: tasks.map Prod.fst).Nodup)
    (hslots : tasks.length < NR_TASKS) :
    ∃ s, (task_init idle tasks).run (cold NR_TASKS boot page node) = .ok () s ∧
      s.idel_task = some idle ∧
      Booting boot ((idle, 1) :: tasks) (NR_TASKS - 1 - tasks.length) s := by
  obtain ⟨s₁, hsetup, hboot₁⟩ := task_setup_run NR_TASKS boot page node
  have hfree : NR_TASKS = NR_TASKS - 1 - tasks.length + tasks.length + 1 := by omega
  rw [hfree] at hboot₁
  have hidle : idle ≠ boot := by
    rintro rfl
    simp at hnodup
  obtain ⟨s₂, hcreate, -, hboot₂⟩ := task_create_run hboot₁ hidle (by simp) 1
  have hboot₃ : Booting boot [(idle, 1)] (NR_TASKS - 1 - tasks.length + tasks.length)
      ({ s₂ with idel_task := some idle } : Kernel τ ℓ) := { hboot₂ with }
  obtain ⟨s₃, hcreates, hidle₃, hboot₄⟩ := task_creates_run hboot₃ (by simpa using hnodup)
  refine ⟨s₃, ?_, hidle₃, hboot₄⟩
  have hsplit : task_init idle tasks = (do
      on_nodes (list_init ListPtr.block_list.list)
      on_nodes (list_init ListPtr.sleep_list.list)
      task_setup : KernelM τ ℓ Unit) >>= (fun _ => do
        let idel_task ← task_create idle 1
        update_core fun c => { c with idel_task := some idel_task }
        tasks.forM (fun (page, priority) => do let _ ← task_create page priority)) := by
    simp only [task_init, bind_assoc]
  rw [hsplit, Outcome.bind_of_ok hsetup]
  simp only [EStateM.run_bind, hcreate, update_core_run]
  exact hcreates

/-- The abstract state behind `task_init`: every list is empty, every task of the table is ready
with a full slice, and the boot code runs. -/
structure Sched.Booted (idle : τ) (tasks : List (τ × u32)) (a : Sched τ ℓ) : Prop where
  queue : ∀ l, a.queue l = []
  idel_task : a.idel_task = some idle
  table : ∃ slots, a.task_table = some idle :: slots ∧ some idle ∉ slots
  mem : ∀ t, some t ∈ a.task_table ↔ ∃ priority, (t, priority) ∈ (idle, 1) :: tasks
  task : ∀ t priority, (t, priority) ∈ (idle, 1) :: tasks → a.task t = created priority
  current : some a.current ∉ a.task_table
  IF : a.IF = false
  jiffies : a.jiffies = 0
  gate_task : a.gate_task = none
  stack : ∀ t, a.stack t = []
  log : a.log = []
  lock : ∀ l, a.lock l = { holder := none, mutex := { value := false }, «repeat» := 0 }

theorem boots_refines {idle : τ} {tasks : List (τ × u32)} {s : Kernel τ ℓ} (hboots : boots idle tasks s) :
    ∃ a : Sched τ ℓ, Refines s a ∧ a.WF ∧ a.Booted idle tasks := by
  obtain ⟨NR_TASKS, boot, page, node, hnodup, hslots, hrun⟩ := hboots
  obtain ⟨s', hrun', hidle, hboot⟩ := task_init_run page node hnodup hslots
  obtain rfl : s' = s := by
    rw [hrun'] at hrun
    simpa using hrun
  have hmem : ∀ t, some t ∈ s'.task_table ↔ ∃ priority, (t, priority) ∈ (idle, 1) :: tasks := by
    intro t
    rw [hboot.table, List.mem_append, List.map_map]
    simp only [List.mem_map, Function.comp_apply, Option.some.injEq, List.mem_replicate, reduceCtorEq,
      and_false, or_false, Prod.exists, exists_and_right, exists_eq_right]
  have htable : ∃ slots, s'.task_table = some idle :: slots ∧ some idle ∉ slots := by
    refine ⟨(tasks.map Prod.fst).map some ++ List.replicate (NR_TASKS - 1 - tasks.length) none,
      by simpa using hboot.table, fun h => ?_⟩
    rw [List.mem_append] at h
    rcases h with h | h
    · exact (List.nodup_cons.mp (List.nodup_cons.mp hnodup).2).1 (by simpa using h)
    · simp at h
  have hcurrent : some s'.current ∉ s'.task_table := by
    rw [hboot.current, hmem]
    rintro ⟨priority, hpriority⟩
    exact (List.nodup_cons.mp hnodup).1 (List.mem_map_of_mem (f := Prod.fst) hpriority)
  refine ⟨⟨s'.toCore, fun _ => []⟩, ⟨rfl, hboot.represents⟩, ⟨⟨?_, ?_, ?_, ?_, ?_, ?_⟩, ?_, ?_, ?_, ?_⟩,
    ⟨fun _ => rfl, hidle, htable, hmem, hboot.task, hcurrent, hboot.IF, hboot.jiffies, hboot.gate_task,
      hboot.stack, hboot.log, hboot.lock⟩⟩
  · exact ⟨idle, hidle, by simp [hboot.table]⟩
  · intro t ht
    obtain ⟨priority, hpriority⟩ := (hmem t).mp ht
    simp [hboot.task t priority hpriority, created]
  · simpa [hboot.current] using hboot.boot_magic
  · simp [hboot.stack]
  · simp [hboot.stack]
  · exact .inr ⟨hboot.stack _, by simpa [hboot.current] using hboot.boot_ticks⟩
  · simp
  · simp [hboot.gate_task]
  · simp
  · simp

end onix
