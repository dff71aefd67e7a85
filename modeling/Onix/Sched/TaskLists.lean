import Onix.Sched.Shipped

open DoublyLinked

namespace onix

variable {τ ℓ : Type} [DecidableEq τ] [DecidableEq ℓ]

/-- Some call of `schedule` has found a task. -/
def Core.Dispatched (c : Core τ ℓ) : Prop :=
  ∃ current task next, Event.search current task (some next) ∈ c.log

/-- Behind the first dispatch a task of the table runs. -/
theorem Sched.Step.landed {search : Core τ ℓ → Option τ} {a b : Sched τ ℓ} {op : Op ℓ}
    (hstep : a.Step search op b) (hsound : Sound search) (hwf : a.WF)
    (hlanded : a.Dispatched → some a.current ∈ a.task_table) :
    b.Dispatched → some b.current ∈ b.task_table := by
  cases hstep with
  | stay hact =>
    rintro ⟨current, task, next, hmem⟩
    rw [hact.frame.1, hact.frame.2.2.1]
    exact hlanded ⟨current, task, next, hact.search_mem hmem⟩
  | @switch b next hact hsearch =>
    intro _
    obtain ⟨htable, hidle, -, -, -⟩ := hact.frame
    obtain ⟨next', hsearch', hmem⟩ := hsound b.toCore (by rw [htable, hidle]; exact hwf.idle)
    obtain rfl : next = next' := Option.some.inj (hsearch.symm.trans hsearch')
    simpa using hmem

/-- The lists in the heap, and how the states of the tasks agree with them. -/
structure TaskLists (s : Kernel τ ℓ) (queue : ListPtr ℓ → List τ) : Prop where
  deque : ∀ l, Deque s.node (.head l) (.tail l) ((queue l).map .node)
  current : some s.current ∈ s.task_table
  running : ∀ t, some t ∈ s.task_table → ((s.task t).state = .TASK_RUNNING ↔ t = s.current)
  null : ∀ t, some t ∈ s.task_table →
    (s.task t).state = .TASK_READY ∨ (s.task t).state = .TASK_RUNNING → s.node (.node t) = ⟨none, none⟩
  sleeping : ∀ t, some t ∈ s.task_table ∧ (s.task t).state = .TASK_SLEEPING ↔ t ∈ queue .sleep_list
  blocked : ∀ t, some t ∈ s.task_table ∧ (s.task t).state = .TASK_BLOCKED ↔
    ∃ l : ListPtr ℓ, l.Blocks ∧ t ∈ queue l
  once : ∀ l, (queue l).Nodup
  one_list : ∀ t l l', t ∈ queue l → t ∈ queue l' → l = l'
  gate : queue .block_list = s.gate_task.toList
  spins : ∀ t e, Frame.spin e ∈ s.stack t → Misuse e

omit [DecidableEq τ] [DecidableEq ℓ] in
/-- What agreement says of the heap and the fields of the tasks. -/
theorem Sched.Regular.task_lists {a : Sched τ ℓ} (hregular : a.Regular)
    (hcurrent : some a.current ∈ a.task_table) {node : NodeHeap (NodePtr τ ℓ)}
    (h : Represents a.tasks node a.queue) : TaskLists ⟨a.toCore, node⟩ a.queue := by
  have hfits := fun t ht => (hregular.agrees.settled t ht id).1
  refine ⟨h.deque, hcurrent, fun t ht => ⟨(hregular.agrees.settled t ht id).2, ?_⟩,
    fun t ht hstate => h.free t ht ((hfits t ht).free hstate), fun t => ⟨?_, fun hmem => ?_⟩,
    fun t => ⟨?_, fun ⟨l, hblocks, hmem⟩ => ?_⟩, h.nodup, fun t l l' => h.disjoint l l' t, hregular.gate,
    hregular.spins⟩
  · rintro rfl
    exact hregular.agrees.running hcurrent id
  · rintro ⟨ht, hstate⟩
    exact (hfits t ht).mem_sleep_list hstate
  · have ht := hregular.member _ t hmem
    rcases (hfits t ht).of_mem hmem fun l' hl' => h.disjoint _ _ t hl' hmem with hstate | hstate
    · exact ⟨ht, hstate.1⟩
    · exact hstate.2.elim
  · rintro ⟨ht, hstate⟩
    exact (hfits t ht).mem_blocks hstate
  · have ht := hregular.member _ t hmem
    rcases (hfits t ht).of_mem hmem fun l' hl' => h.disjoint _ _ t hl' hmem with hstate | hstate
    · exact (hstate.2 ▸ hblocks : ListPtr.Blocks (ℓ := ℓ) .sleep_list).elim
    · exact ⟨ht, hstate.1⟩

/-- With an idle task that only yields, task states and lists agree in every state behind the first
dispatch, and a task spins for good only when it released a lock it does not hold. -/
theorem task_lists_agree {idle : τ} {tasks : List (τ × u32)} {s : Kernel τ ℓ}
    (hreach : Reachable idle tasks Shipped s) (hdispatched : s.Dispatched) :
    ∃ queue, TaskLists s queue := by
  obtain ⟨a, href, -, hregular, hlanded⟩ := reachable_invariant
    (fun a => a.Regular ∧ (a.Dispatched → some a.current ∈ a.task_table))
    (fun _ _ _ h => h.disciplined.sound)
    (fun a _ hbooted => ⟨hbooted.regular, fun ⟨_, _, _, hmem⟩ => by simp [hbooted.log] at hmem⟩)
    (fun a b search op hwf hinv hallowed hstep =>
      ⟨hstep.regular hwf hallowed.disciplined hinv.1, hstep.landed hallowed.disciplined.sound hwf hinv.2⟩)
    hreach
  obtain ⟨c, node⟩ := s
  obtain ⟨hcore, hrep⟩ := href
  obtain rfl : c = a.toCore := hcore
  exact ⟨a.queue, hregular.task_lists (hlanded hdispatched) hrep⟩

/-- The init task sleeps, the test task blocks, and the idle task runs. -/
theorem task_lists_agree_shipped : ∃ s : Kernel Nat Nat, Reachable 1 (shipped_tasks 2 3) Shipped s ∧
    (s.task 2).state = .TASK_SLEEPING ∧ s.gate_task = some 3 ∧ s.current = 1 ∧
    ∃ queue, TaskLists s queue := by
  obtain ⟨s, hreach, hcheck⟩ := exists_reachable boots_shipped_kernel idle_yields_shipped
    [enable, .clock, .call (.sleep 50), .call .test]
    (fun s => (s.task 2).state = .TASK_SLEEPING ∧ s.gate_task = some 3 ∧ s.current = 1 ∧
      s.log.any (fun e => match e with
        | .search _ _ (some _) => true
        | _ => false) = true) (by decide +kernel)
  obtain ⟨hsleeping, hgate, hcurrent, hlog⟩ := of_decide_eq_true hcheck
  refine ⟨s, hreach, hsleeping, hgate, hcurrent, task_lists_agree hreach ?_⟩
  obtain ⟨e, he, hsearch⟩ := List.any_eq_true.mp hlog
  split at hsearch
  · exact ⟨_, _, _, he⟩
  · exact absurd hsearch (by simp)

end onix
