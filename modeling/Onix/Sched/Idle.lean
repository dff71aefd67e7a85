import Onix.Sched.Shipped

namespace onix

variable {τ ℓ : Type} [DecidableEq τ]

/-- The test by which the loop of `task_search` prefers `ptr` to the task found so far. -/
def Beats (tasks : τ → task_t) (ptr task : τ) : Prop :=
  (tasks task).ticks < (tasks ptr).ticks ∨ (tasks ptr).jiffies < (tasks task).jiffies

instance (tasks : τ → task_t) (ptr task : τ) : Decidable (Beats tasks ptr task) :=
  inferInstanceAs (Decidable (_ ∨ _))

section Search

variable {tasks : τ → task_t} {state : task_state_t} {current : τ}

/-- A task found early is the answer exactly when no later candidate beats it. -/
theorem task_search_loop_keeps_iff {slots : List (Option τ)} {task : τ} (hnot : some task ∉ slots) :
    task_search_loop tasks state current slots (some task) = some task ↔
      ∀ t, Candidate tasks state current slots t → ¬ Beats tasks t task := by
  induction slots with
  | nil => simp [task_search_loop, Candidate]
  | cons slot slots ih =>
    simp only [List.mem_cons, not_or] at hnot
    have ih := ih hnot.2
    have hcons : ∀ t, slot = some t → (tasks t).state = state → t ≠ current →
        Candidate tasks state current (slot :: slots) t :=
      fun t hslot hstate hcurrent => ⟨by simp [hslot], hstate, hcurrent⟩
    -- a slot that is skipped holds no candidate
    have hskip : (∀ t, slot = some t → (tasks t).state ≠ state ∨ t = current) →
        ((∀ t, Candidate tasks state current (slot :: slots) t → ¬ Beats tasks t task) ↔
          ∀ t, Candidate tasks state current slots t → ¬ Beats tasks t task) := by
      intro hnone
      refine ⟨fun h t ht => h t ht.tail, fun h t ht => h t ⟨?_, ht.2⟩⟩
      exact (List.mem_cons.mp ht.1).resolve_left fun heq =>
        (hnone t heq.symm).elim (fun h => h ht.2.1) ht.2.2
    cases slot with
    | none =>
      rw [hskip (by simp), ← ih]
      rfl
    | some ptr =>
      unfold task_search_loop
      dsimp only
      split_ifs with hstate hcurrent hbeats
      · rw [hskip fun t ht => .inl (Option.some.inj ht ▸ Ne.symm hstate), ← ih]
      · rw [hskip fun t ht => .inr (Option.some.inj ht ▸ hcurrent.symm), ← ih]
      · refine ⟨fun h => ?_, fun h => absurd hbeats ?_⟩
        · rcases task_search_loop_eq_some h with heq | hcandidate
          · exact absurd (Option.some.inj heq ▸ rfl) hnot.1
          · exact absurd hcandidate.1 hnot.2
        · exact h ptr (hcons ptr rfl (not_not.mp hstate).symm (Ne.symm hcurrent))
      · rw [ih]
        refine ⟨fun h t ht => ?_, fun h t ht => h t ht.tail⟩
        rcases List.mem_cons.mp ht.1 with heq | hmem
        · rw [Option.some.inj heq]
          exact hbeats
        · exact h t ⟨hmem, ht.2⟩

end Search

namespace Core

/-- Every call of `schedule` in the log answered what `task_search` finds for its arguments. -/
def Searched (c : Core τ ℓ) : Prop :=
  ∀ current task next, Event.search current task next ∈ c.log →
    next = task_search .TASK_READY { c with current, task }

/-- Another task than `idle` that `schedule` could dispatch when `current` gives up the CPU. -/
def Other (c : Core τ ℓ) (idle current : τ) (task : τ → task_t) (t : τ) : Prop :=
  t ≠ idle ∧ Candidate task .TASK_READY current c.task_table t

/-- Whenever `schedule` dispatched the idle task, no other task was ready. -/
def IdleLast (c : Core τ ℓ) (idle : τ) : Prop :=
  ∀ current task, Event.search current task (some idle) ∈ c.log →
    ∀ t, t ≠ idle → some t ∈ c.task_table → t ≠ current → (task t).state ≠ .TASK_READY

/-- Whenever `schedule` was called with the idle task and another task ready, some other ready task
had more ticks or an earlier stamp than the idle task. -/
def IdleBeaten (c : Core τ ℓ) (idle : τ) : Prop :=
  ∀ current task next, Event.search current task next ∈ c.log →
    Candidate task .TASK_READY current c.task_table idle → (∃ t, c.Other idle current task t) →
      ∃ t, c.Other idle current task t ∧ Beats task t idle

variable {c : Core τ ℓ} {idle : τ} {slots : List (Option τ)}

/-- With the idle task in the first slot, `task_search` prefers it to every task that does not
beat it. -/
theorem task_search_idle_iff (htable : c.task_table = some idle :: slots) (hnot : some idle ∉ slots)
    (hcandidate : Candidate c.task .TASK_READY c.current c.task_table idle) :
    task_search .TASK_READY c = some idle ↔
      ∀ t, c.Other idle c.current c.task t → ¬ Beats c.task t idle := by
  have hother : ∀ t, c.Other idle c.current c.task t ↔
      Candidate c.task .TASK_READY c.current slots t := by
    intro t
    rw [Other, htable]
    refine ⟨fun ⟨hne, hmem, hrest⟩ => ⟨?_, hrest⟩, fun h => ⟨?_, h.tail⟩⟩
    · exact (List.mem_cons.mp hmem).resolve_left fun heq => hne (Option.some.inj heq)
    · rintro rfl
      exact hnot h.1
  have hloop : task_search_loop c.task .TASK_READY c.current c.task_table none =
      task_search_loop c.task .TASK_READY c.current slots (some idle) := by
    rw [htable]
    simp [task_search_loop, hcandidate.2.1, Ne.symm hcandidate.2.2]
  have hsome : task_search .TASK_READY c = some idle ↔
      task_search_loop c.task .TASK_READY c.current slots (some idle) = some idle := by
    rw [task_search, hloop]
    cases hresult : task_search_loop c.task .TASK_READY c.current slots (some idle) with
    | none => exact absurd (task_search_loop_eq_none hresult).1 (by simp)
    | some task => simp
  rw [hsome, task_search_loop_keeps_iff hnot]
  exact forall_congr' fun t => by rw [hother]

theorem Searched.idle_iff (hsearched : c.Searched) (htable : c.task_table = some idle :: slots)
    (hnot : some idle ∉ slots) : c.IdleLast idle ↔ c.IdleBeaten idle := by
  constructor
  · intro hlast current task next hmem hcandidate ⟨t, ht⟩
    by_contra hbeaten
    have hkeeps := (task_search_idle_iff (c := { c with current, task }) htable hnot hcandidate).mpr
      fun u hu hbeats => hbeaten ⟨u, hu, hbeats⟩
    have hnext := hsearched current task next hmem
    rw [hkeeps] at hnext
    subst hnext
    exact hlast current task hmem t ht.1 ht.2.1 ht.2.2.2 ht.2.2.1
  · intro hbeaten current task hmem t hne ht hcurrent hready
    have hother : c.Other idle current task t := ⟨hne, ht, hready, hcurrent⟩
    have hnext := (hsearched current task (some idle) hmem).symm
    rcases task_search_cases hnext with hcandidate | ⟨-, hnone⟩
    · obtain ⟨u, hu, hbeats⟩ := hbeaten current task _ hmem hcandidate ⟨t, hother⟩
      exact (task_search_idle_iff (c := { c with current, task }) htable hnot hcandidate).mp hnext u hu
        hbeats
    · exact hnone t hother.2

end Core

namespace Sched

variable [DecidableEq ℓ] {a b : Sched τ ℓ} {op : Op ℓ}

/-- Every call of `schedule` is recorded with the state it searched. -/
theorem Step.searched (hstep : a.Step (task_search .TASK_READY) op b) (hsearched : a.Searched) :
    b.Searched := by
  have hact' : ∀ {c : Sched τ ℓ} {calls}, a.Act op calls c → c.Searched := by
    intro c calls hact current task next hmem
    rw [hsearched current task next (hact.search_mem hmem)]
    simp only [task_search, hact.frame.1, hact.frame.2.1]
  cases hstep with
  | stay hact => exact hact' hact
  | @switch b next hact hsearch =>
    intro current task next' hmem
    simp only [Core.dispatch_frame, List.mem_cons, Event.search.injEq] at hmem
    rcases hmem with ⟨rfl, rfl, rfl⟩ | hmem
    · rw [← hsearch]
      simp only [task_search, Core.dispatch_frame]
    · rw [hact' hact current task next' hmem]
      simp only [task_search, Core.dispatch_frame]

end Sched

/-- The idle task is dispatched last exactly in the runs in which some other ready task always has
more ticks or an earlier stamp than it. -/
theorem idle_last_iff [DecidableEq ℓ] {idle : τ} {tasks : List (τ × u32)} {s : Kernel τ ℓ}
    (hreach : Reachable idle tasks Unrestricted s) : s.IdleLast idle ↔ s.IdleBeaten idle := by
  obtain ⟨a, href, -, hsearched, slots, htable, hnot⟩ := reachable_invariant
    (fun a => a.Searched ∧ ∃ slots, a.task_table = some idle :: slots ∧ some idle ∉ slots)
    (fun _ _ _ h => h ▸ task_search_sound)
    (fun a _ hbooted => ⟨fun _ _ _ hmem => by simp [hbooted.log] at hmem, hbooted.table⟩)
    (fun a b search op hwf hinv hallowed hstep => by
      obtain rfl : search = task_search .TASK_READY := hallowed
      exact ⟨hstep.searched hinv.1, by rw [hstep.frame.1]; exact hinv.2⟩)
    hreach
  obtain ⟨c, node⟩ := s
  obtain rfl : c = a.toCore := href.core
  exact hsearched.idle_iff htable hnot

/-- The init task yields with one tick left, and then the test task blocks: the idle task is
dispatched although the init task is ready. -/
theorem idle_not_last : ∃ s : Kernel Nat Nat, Reachable 1 (shipped_tasks 2 3) Unrestricted s ∧
    ¬ s.IdleLast 1 := by
  have hrun : (run idle_yields
      [enable, .clock, enable, .clock, .resume, .clock, .resume, .clock, .resume, .clock, .resume,
        .call .yield, .call .test]
      shipped_kernel).any (fun s => s.task_table.contains (some 2) && s.log.any (fun e => match e with
        | .search 3 task (some 1) => (task 2).state = .TASK_READY
        | _ => false)) = true := by
    decide +kernel
  obtain ⟨s, hreach, hcheck⟩ := exists_reachable boots_shipped_kernel idle_yields_unrestricted _ _ hrun
  rw [Bool.and_eq_true, List.contains_iff_mem, List.any_eq_true] at hcheck
  obtain ⟨hmem, e, he, hsearch⟩ := hcheck
  refine ⟨s, hreach, fun hlast => ?_⟩
  split at hsearch
  · exact hlast _ _ he 2 (by decide) hmem (by decide) (of_decide_eq_true hsearch)
  · exact absurd hsearch (by simp)

/-- Both directions at a run in which the init task and the test task yield. -/
theorem idle_last_iff_shipped : ∃ s : Kernel Nat Nat, Reachable 1 (shipped_tasks 2 3) Unrestricted s ∧
    s.current = 2 ∧ (s.IdleLast 1 ↔ s.IdleBeaten 1) := by
  obtain ⟨s, hreach, hcurrent⟩ := exists_reachable boots_shipped_kernel idle_yields_unrestricted
    [enable, .clock, .call .yield, .call .yield] (fun s => s.current = 2) (by decide +kernel)
  exact ⟨s, hreach, of_decide_eq_true hcurrent, idle_last_iff hreach⟩

end onix
