import Onix.Sched.Agreement

namespace onix

variable {τ ℓ : Type} [DecidableEq τ]

/-- The tasks the loop of `task_search` considers. -/
def Candidate (tasks : τ → task_t) (state : task_state_t) (current : τ) (slots : List (Option τ))
    (t : τ) : Prop :=
  some t ∈ slots ∧ (tasks t).state = state ∧ t ≠ current

variable {tasks : τ → task_t} {state : task_state_t} {current : τ}

omit [DecidableEq τ] in
theorem Candidate.tail {slot : Option τ} {slots : List (Option τ)} {t : τ}
    (h : Candidate tasks state current slots t) : Candidate tasks state current (slot :: slots) t :=
  ⟨List.mem_cons_of_mem _ h.1, h.2⟩

/-- The loop answers the task it started with or a candidate. -/
theorem task_search_loop_eq_some {slots : List (Option τ)} {task : Option τ} {t : τ}
    (h : task_search_loop tasks state current slots task = some t) :
    task = some t ∨ Candidate tasks state current slots t := by
  induction slots generalizing task with
  | nil => exact .inl h
  | cons slot slots ih =>
    have hskip : task_search_loop tasks state current slots task = some t →
        task = some t ∨ Candidate tasks state current (slot :: slots) t :=
      fun h => (ih h).imp_right Candidate.tail
    cases slot with
    | none => exact hskip h
    | some ptr =>
      unfold task_search_loop at h
      split_ifs at h with hstate hcurrent
      · exact hskip h
      · exact hskip h
      · have hptr : Candidate tasks state current (some ptr :: slots) ptr :=
          ⟨by simp, (not_not.mp hstate).symm, Ne.symm hcurrent⟩
        have htake : task_search_loop tasks state current slots (some ptr) = some t →
            task = some t ∨ Candidate tasks state current (some ptr :: slots) t := by
          intro h
          rcases ih h with heq | hmem
          · rw [Option.some.injEq] at heq
            exact .inr (heq ▸ hptr)
          · exact .inr hmem.tail
        cases task with
        | none => exact htake h
        | some best =>
          simp only at h
          split_ifs at h
          · exact htake h
          · exact hskip h

/-- The loop answers nothing only when it has no candidate. -/
theorem task_search_loop_eq_none {slots : List (Option τ)} {task : Option τ}
    (h : task_search_loop tasks state current slots task = none) :
    task = none ∧ ∀ t, ¬ Candidate tasks state current slots t := by
  induction slots generalizing task with
  | nil => exact ⟨h, fun t ht => by simp [Candidate] at ht⟩
  | cons slot slots ih =>
    cases slot with
    | none =>
      obtain ⟨htask, hnone⟩ := ih h
      refine ⟨htask, fun t ht => hnone t ⟨by simpa using ht.1, ht.2⟩⟩
    | some ptr =>
      unfold task_search_loop at h
      split_ifs at h with hstate hcurrent
      · obtain ⟨htask, hnone⟩ := ih h
        refine ⟨htask, fun t ht => hnone t ⟨?_, ht.2⟩⟩
        exact (List.mem_cons.mp ht.1).resolve_left fun heq => hstate (by
          rw [← Option.some.inj heq, ht.2.1])
      · obtain ⟨htask, hnone⟩ := ih h
        refine ⟨htask, fun t ht => hnone t ⟨?_, ht.2⟩⟩
        exact (List.mem_cons.mp ht.1).resolve_left fun heq => ht.2.2 (by
          rw [Option.some.inj heq, hcurrent])
      · cases task with
        | none => exact absurd (ih h).1 (by simp)
        | some best =>
          simp only at h
          split_ifs at h <;> exact absurd (ih h).1 (by simp)

variable {c : Core τ ℓ}

/-- `task_search` answers a ready task other than the running one, or falls back to the idle
task when there is none. -/
theorem task_search_cases {next : τ} (h : task_search .TASK_READY c = some next) :
    Candidate c.task .TASK_READY c.current c.task_table next ∨
      c.idel_task = some next ∧ ∀ t, ¬ Candidate c.task .TASK_READY c.current c.task_table t := by
  rw [task_search] at h
  split at h
  · rename_i task hloop
    rw [Option.some.injEq] at h
    subst h
    exact .inl ((task_search_loop_eq_some hloop).resolve_left (by simp))
  · rename_i hloop
    rw [if_pos rfl] at h
    exact .inr ⟨h, (task_search_loop_eq_none hloop).2⟩

theorem task_search_isSome (hidle : c.idel_task.isSome) :
    ∃ next, task_search .TASK_READY c = some next := by
  rw [task_search]
  split
  · exact ⟨_, rfl⟩
  · rw [if_pos rfl]
    exact Option.isSome_iff_exists.mp hidle

/-- `task_search` always finds a task of the table. -/
theorem task_search_sound : Sound (task_search (τ := τ) (ℓ := ℓ) .TASK_READY) := by
  rintro c ⟨idle, hidle, hmem⟩
  obtain ⟨next, hsearch⟩ := task_search_isSome (c := c) (by simp [hidle])
  refine ⟨next, hsearch, ?_⟩
  rcases task_search_cases hsearch with hcandidate | ⟨hfallback, -⟩
  · exact hcandidate.1
  · rw [hidle, Option.some.injEq] at hfallback
    exact hfallback ▸ hmem

/-- A scheduler that dispatches schedulable tasks, as long as the idle task is one. -/
def Picks (search : Core τ ℓ → Option τ) : Prop :=
  ∀ c : Core τ ℓ, (∃ idle, c.idel_task = some idle ∧ c.Schedulable idle) →
    ∀ next, search c = some next → c.Schedulable next

theorem task_search_picks : Picks (task_search (τ := τ) (ℓ := ℓ) .TASK_READY) := by
  rintro c ⟨idle, hidle, hschedulable⟩ next hsearch
  rcases task_search_cases hsearch with hcandidate | ⟨hfallback, -⟩
  · exact ⟨hcandidate.1, .inl hcandidate.2.1⟩
  · rw [hidle, Option.some.injEq] at hfallback
    exact hfallback ▸ hschedulable

namespace Sched

variable [DecidableEq ℓ] {a b : Sched τ ℓ} {op : Op ℓ}

/-- Whatever the idle task does, the states and lists of the other tasks agree. -/
theorem Step.agrees_but_idle {idle : τ} (hstep : a.Step (task_search .TASK_READY) op b) (hwf : a.WF)
    (hidle : a.idel_task = some idle) (hagrees : a.Agrees (· = idle)) : b.Agrees (· = idle) := by
  cases hstep with
  | stay hact => exact hact.agrees hwf hagrees
  | @switch b next hact hsearch =>
    refine (hact.settled hwf hagrees).dispatch fun hnext => ?_
    rcases task_search_cases hsearch with hcandidate | ⟨hfallback, -⟩
    · exact ⟨hcandidate.1, .inl hcandidate.2.1⟩
    · rw [hact.frame.2.1, hidle] at hfallback
      exact absurd (Option.some.inj hfallback).symm hnext

end Sched

end onix
