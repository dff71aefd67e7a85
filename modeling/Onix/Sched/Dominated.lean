import Mathlib.Data.List.ReduceOption
import Onix.Library.Champion
import Onix.Sched.Idle

namespace onix

open Champion

variable {τ ℓ : Type} [DecidableEq τ]

/-- The candidates of `task_search`, in slot order. -/
def candidates (tasks : τ → task_t) (state : task_state_t) (current : τ) (slots : List (Option τ)) : List τ :=
  slots.reduceOption.filter fun t => (tasks t).state = state ∧ t ≠ current

/-- `u` has more remaining ticks than `t` and ran longer ago. -/
def Dominates (tasks : τ → task_t) (u t : τ) : Prop :=
  (tasks t).ticks < (tasks u).ticks ∧ (tasks u).jiffies < (tasks t).jiffies

/-- No candidate dominates a later one that the pass settles on: one that no candidate behind it
beats, while each candidate before it is beaten by some candidate behind that. -/
def DominatedLoses (tasks : τ → task_t) (l : List τ) : Prop :=
  ∀ before t behind, l = before ++ t :: behind → FirstUnbeaten (Beats tasks) before t behind →
    ∀ u ∈ before, ¬ Dominates tasks u t

section Loop

variable {tasks : τ → task_t} {state : task_state_t} {current : τ} {slots : List (Option τ)}

theorem mem_candidates {t : τ} :
    t ∈ candidates tasks state current slots ↔ Candidate tasks state current slots t := by
  rw [candidates, List.mem_filter, List.reduceOption_mem_iff, decide_eq_true_eq, Candidate]

omit [DecidableEq τ] in
/-- What beats a task that is not beaten by another beats that other too. -/
theorem Beats.of_not {r s c : τ} (hrs : ¬ Beats tasks r s) (hcs : Beats tasks c s) : Beats tasks c r := by
  unfold Beats at hrs hcs ⊢
  simp only [UInt32.lt_iff_toNat_lt] at hrs hcs ⊢
  omega

theorem candidates_skip {ptr : τ} (hskip : ¬ ((tasks ptr).state = state ∧ ptr ≠ current)) :
    candidates tasks state current (some ptr :: slots) = candidates tasks state current slots := by
  unfold candidates
  rw [List.reduceOption_cons_of_some, List.filter_cons_of_neg (by simpa using hskip)]

theorem candidates_take {ptr : τ} (htake : (tasks ptr).state = state ∧ ptr ≠ current) :
    candidates tasks state current (some ptr :: slots) =
      ptr :: candidates tasks state current slots := by
  unfold candidates
  rw [List.reduceOption_cons_of_some, List.filter_cons_of_pos (by simpa using htake)]

/-- Once the loop has a task it is a pass through the later candidates. -/
theorem task_search_loop_some (slots : List (Option τ)) (t : τ) :
    task_search_loop tasks state current slots (some t) =
      some (pass (Beats tasks) t (candidates tasks state current slots)) := by
  induction slots generalizing t with
  | nil => rfl
  | cons slot slots ih =>
    cases slot with
    | none =>
      unfold task_search_loop
      rw [ih]
      rfl
    | some ptr =>
      unfold task_search_loop
      split_ifs with hstate hcurrent
      · rw [ih, candidates_skip fun h => hstate h.1.symm]
      · rw [ih, candidates_skip fun h => h.2 hcurrent.symm]
      · rw [candidates_take ⟨(not_not.mp hstate).symm, Ne.symm hcurrent⟩, pass_cons]
        by_cases hbeats : Beats tasks ptr t
        · rw [if_pos hbeats, ← ih ptr]
          exact if_pos hbeats
        · rw [if_neg hbeats, ← ih t]
          exact if_neg hbeats

/-- The loop starts with the first candidate. -/
theorem task_search_loop_none (slots : List (Option τ)) :
    task_search_loop tasks state current slots none =
      match candidates tasks state current slots with
      | [] => none
      | s :: l => some (pass (Beats tasks) s l) := by
  induction slots with
  | nil => rfl
  | cons slot slots ih =>
    cases slot with
    | none =>
      unfold task_search_loop
      rw [ih]
      rfl
    | some ptr =>
      unfold task_search_loop
      split_ifs with hstate hcurrent
      · rw [ih, candidates_skip fun h => hstate h.1.symm]
      · rw [ih, candidates_skip fun h => h.2 hcurrent.symm]
      · rw [candidates_take ⟨(not_not.mp hstate).symm, Ne.symm hcurrent⟩]
        exact task_search_loop_some slots ptr

end Loop

variable {c : Core τ ℓ}

/-- `task_search` answers the first candidate that no later candidate beats. -/
theorem task_search_first_unbeaten (h : ∃ t, Candidate c.task .TASK_READY c.current c.task_table t) :
    ∃ before t behind, task_search .TASK_READY c = some t ∧
      candidates c.task .TASK_READY c.current c.task_table = before ++ t :: behind ∧
      FirstUnbeaten (Beats c.task) before t behind := by
  obtain ⟨t, ht⟩ := h
  rw [← mem_candidates] at ht
  unfold task_search
  rw [task_search_loop_none]
  cases hlist : candidates c.task .TASK_READY c.current c.task_table with
  | nil => simp [hlist] at ht
  | cons s l =>
    have hbeats : ∀ r s t, ¬ Beats c.task r s → Beats c.task t s → Beats c.task t r :=
      fun _ _ _ => Beats.of_not
    obtain ⟨before, behind, heq, hfirst⟩ := pass_first_unbeaten hbeats s l
    exact ⟨before, _, behind, rfl, heq, hfirst⟩

/-- The scheduler avoids the dominated candidates exactly when none of them is the first that no
later candidate beats. -/
theorem search_undominated_iff (h : ∃ t, Candidate c.task .TASK_READY c.current c.task_table t) :
    (∃ t, task_search .TASK_READY c = some t ∧ Candidate c.task .TASK_READY c.current c.task_table t ∧
        ∀ u, Candidate c.task .TASK_READY c.current c.task_table u → ¬ Dominates c.task u t) ↔
      DominatedLoses c.task (candidates c.task .TASK_READY c.current c.task_table) := by
  obtain ⟨before, t, behind, hsearch, hlist, hfirst⟩ := task_search_first_unbeaten h
  have ht : Candidate c.task .TASK_READY c.current c.task_table t := by
    rw [← mem_candidates, hlist]
    simp
  constructor
  · rintro ⟨t', hsearch', -, hbest⟩ before' t'' behind' hlist' hfirst' u hu
    obtain rfl : t = t' := Option.some.inj (hsearch.symm.trans hsearch')
    obtain ⟨-, rfl, -⟩ := hfirst.unique hfirst' (hlist.symm.trans hlist')
    refine hbest u ?_
    rw [← mem_candidates, hlist', List.mem_append]
    exact Or.inl hu
  · intro hloses
    refine ⟨t, hsearch, ht, fun u hu hdominates => ?_⟩
    rw [← mem_candidates, hlist, List.mem_append, List.mem_cons] at hu
    obtain hbefore | rfl | hbehind := hu
    · exact hloses before t behind hlist hfirst u hbefore hdominates
    · exact UInt32.lt_irrefl _ hdominates.1
    · -- a later candidate that dominates would have taken its place
      exact hfirst.unbeaten u hbehind (Or.inl hdominates.1)

/-- The running idle task 0 and three ready tasks, of which 2 ran before 1 and 3 after it. -/
def three_ready (slots : List (Option Nat)) : Core Nat Nat where
  task_table := slots ++ List.replicate 60 none
  idel_task := some 0
  task := fun t =>
    match t with
    | 0 => { state := .TASK_RUNNING, priority := 1, ticks := 1, jiffies := 6, magic := ONIX_MAGIC }
    | 1 => { state := .TASK_READY, priority := 5, ticks := 5, jiffies := 1, magic := ONIX_MAGIC }
    | 2 => { state := .TASK_READY, priority := 5, ticks := 3, jiffies := 0, magic := ONIX_MAGIC }
    | _ => { state := .TASK_READY, priority := 5, ticks := 4, jiffies := 5, magic := ONIX_MAGIC }
  lock := fun _ => { holder := none, mutex := { value := false }, «repeat» := 0 }
  gate_task := none
  jiffies := 6
  current := 0
  IF := false
  stack := fun _ => []
  log := []

/-- Task 2 takes the place of task 1, and task 3 that of task 2, although task 1 dominates it. -/
theorem search_picks_dominated :
    let c := three_ready [some 0, some 1, some 2, some 3]
    (∃ t, Candidate c.task .TASK_READY c.current c.task_table t) ∧
      ¬ ∃ t, task_search .TASK_READY c = some t ∧ Candidate c.task .TASK_READY c.current c.task_table t ∧
        ∀ u, Candidate c.task .TASK_READY c.current c.task_table u → ¬ Dominates c.task u t := by
  intro c
  have hone : Candidate c.task .TASK_READY c.current c.task_table 1 := by
    unfold Candidate
    decide
  have hsearch : task_search .TASK_READY c = some 3 := by decide
  refine ⟨⟨1, hone⟩, ?_⟩
  rintro ⟨t, ht, -, hbest⟩
  obtain rfl : 3 = t :=  Option.some.inj (hsearch.symm.trans ht)
  apply hbest 1 hone
  unfold Dominates
  decide

/-- Both directions with the slots the other way round. -/
theorem search_undominated_iff_reversed :
    let c := three_ready [some 3, some 2, some 1, some 0]
    task_search .TASK_READY c = some 1 ∧
      ((∃ t, task_search .TASK_READY c = some t ∧
          Candidate c.task .TASK_READY c.current c.task_table t ∧
          ∀ u, Candidate c.task .TASK_READY c.current c.task_table u → ¬ Dominates c.task u t) ↔
        DominatedLoses c.task (candidates c.task .TASK_READY c.current c.task_table)) := by
  intro c
  have hone : Candidate c.task .TASK_READY c.current c.task_table 1 := by
    unfold Candidate
    decide
  exact ⟨by decide, search_undominated_iff ⟨1, hone⟩⟩

end onix
