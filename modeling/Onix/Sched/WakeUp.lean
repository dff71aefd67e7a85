import Onix.Sched.Shipped
import Onix.Sched.Waiters

open DoublyLinked WaitQueue

namespace onix

variable {τ ℓ : Type} [DecidableEq τ] [DecidableEq ℓ]

namespace Sched

variable {a b : Sched τ ℓ} {op : Op ℓ} {calls : Bool} {m : ℓ} {t : τ}

/-- What is taken off the waiters of a mutex in an act is taken off by `mutex_unlock`. -/
theorem Act.leaves (hact : a.Act op calls b) (hmem : t ∈ a.queue (.waiters m))
    (hgone : t ∉ b.queue (.waiters m)) : taken_off m t b.log := by
  cases hact with
  | @wait _ m' _ _ _ hentry hvalue hfree =>
    by_cases hm : m = m'
    · subst hm
      simp [hmem] at hgone
    · simp [hm, hmem] at hgone
  | @handoff _ m' _ _ waiters u hentry hvalue hlast =>
    by_cases hm : m = m'
    · subst hm
      rw [hlast, List.mem_append, List.mem_singleton] at hmem
      obtain rfl := hmem.resolve_left (by simpa using hgone)
      exact .inl ⟨rfl, rfl⟩
    · simp [hm, hmem] at hgone
  | _ => simp [hmem] at hgone

/-- The other tasks keep a task taken off. -/
theorem Act.taken_off (hact : a.Act op calls b) (ht : t ≠ a.current) (h : taken_off m t a.log) :
    taken_off m t b.log := by
  rcases hact.time_cases with ⟨-, rfl⟩ | ⟨ms, -, -, -, -, rfl⟩ | ⟨⟨es, hlog, hes⟩, -, -, -⟩
  · rw [clock_log]
    exact taken_off_append (_ :: _) (by simp) h
  · exact h
  · rw [hlog]
    exact taken_off_append es (fun again hmem => ht (hes _ hmem)) h

/-- The tasks in the loop of a mutex are on its waiters, or `mutex_unlock` has taken them off, and one
of these is there if the mutex is free and others wait. -/
structure Rousing (m : ℓ) (a : Sched τ ℓ) : Prop where
  rouses : (a.at_mutex m).Rouses
  table : ∀ t, a.Looping m t → some t ∈ a.task_table
  taken_off : ∀ t, a.Looping m t → t ∈ a.queue (.waiters m) ∨ taken_off m t a.log

theorem Act.rousing (hact : a.Act op calls b) (hwf : a.WF) (hframed : a.Framed)
    (hfree : some a.current ∈ a.task_table → a.Free a.current) (h : a.Rousing m) : b.Rousing m := by
  have hloops : ∀ t, t ≠ a.current → (b.Looping m t ↔ a.Looping m t) := fun t ht => by
    rw [Core.Looping, hact.stack_of_ne ht]
    rfl
  refine ⟨?_, fun t hloop => ?_, fun t hloop => ?_⟩
  · rcases hact.at_mutex_step (m := m) hwf hframed hfree with hsame | hstep
    · rw [hsame]
      exact h.rouses
    · exact hstep.rouses
  · rw [hact.frame.1]
    by_cases ht : t = a.current
    · subst ht
      obtain ⟨intr, rest, hstack⟩ := hloop
      obtain ⟨-, -, again, c, hentry, -⟩ := hact.enters (hframed.shaped _) hstack
      exact (hentry.enabled hwf.toWF).1
    · exact h.table t ((hloops t ht).mp hloop)
  · by_cases ht : t = a.current
    · subst ht
      obtain ⟨intr, rest, hstack⟩ := hloop
      exact .inl (hact.enters (hframed.shaped _) hstack).1
    · rcases h.taken_off t ((hloops t ht).mp hloop) with hmem | hoff
      · by_cases hmem' : t ∈ b.queue (.waiters m)
        · exact .inl hmem'
        · exact .inr (hact.leaves hmem hmem')
      · exact .inr (hact.taken_off ht hoff)

theorem Step.rousing {search : Core τ ℓ → Option τ} (hstep : a.Step search op b) (hwf : a.WF)
    (hframed : a.Framed) (hfree : some a.current ∈ a.task_table → a.Free a.current) (h : a.Rousing m) :
    b.Rousing m := by
  cases hstep with
  | stay hact => exact hact.rousing hwf hframed hfree h
  | @switch b next hact hsearch =>
    have hb := hact.rousing hwf hframed hfree h
    refine ⟨?_, ?_, ?_⟩
    · simpa [at_mutex, Core.Looping, arrived] using hb.rouses
    · simpa [Core.Looping] using hb.table
    · simpa [Core.Looping, onix.taken_off] using hb.taken_off

theorem Booted.rousing {idle : τ} {tasks : List (τ × u32)} (h : a.Booted idle tasks) : a.Rousing m := by
  refine ⟨fun _ hwaits => absurd (h.queue _) hwaits, fun t => ?_, fun t => ?_⟩ <;>
    simp [Core.Looping, h.stack]

omit [DecidableEq τ] [DecidableEq ℓ] in
/-- A task in the loop of a mutex is in no list but the waiters of it. -/
theorem Framed.looping_mem (h : a.Framed) (hloop : a.Looping m t) {l : ListPtr ℓ} (ht : t ∈ a.queue l) :
    l = .waiters m := by
  obtain ⟨intr, rest, hstack⟩ := hloop
  have hlodges := h.lodges l t ht
  rw [hstack] at hlodges
  cases l with
  | waiters m' => rw [show m = m' from hlodges]
  | _ => exact hlodges.elim

end Sched

/-- The task was taken off the waiters by `mutex_unlock`, and it is ready or runs, still in the while
loop of `mutex_lock` and about to test `value` again. -/
structure Core.Retrying (c : Core τ ℓ) (m : ℓ) (t : τ) : Prop where
  table : some t ∈ c.task_table
  looping : c.Looping m t
  taken_off : taken_off m t c.log
  state : (c.task t).state = .TASK_READY ∨ (c.task t).state = .TASK_RUNNING

/-- The tasks in the loop of a mutex that are not on its waiters are about to test it again. -/
theorem Sched.Rousing.retrying {a : Sched τ ℓ} {m : ℓ} {t : τ} (h : a.Rousing m) (hregular : a.Regular)
    (hframed : a.Framed) (hout : t ∉ a.queue (.waiters m)) (hloop : a.Looping m t) : a.Retrying m t := by
  have hmem := h.table t hloop
  have hfree : a.Free t := fun l hl => by
    obtain rfl := hframed.looping_mem hloop hl
    exact hout hl
  have hschedulable := hregular.agrees.settled.schedulable hmem hfree
  exact ⟨hmem, hloop, (h.taken_off t hloop).resolve_left hout, hschedulable.2.imp_right And.right⟩

/-- No lost wake-up on a mutex, for any number of tasks and any choice of the scheduler, and whoever
calls `mutex_unlock`. -/
theorem no_lost_wakeup {idle : τ} {tasks : List (τ × u32)} {s : Kernel τ ℓ}
    (hreach : Reachable idle tasks Disciplined s) {m : ℓ} (hvalue : (s.lock m).mutex.value = false)
    (hwaits : (s.node (.head (.waiters m))).next ≠ some (.tail (.waiters m))) : ∃ t, s.Retrying m t := by
  obtain ⟨a, hholds⟩ := reachable_invariant (fun a => a.Regular ∧ a.Framed ∧ a.Rousing m)
    (fun _ _ _ h => h.sound) (fun _ _ hbooted => ⟨hbooted.regular, hbooted.framed, hbooted.rousing⟩)
    (fun a b search op hwf ⟨hregular, hframed, hrousing⟩ hallowed hstep =>
      ⟨hstep.regular hwf hallowed hregular, hstep.framed hwf hregular hframed,
        hstep.rousing hwf hframed hregular.free hrousing⟩) hreach
  obtain ⟨hregular, hframed, hrousing⟩ := hholds.inv
  have href := hholds.refines
  obtain ⟨c, node⟩ := s
  obtain rfl : c = a.toCore := href.core
  have hqueue : a.queue (.waiters m) ≠ [] := fun hnil => hwaits
    ((href.represents.deque (.waiters m)).next_eq_tail_iff.mpr (by rw [hnil]; rfl))
  obtain ⟨t, hout, hloop⟩ := hrousing.rouses hvalue hqueue
  exact ⟨t, hrousing.retrying hregular hframed hout hloop⟩

/-- The kernel with two more tasks than the shipped one. -/
def four_tasks : List (Nat × u32) := [(2, 5), (3, 5), (4, 5), (5, 5)]

theorem boots_four_tasks : boots 1 four_tasks (booted_kernel four_tasks) :=
  boots_booted_kernel (by decide) (by decide)

/-- Task 2 takes the mutex, task 3 blocks, tasks 4 and 5 wait for the mutex in this order, and task 2
makes task 3 ready and gives the mutex back, which wakes task 4 and dispatches task 3. -/
def four_on_mutex : List (Op Nat) :=
  [enable, .clock, .call (.mutex_lock 0), .call .yield, .call .test, .resume, .call .yield,
    .call (.mutex_lock 0), .resume, .call .yield, .call (.mutex_lock 0), .resume, .call .test, .resume,
    .call (.mutex_unlock 0)]

/-- The mutex is free and task 5 waits for it while task 3 runs. -/
theorem no_lost_wakeup_four : ∃ s : Kernel Nat Nat, Reachable 1 four_tasks Disciplined s ∧
    (s.lock 0).mutex.value = false ∧ s.node (.head (.waiters 0)) = ⟨none, some (.node 5)⟩ ∧
      s.current = 3 ∧ ∃ t, s.Retrying 0 t := by
  obtain ⟨s, hreach, hcheck⟩ := exists_reachable boots_four_tasks idle_yields_disciplined four_on_mutex
    (fun s => (s.lock 0).mutex.value = false ∧ s.node (.head (.waiters 0)) = ⟨none, some (.node 5)⟩ ∧
      s.current = 3) (by decide +kernel)
  obtain ⟨hvalue, hhead, hcurrent⟩ := of_decide_eq_true hcheck
  refine ⟨s, hreach, hvalue, hhead, hcurrent, no_lost_wakeup hreach hvalue ?_⟩
  rw [hhead]
  decide

end onix
