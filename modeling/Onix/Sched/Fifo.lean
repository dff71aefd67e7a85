import Onix.Sched.WakeUp

open WaitQueue

namespace onix

variable {τ ℓ : Type} [DecidableEq τ] [DecidableEq ℓ]

/-- The calls of `mutex_lock` that were put on the waiters have taken the mutex in the order in which
they were put there. -/
def Core.Fifo (m : ℓ) (c : Core τ ℓ) : Prop :=
  ∀ t older, .acquire t m :: older <:+ c.log → t ∈ arrived m older → (arrived m older).head? = some t

/-- The running task calls `mutex_lock`, in the code of its thread or in `spin_lock`. -/
def Core.CallsLock (c : Core τ ℓ) (m : ℓ) (op : Op ℓ) : Prop :=
  op = .call (.mutex_lock m) ∨
    op = .resume ∧ (c.stack c.current).head? = some (.spin_lock m .acquire)

/-- Any disciplined scheduling in which no call of `mutex_lock` takes the free mutex while a task that
`mutex_unlock` has woken has not tested it again. -/
structure Polite (m : ℓ) (c : Core τ ℓ) (search : Core τ ℓ → Option τ) (op : Op ℓ) : Prop extends
    Disciplined c search op where
  waits : c.CallsLock m op → (c.lock m).mutex.value = false → ∀ t, ¬ c.Retrying m t

namespace Core

variable {c d : Core τ ℓ} {op : Op ℓ} {m m' : ℓ} {intr again : Bool}

omit [DecidableEq ℓ] in
theorem LockEntry.calls_or_loops (hentry : c.LockEntry op m intr again d) :
    c.CallsLock m op ∨ c.Looping m c.current := by
  cases hentry with
  | call hthread => exact .inl (.inl rfl)
  | spin hstack => exact .inl (.inr ⟨rfl, by simp [hstack]⟩)
  | retry hstack => exact .inr ⟨_, _, hstack⟩

end Core

namespace Sched

variable {a b : Sched τ ℓ} {op : Op ℓ} {calls : Bool} {m : ℓ} {t : τ}

/-- What an act adds to the acquisitions of a mutex is its acquisition by the running task. -/
theorem Act.acquires (hact : a.Act op calls b) {older : List (Event τ ℓ)}
    (h : .acquire t m :: older <:+ b.log) :
    .acquire t m :: older <:+ a.log ∨
      t = a.current ∧ older = a.log ∧ ∃ intr again c, a.LockEntry op m intr again c := by
  have hunlock : ∀ {m' intr c}, a.UnlockEntry op m' intr c → .acquire t m :: older <:+ c.log →
      .acquire t m :: older <:+ a.log := by
    intro m' intr c hentry h
    rcases hentry.log with hlog | hlog <;> rw [hlog] at h
    · exact h
    · exact Runs.suffix_of_append [_] (by simp) h
  cases hact with
  | tick hIF hticks =>
    rw [clock_log] at h
    exact .inl (Runs.suffix_of_append (_ :: _) (by simp) h)
  | expire hIF hticks =>
    rw [clock_log] at h
    exact .inl (Runs.suffix_of_append (_ :: _) (by simp) h)
  | sleep hthread hfree => exact .inl (Runs.suffix_of_append [_] (by simp) h)
  | @take _ m' _ _ c hentry hvalue =>
    simp only [Core.take_mutex, Core.set_IF_frame, Core.emit_log, Core.set_lock_frame, hentry.frame] at h
    rcases List.suffix_cons_iff.mp h with heq | h
    · simp only [List.cons.injEq, Event.acquire.injEq] at heq
      obtain ⟨⟨rfl, rfl⟩, rfl⟩ := heq
      exact .inr ⟨rfl, rfl, _, _, _, hentry⟩
    · exact .inl h
  | wait hentry hvalue hfree =>
    simp only [Core.wait_mutex, Core.set_state_frame, Core.push_frame_frame, Core.emit_log, hentry.frame] at h
    exact .inl (Runs.suffix_of_append [_] (by simp) h)
  | wait_refused hentry hvalue hlinked =>
    simp only [Core.fail_frame, Core.push_frame_frame, Core.emit_log, hentry.frame] at h
    exact .inl (Runs.suffix_of_append [_] (by simp) h)
  | release_refused hentry hvalue => exact .inl (hunlock hentry h)
  | release hentry hvalue hempty =>
    exact .inl (hunlock hentry (Runs.suffix_of_append [_] (by simp) h))
  | handoff hentry hvalue hlast =>
    exact .inl (hunlock hentry (Runs.suffix_of_append [_] (by simp) h))
  | @spin_lock l point _ hstack hpoint =>
    rcases a.pop_frame.spin_lock_stmt_log l point with hlog | hlog <;> simp only [hlog] at h
    · exact .inl h
    · exact .inl (Runs.suffix_of_append [_] (by simp) h)
  | @spin_unlock l point _ hstack hpoint =>
    rcases a.pop_frame.spin_unlock_stmt_log l point with hlog | hlog <;> simp only [hlog] at h
    · exact .inl h
    · exact .inl (Runs.suffix_of_append [_] (by simp) h)
  | _ => exact .inl h

/-- A mutex is taken by a task that tests it in `mutex_lock`. -/
theorem Act.takes (hact : a.Act op calls b) (hbefore : (a.lock m).mutex.value = false)
    (hbehind : (b.lock m).mutex.value = true) : ∃ intr again c, a.LockEntry op m intr again c := by
  cases hact with
  | tick hIF hticks => simp [hbefore] at hbehind
  | expire hIF hticks => simp [hbefore] at hbehind
  | @take _ m' _ _ _ hentry hvalue =>
    by_cases hm : m = m'
    · subst hm
      exact ⟨_, _, _, hentry⟩
    · simp [Core.take_mutex, hentry.frame, hm, hbefore] at hbehind
  | wait hentry hvalue hfree => simp [Core.wait_mutex, hentry.frame, hbefore] at hbehind
  | wait_refused hentry hvalue hlinked => simp [hentry.frame, hbefore] at hbehind
  | release_refused hentry hvalue => simp [hentry.frame, hbefore] at hbehind
  | @release _ m' _ _ hentry hvalue hempty =>
    by_cases hm : m = m' <;> simp [Core.free_mutex, hentry.frame, hm, hbefore] at hbehind
  | @handoff _ m' _ _ _ _ hentry hvalue hlast =>
    by_cases hm : m = m' <;> simp [Core.free_mutex, hentry.frame, hm, hbefore] at hbehind
  | spin_lock hstack hpoint => simp [Core.spin_lock_stmt_mutex, hbefore] at hbehind
  | spin_unlock hstack hpoint => simp [Core.spin_unlock_stmt_mutex, hbefore] at hbehind
  | sleep hthread hfree => simp [Core.doze, hbefore] at hbehind
  | _ => simp [hbefore] at hbehind

/-- A polite act serves the tasks at a mutex in the order of their arrival. -/
theorem Act.ordered {search : Core τ ℓ → Option τ} (hact : a.Act op calls b) (hwf : a.WF)
    (hregular : a.Regular) (hframed : a.Framed) (hrousing : a.Rousing m)
    (hpolite : Polite m a.toCore search op) (h : (a.at_mutex m).Ordered) : (b.at_mutex m).Ordered := by
  rcases hact.at_mutex_step (m := m) hwf hframed hregular.free with hsame | hstep
  · rwa [hsame]
  · refine h.step hstep fun hbefore hbehind => ?_
    obtain ⟨intr, again, c, hentry⟩ := hact.takes hbefore hbehind
    rcases hentry.calls_or_loops with hcalls | hloops
    · refine .inr (Set.eq_empty_iff_forall_notMem.mpr fun t ⟨hout, hloop⟩ => ?_)
      exact hpolite.waits hcalls hbefore t (hrousing.retrying hregular hframed hout hloop)
    · exact .inl ⟨hregular.free (hentry.enabled hwf.toWF).1 _, hloops⟩

/-- Whoever takes a mutex that serves the tasks in order keeps to the order. -/
theorem Act.fifo (hact : a.Act op calls b) (hwf : a.WF) (hregular : a.Regular)
    (hordered : (a.at_mutex m).Ordered) (h : a.Fifo m) : b.Fifo m := by
  intro t older hsuffix harrived
  rcases hact.acquires hsuffix with hearlier | ⟨rfl, rfl, intr, again, c, hentry⟩
  · exact h t older hearlier harrived
  · exact hordered.first (hregular.free (hentry.enabled hwf.toWF).1 _) harrived

theorem Step.fifo {search : Core τ ℓ → Option τ} (hstep : a.Step search op b) (hwf : a.WF)
    (hregular : a.Regular) (hframed : a.Framed) (hrousing : a.Rousing m)
    (hpolite : Polite m a.toCore search op) (h : (a.at_mutex m).Ordered ∧ a.Fifo m) :
    (b.at_mutex m).Ordered ∧ b.Fifo m := by
  cases hstep with
  | stay hact =>
    exact ⟨hact.ordered hwf hregular hframed hrousing hpolite h.1, hact.fifo hwf hregular h.1 h.2⟩
  | @switch b next hact hsearch =>
    have hordered := hact.ordered hwf hregular hframed hrousing hpolite h.1
    refine ⟨by simpa [at_mutex, Core.Looping, arrived] using hordered, fun t older hsuffix harrived => ?_⟩
    simp only [Core.dispatch_frame] at hsuffix
    have hearlier := Runs.suffix_of_append [_] (by simp) hsuffix
    exact hact.fifo hwf hregular h.1 h.2 t older hearlier harrived

theorem Booted.fifo {idle : τ} {tasks : List (τ × u32)} (h : a.Booted idle tasks) :
    (a.at_mutex m).Ordered ∧ a.Fifo m := by
  refine ⟨⟨none, fun t => ?_, fun _ => rfl, ?_⟩, fun t older hsuffix => ?_⟩
  · simp [at_mutex, Core.Looping, h.stack]
  · simp [at_mutex, h.log, arrived, h.queue]
  · simp [h.log] at hsuffix

end Sched

/-- A mutex is granted first in first out, whatever the scheduler and the tasks do, in every run in
which no call of `mutex_lock` overtakes a task that has been woken for the mutex. -/
theorem mutex_fifo {idle : τ} {tasks : List (τ × u32)} {m : ℓ} {s : Kernel τ ℓ}
    (hreach : Reachable idle tasks (Polite m) s) : s.Fifo m := by
  obtain ⟨a, hholds⟩ := reachable_invariant
    (fun a => a.Regular ∧ a.Framed ∧ a.Rousing m ∧ (a.at_mutex m).Ordered ∧ a.Fifo m)
    (fun _ _ _ h => h.sound)
    (fun _ _ hbooted => ⟨hbooted.regular, hbooted.framed, hbooted.rousing, hbooted.fifo⟩)
    (fun a b search op hwf ⟨hregular, hframed, hrousing, hfifo⟩ hallowed hstep =>
      ⟨hstep.regular hwf hallowed.toDisciplined hregular, hstep.framed hwf hregular hframed,
        hstep.rousing hwf hframed hregular.free hrousing,
        hstep.fifo hwf hregular hframed hrousing hallowed hfifo⟩) hreach
  rw [hholds.refines.core]
  exact hholds.inv.2.2.2.2

/-- Task 3 takes the mutex in front of task 4, which has been woken for it. Task 4 is put behind task
5 on the waiters, and task 5 is woken when task 3 gives the mutex back. -/
def overtaken : List (Op Nat) :=
  four_on_mutex ++ [.resume, .call (.mutex_lock 0), .call .yield, .resume, .call .test, .resume,
    .call .yield, .resume, .resume, .call (.mutex_unlock 0), .resume]

/-- The last event is that task 5 has taken the mutex, and task 4 arrived before it. -/
def overtaken_at_head (s : Kernel Nat Nat) : Bool :=
  match s.log with
  | .acquire 5 0 :: older => arrived 0 older = [4, 5]
  | _ => false

/-- Task 5 takes the mutex before task 4, which was put on the waiters before it. -/
theorem mutex_not_fifo : ∃ s : Kernel Nat Nat, Reachable 1 four_tasks Shipped s ∧ ¬ s.Fifo 0 := by
  obtain ⟨s, hreach, hcheck⟩ := exists_reachable boots_four_tasks idle_yields_shipped overtaken
    overtaken_at_head (by decide +kernel)
  refine ⟨s, hreach, fun hfifo => ?_⟩
  unfold overtaken_at_head at hcheck
  split at hcheck
  next older hlog =>
    have horder : arrived 0 older = [4, 5] := of_decide_eq_true hcheck
    have hfirst := hfifo 5 older (hlog ▸ List.suffix_refl _) (by simp [horder])
    simp [horder] at hfirst
  next => exact absurd hcheck (by simp)

instance (c : Core τ ℓ) (m : ℓ) (t : τ) : Decidable (c.Looping m t) :=
  decidable_of_iff (∃ intr : Bool, (c.stack t).head? = some (.mutex_lock m intr)) <| by
    refine exists_congr fun intr => ?_
    rw [List.head?_eq_some_iff]

instance (c : Core τ ℓ) (m : ℓ) (op : Op ℓ) : Decidable (c.CallsLock m op) :=
  inferInstanceAs (Decidable (op = .call (.mutex_lock m) ∨
    op = .resume ∧ (c.stack c.current).head? = some (.spin_lock m .acquire)))

/-- The test of a run in which a call of `mutex_lock` finds the mutex held or nobody in its loop. -/
def polite_calls (m : ℓ) (c : Core τ ℓ) (op : Op ℓ) : Bool :=
  idle_yields c op &&
    (c.CallsLock m op → (c.lock m).mutex.value = true ∨
      c.task_table.all fun slot => slot.all fun t => ¬ c.Looping m t)

theorem polite_calls_allowed (m : ℓ) (c : Core τ ℓ) (op : Op ℓ) (hok : polite_calls m c op = true) :
    Polite m c (task_search .TASK_READY) op := by
  rw [polite_calls, Bool.and_eq_true] at hok
  refine ⟨idle_yields_disciplined c op hok.1, fun hcalls hvalue t hretrying => ?_⟩
  rcases of_decide_eq_true hok.2 hcalls with hheld | hout
  · simp [hvalue] at hheld
  · have hslot := List.all_eq_true.mp hout _ hretrying.table
    exact absurd hretrying.looping (of_decide_eq_true hslot)

/-- Task 4 takes the mutex it was woken for while task 5, put on the waiters behind it, waits. -/
theorem mutex_fifo_four : ∃ s : Kernel Nat Nat, Reachable 1 four_tasks (Polite 0) s ∧
    (s.lock 0).mutex.value = true ∧ s.current = 4 ∧ arrived 0 s.log = [5] ∧ s.Fifo 0 := by
  obtain ⟨s, hreach, hcheck⟩ := exists_reachable boots_four_tasks (polite_calls_allowed 0)
    (four_on_mutex ++ [.resume, .call .test, .resume, .call .yield, .resume])
    (fun s => (s.lock 0).mutex.value = true ∧ s.current = 4 ∧ arrived 0 s.log = [5])
    (by decide +kernel)
  obtain ⟨hvalue, hcurrent, harrived⟩ := of_decide_eq_true hcheck
  exact ⟨s, hreach, hvalue, hcurrent, harrived, mutex_fifo hreach⟩

end onix
