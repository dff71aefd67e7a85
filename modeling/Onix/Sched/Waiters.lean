import Onix.Library.WaitQueue
import Onix.Sched.Frames

open WaitQueue

namespace onix

variable {τ ℓ : Type}

/-- The task is in the while loop of `mutex_lock`, behind the call of `task_block`. -/
def Core.Looping (c : Core τ ℓ) (m : ℓ) (t : τ) : Prop :=
  ∃ intr rest, c.stack t = .mutex_lock m intr :: rest

/-- The last time the task was put on the waiters of the mutex or taken off them, `mutex_unlock` took
it off. -/
def taken_off (m : ℓ) (t : τ) : List (Event τ ℓ) → Prop
  | [] => False
  | .enqueue u m' _ :: log => ¬ (u = t ∧ m' = m) ∧ taken_off m t log
  | .release _ m' woken :: log => (woken = some t ∧ m' = m) ∨ taken_off m t log
  | _ :: log => taken_off m t log

/-- The tasks that their call of `mutex_lock` has put on the waiters of the mutex and that have not
taken the mutex since, the first to be put there first. -/
def arrived [DecidableEq τ] [DecidableEq ℓ] (m : ℓ) : List (Event τ ℓ) → List τ
  | [] => []
  | .enqueue t m' again :: log =>
    if m' = m ∧ again = false then arrived m log ++ [t] else arrived m log
  | .acquire t m' :: log => if m' = m then (arrived m log).erase t else arrived m log
  | _ :: log => arrived m log

/-- Events that are neither an arrival at a mutex nor its acquisition. -/
def Event.Aside (m : ℓ) : Event τ ℓ → Prop
  | .enqueue _ m' _ => m' ≠ m
  | .acquire _ m' => m' ≠ m
  | _ => True

theorem taken_off_append {m : ℓ} {t : τ} (es : List (Event τ ℓ)) {log : List (Event τ ℓ)}
    (hes : ∀ again, .enqueue t m again ∉ es) (h : taken_off m t log) : taken_off m t (es ++ log) := by
  induction es with
  | nil => exact h
  | cons e es ih =>
    have ih := ih fun again hmem => hes again (List.mem_cons_of_mem _ hmem)
    cases e with
    | enqueue u m' again =>
      refine ⟨?_, ih⟩
      rintro ⟨rfl, rfl⟩
      exact hes again (by simp)
    | release u m' woken => exact .inr ih
    | _ => exact ih

theorem arrived_append [DecidableEq τ] [DecidableEq ℓ] {m : ℓ} (es : List (Event τ ℓ)) {log : List (Event τ ℓ)}
    (hes : ∀ e ∈ es, e.Aside m) : arrived m (es ++ log) = arrived m log := by
  induction es with
  | nil => rfl
  | cons e es ih =>
    have he := hes e (by simp)
    have ih := ih fun f hf => hes f (by simp [hf])
    cases e with
    | enqueue t m' again =>
      have hm : m' ≠ m := he
      simpa [arrived, hm] using ih
    | acquire t m' =>
      have hm : m' ≠ m := he
      simpa [arrived, hm] using ih
    | _ => exact ih

/-- The tasks on the waiters of a mutex are in its loop. -/
theorem lodges_looping {c : Core τ ℓ} {m : ℓ} {t : τ} (h : Lodges (.waiters m) (c.stack t)) :
    c.Looping m t := by
  cases hstack : c.stack t with
  | nil => simp [hstack, Lodges] at h
  | cons f rest =>
    cases f with
    | mutex_lock m' intr =>
      obtain rfl : m' = m := by simpa [hstack, Lodges] using h
      exact ⟨intr, rest, hstack⟩
    | _ => simp [hstack, Lodges] at h

variable [DecidableEq τ]

namespace Core

variable {c d : Core τ ℓ} {op : Op ℓ} {m m' : ℓ} {intr again : Bool}

/-- A task comes into the loop of a mutex again only from the loop of this mutex. -/
theorem LockEntry.looping (hentry : c.LockEntry op m' intr again d) :
    c.Looping m c.current ↔ m' = m ∧ again = true := by
  cases hentry with
  | call hthread => simp [Looping, hthread.1]
  | spin hstack => simp [Looping, hstack]
  | retry hstack => simp [Looping, hstack]

theorem UnlockEntry.not_looping (hentry : c.UnlockEntry op m' intr d) : ¬ c.Looping m c.current := by
  cases hentry with
  | call hthread => simp [Looping, hthread.1]
  | spin hstack => simp [Looping, hstack]

variable [DecidableEq ℓ]

theorem UnlockEntry.arrived (hentry : c.UnlockEntry op m' intr d) (m : ℓ) :
    arrived m d.log = arrived m c.log := by
  rcases hentry.log with hlog | hlog <;> simp [hlog, onix.arrived]

theorem spin_lock_stmt_arrived (c : Core τ ℓ) (l m : ℓ) (point : SpinLockPoint) :
    arrived m (c.spin_lock_stmt l point).log = arrived m c.log := by
  rcases c.spin_lock_stmt_log l point with hlog | hlog <;> simp [hlog, arrived]

theorem spin_unlock_stmt_arrived (c : Core τ ℓ) (l m : ℓ) (point : SpinUnlockPoint) :
    arrived m (c.spin_unlock_stmt l point).log = arrived m c.log := by
  rcases c.spin_unlock_stmt_log l point with hlog | hlog <;> simp [hlog, arrived]

end Core

namespace Sched

variable [DecidableEq ℓ]

/-- The kernel as the tasks at one mutex see it. -/
def at_mutex (m : ℓ) (a : Sched τ ℓ) : State τ where
  held := (a.lock m).mutex.value
  waiting := a.queue (.waiters m)
  woken := {t | t ∉ a.queue (.waiters m) ∧ a.Looping m t}
  arrived := arrived m a.log

variable {a b : Sched τ ℓ} {op : Op ℓ} {calls : Bool} {m : ℓ}

/-- A task that keeps the CPU is not in the loop of a mutex. -/
theorem Act.not_looping (hact : a.Act op false b) (hshaped : Shaped (a.stack a.current)) :
    ¬ b.Looping m a.current := by
  rintro ⟨intr, rest, hstack⟩
  exact absurd (hact.enters hshaped hstack).2.1 (by simp)

/-- An act outside of the loop of a mutex that leaves the mutex alone. -/
theorem at_mutex_eq (hstack : ∀ t, t ≠ a.current → b.stack t = a.stack t)
    (hbefore : ¬ a.Looping m a.current) (hbehind : ¬ b.Looping m a.current)
    (hvalue : (b.lock m).mutex.value = (a.lock m).mutex.value)
    (hqueue : b.queue (.waiters m) = a.queue (.waiters m)) (hlog : arrived m b.log = arrived m a.log) :
    b.at_mutex m = a.at_mutex m := by
  have hlooping : ∀ t, b.Looping m t ↔ a.Looping m t := fun t => by
    by_cases ht : t = a.current
    · rw [ht]
      exact iff_of_false hbehind hbefore
    · rw [Core.Looping, hstack t ht]
      rfl
  simp only [at_mutex, hvalue, hqueue, hlog, hlooping]

/-- A step on a mutex, given what it does to the flag, the waiters, the loop and the arrivals. -/
theorem at_mutex_step {held : Bool} {waiting : List τ} {woken : Set τ} {order : List τ}
    (hstep : WaitQueue.Step a.current (a.at_mutex m) ⟨held, waiting, woken, order⟩)
    (hvalue : (b.lock m).mutex.value = held) (hqueue : b.queue (.waiters m) = waiting)
    (hwoken : ∀ t, t ∉ waiting ∧ b.Looping m t ↔ t ∈ woken) (hlog : arrived m b.log = order) :
    WaitQueue.Step a.current (a.at_mutex m) (b.at_mutex m) := by
  have hset : {t | t ∉ b.queue (.waiters m) ∧ b.Looping m t} = woken := by
    rw [hqueue]
    exact Set.ext hwoken
  have hb : b.at_mutex m = ⟨held, waiting, woken, order⟩ := by
    rw [at_mutex, hvalue, hset, hlog, hqueue]
  exact hb ▸ hstep

/-- An act does nothing to a mutex, or what a lock with a queue does. -/
def Follows (m : ℓ) (a b : Sched τ ℓ) : Prop :=
  b.at_mutex m = a.at_mutex m ∨ WaitQueue.Step a.current (a.at_mutex m) (b.at_mutex m)

theorem Act.looping_of_ne (hact : a.Act op calls b) (m : ℓ) {t : τ} (ht : t ≠ a.current) :
    b.Looping m t ↔ a.Looping m t := by
  rw [Core.Looping, hact.stack_of_ne ht]
  rfl

variable {m' : ℓ} {intr again : Bool} {c : Core τ ℓ}

theorem take_follows (hentry : a.LockEntry op m' intr again c) (hvalue : (a.lock m').mutex.value = false) (hwf : a.WF)
    (h : a.Framed) (hfree : some a.current ∈ a.task_table → a.Free a.current) :
    Follows m a ⟨c.take_mutex m' intr, a.queue⟩ := by
  have hact := Act.take hentry hvalue
  have hother := fun t (ht : t ≠ a.current) => hact.stack_of_ne ht
  have hloops := fun t (ht : t ≠ a.current) => hact.looping_of_ne m ht
  have hbehind := hact.not_looping (m := m) (h.shaped a.current)
  by_cases hm : m' = m
  · subst hm
    have hout : a.current ∉ a.queue (.waiters m') := hfree (hentry.enabled hwf.toWF).1 _
    refine .inr (Sched.at_mutex_step (.take hvalue hout) ?_ rfl (fun t => ?_) ?_)
    · simp [Core.take_mutex]
    · by_cases ht : t = a.current
      · subst ht
        exact iff_of_false (fun h => hbehind h.2) fun h => h.2 rfl
      · simp [hloops t ht, at_mutex, ht]
    · simp [Core.take_mutex, arrived, hentry.frame, at_mutex]
  · refine .inl (at_mutex_eq hother (fun h => hm (hentry.looping.mp h).1) hbehind ?_ rfl ?_)
    · simp [Core.take_mutex, hentry.frame, Ne.symm hm]
    · simp [Core.take_mutex, arrived, hentry.frame, hm]

theorem wait_follows (hentry : a.LockEntry op m' intr again c) (hvalue : (a.lock m').mutex.value = true)
    (hfree' : a.Free a.current) :
    Follows m a ⟨c.wait_mutex m' intr again,
      Function.update a.queue (.waiters m') (a.current :: a.queue (.waiters m'))⟩ := by
  have hact := Act.wait hentry hvalue hfree'
  have hother := fun t (ht : t ≠ a.current) => hact.stack_of_ne ht
  have hloops := fun t (ht : t ≠ a.current) => hact.looping_of_ne m ht
  by_cases hm : m' = m
  · subst hm
    have hlooping := hentry.looping (m := m')
    have hrest : ∀ t, t ≠ a.current →
        (t ∉ a.current :: a.queue (.waiters m') ∧ Core.Looping (c.wait_mutex m' _ again) m' t ↔
          t ∉ a.queue (.waiters m') ∧ a.Looping m' t) := fun t ht => by
      rw [hloops t ht, List.mem_cons, or_iff_right ht]
    cases again with
    | false =>
      have hnew : a.current ∉ (a.at_mutex m').woken := fun h => by simpa using hlooping.mp h.2
      refine .inr (Sched.at_mutex_step (.wait hvalue (hfree' _) hnew) ?_ (by simp [at_mutex])
        (fun t => ?_) ?_)
      · simp [Core.wait_mutex, hentry.frame, at_mutex]
      · by_cases ht : t = a.current
        · subst ht
          exact iff_of_false (fun h => h.1 (by simp)) hnew
        · exact hrest t ht
      · simp [Core.wait_mutex, arrived, hentry.frame, at_mutex]
    | true =>
      have hwoken : a.current ∈ (a.at_mutex m').woken := ⟨hfree' _, hlooping.mpr ⟨rfl, rfl⟩⟩
      refine .inr (Sched.at_mutex_step (.wait_again hvalue (hfree' _) hwoken) ?_ (by simp [at_mutex])
        (fun t => ?_) ?_)
      · simp [Core.wait_mutex, hentry.frame, at_mutex]
      · by_cases ht : t = a.current
        · subst ht
          exact iff_of_false (fun h => h.1 (by simp [at_mutex])) fun h => h.2 rfl
        · exact (hrest t ht).trans (by simp [at_mutex, ht])
      · simp [Core.wait_mutex, arrived, hentry.frame, at_mutex]
  · refine .inl (at_mutex_eq hother (fun h => hm (hentry.looping.mp h).1) ?_ ?_ ?_ ?_)
    · simp [Core.Looping, Core.wait_mutex, hentry.frame, hm]
    · simp [Core.wait_mutex, hentry.frame]
    · simp [Ne.symm hm]
    · simp [Core.wait_mutex, arrived, hentry.frame, hm]

theorem release_follows (hentry : a.UnlockEntry op m' intr c) (hvalue : (a.lock m').mutex.value = true)
    (hempty : a.queue (.waiters m') = []) (h : a.Framed) :
    Follows m a ⟨(c.free_mutex m' none).set_IF intr, a.queue⟩ := by
  have hact := Act.release hentry hvalue hempty
  have hother := fun t (ht : t ≠ a.current) => hact.stack_of_ne ht
  have hloops := fun t (ht : t ≠ a.current) => hact.looping_of_ne m ht
  have hbehind := hact.not_looping (m := m) (h.shaped a.current)
  have hlog : arrived m ((c.free_mutex m' none).set_IF intr).log = arrived m a.log := hentry.arrived m
  by_cases hm : m' = m
  · subst hm
    refine .inr (Sched.at_mutex_step (.release hvalue hempty) ?_ rfl (fun t => ?_) hlog)
    · simp [Core.free_mutex]
    · by_cases ht : t = a.current
      · subst ht
        exact iff_of_false (fun h => hbehind h.2) fun h => hentry.not_looping h.2
      · rw [hloops t ht]
        rfl
  · refine .inl (at_mutex_eq hother hentry.not_looping hbehind ?_ rfl hlog)
    simp [Core.free_mutex, hentry.frame, Ne.symm hm]

theorem handoff_follows {waiters : List τ} {u : τ} (hentry : a.UnlockEntry op m' intr c)
    (hvalue : (a.lock m').mutex.value = true) (hlast : a.queue (.waiters m') = waiters ++ [u]) (hwf : a.WF)
    (h : a.Framed) (hfree : some a.current ∈ a.task_table → a.Free a.current) :
    Follows m a ⟨((c.free_mutex m' (some u)).set_state u .TASK_READY).push_frame (.mutex_unlock intr),
      Function.update a.queue (.waiters m') waiters⟩ := by
  have hact := Act.handoff hentry hvalue hlast
  have hother := fun t (ht : t ≠ a.current) => hact.stack_of_ne ht
  have hloops := fun t (ht : t ≠ a.current) => hact.looping_of_ne m ht
  have hbehind : ¬ Core.Looping (((c.free_mutex m' (some u)).set_state u .TASK_READY).push_frame
      (.mutex_unlock intr)) m a.current := by
    simp [Core.Looping, Core.free_mutex, hentry.frame]
  have hlog : arrived m (((c.free_mutex m' (some u)).set_state u .TASK_READY).push_frame
      (.mutex_unlock intr)).log = arrived m a.log := hentry.arrived m
  by_cases hm : m' = m
  · subst hm
    have hmem : u ∈ a.queue (.waiters m') := by simp [hlast]
    have hu : u ≠ a.current := by
      rintro rfl
      exact hfree (hentry.mem hwf.toWF) _ hmem
    have hloop : a.Looping m' u := lodges_looping (h.lodges _ u hmem)
    have hgone : u ∉ waiters := by
      have hnodup := hwf.nodup (.waiters m')
      rw [hlast, List.nodup_append] at hnodup
      exact fun hmem => hnodup.2.2 u hmem u (by simp) rfl
    refine .inr (Sched.at_mutex_step (.wake hvalue hlast) ?_ (by simp) (fun t => ?_) hlog)
    · simp [Core.free_mutex, hentry.frame]
    · rw [Set.mem_insert_iff]
      by_cases ht : t = a.current
      · subst ht
        exact iff_of_false (fun h => hbehind h.2) (not_or.mpr
          ⟨Ne.symm hu, fun h => hentry.not_looping h.2⟩)
      · rw [hloops t ht]
        by_cases htu : t = u
        · subst htu
          exact iff_of_true ⟨hgone, hloop⟩ (.inl rfl)
        · simp [at_mutex, hlast, htu]
  · refine .inl (at_mutex_eq hother hentry.not_looping hbehind ?_ ?_ hlog)
    · simp [Core.free_mutex, hentry.frame, Ne.symm hm]
    · simp [Ne.symm hm]

/-- The kernel code of a mutex follows the steps of a lock with a queue of waiting tasks. -/
theorem Act.at_mutex_step (hact : a.Act op calls b) (hwf : a.WF) (h : a.Framed)
    (hfree : some a.current ∈ a.task_table → a.Free a.current) :
    b.at_mutex m = a.at_mutex m ∨ WaitQueue.Step a.current (a.at_mutex m) (b.at_mutex m) := by
  have hother := fun t (ht : t ≠ a.current) => hact.stack_of_ne ht
  have hclock : a.IF = true → ¬ a.Looping m a.current := by
    rintro hIF ⟨intr, rest, hstack⟩
    simp [hwf.intr _ _ hstack trivial] at hIF
  have hwakes : arrived m a.clock.log = arrived m a.log := by
    rw [clock_log]
    exact arrived_append (_ :: _) (by simp [Event.Aside])
  have hshaped := h.shaped a.current
  cases hact with
  | tick hIF hticks =>
    exact .inl (at_mutex_eq hother (hclock hIF) (by simp [Core.Looping]) (by simp) (by simp) hwakes)
  | expire hIF hticks =>
    exact .inl (at_mutex_eq hother (hclock hIF) (by simp [Core.Looping]) (by simp) (by simp) hwakes)
  | set_interrupt_state hstack hboot =>
    exact .inl (at_mutex_eq hother (by simp [Core.Looping, hstack]) (by simp [Core.Looping, hstack]) rfl
      rfl rfl)
  | sleep hthread hfree' =>
    exact .inl (at_mutex_eq hother (by simp [Core.Looping, hthread.1]) (by simp [Core.Looping, Core.doze])
      rfl (by simp) rfl)
  | take hentry hvalue => exact take_follows hentry hvalue hwf h hfree
  | wait hentry hvalue hfree' => exact wait_follows hentry hvalue hfree'
  | @wait_refused _ m' intr again c hentry hvalue hlinked =>
    exact absurd (hfree (hentry.enabled hwf.toWF).1) hlinked
  | release_refused hentry hvalue =>
    exact .inl (at_mutex_eq hother hentry.not_looping (by simp [Core.Looping, hentry.frame])
      (by simp [hentry.frame]) rfl (hentry.arrived m))
  | release hentry hvalue hempty => exact release_follows hentry hvalue hempty h
  | handoff hentry hvalue hlast => exact handoff_follows hentry hvalue hlast hwf h hfree
  | iret hstack =>
    have hbehind := (Act.iret hstack).not_looping (m := m) hshaped
    exact .inl (at_mutex_eq hother (by simp [Core.Looping, hstack]) hbehind rfl rfl rfl)
  | unlock_return hstack =>
    have hbehind := (Act.unlock_return hstack).not_looping (m := m) hshaped
    exact .inl (at_mutex_eq hother (by simp [Core.Looping, hstack]) hbehind rfl rfl rfl)
  | @spin_lock l point _ hstack hpoint =>
    have hbehind := (Act.spin_lock hstack hpoint).not_looping (m := m) hshaped
    refine .inl (at_mutex_eq hother (by simp [Core.Looping, hstack]) hbehind ?_ rfl ?_)
    · exact congrArg mutex_t.value (Core.spin_lock_stmt_mutex _ l m point)
    · exact Core.spin_lock_stmt_arrived _ l m point
  | @spin_unlock l point _ hstack hpoint =>
    have hbehind := (Act.spin_unlock hstack hpoint).not_looping (m := m) hshaped
    refine .inl (at_mutex_eq hother (by simp [Core.Looping, hstack]) hbehind ?_ rfl ?_)
    · exact congrArg mutex_t.value (Core.spin_unlock_stmt_mutex _ l m point)
    · exact Core.spin_unlock_stmt_arrived _ l m point
  | yield hthread =>
    exact .inl (at_mutex_eq hother (by simp [Core.Looping, hthread.1]) (by simp [Core.Looping]) rfl
      (by simp) rfl)
  | sleep_refused hthread hlinked =>
    exact .inl (at_mutex_eq hother (by simp [Core.Looping, hthread.1]) (by simp [Core.Looping]) rfl
      (by simp) rfl)
  | test_block hthread hgate hfree' =>
    exact .inl (at_mutex_eq hother (by simp [Core.Looping, hthread.1]) (by simp [Core.Looping]) rfl
      (by simp) rfl)
  | test_refused hthread hgate hlinked =>
    exact .inl (at_mutex_eq hother (by simp [Core.Looping, hthread.1]) (by simp [Core.Looping]) rfl
      (by simp) rfl)
  | test_wake hthread hgate =>
    exact .inl (at_mutex_eq hother (by simp [Core.Looping, hthread.1]) (by simp [Core.Looping]) rfl
      (by simp) rfl)
  | call_spin_lock hthread =>
    exact .inl (at_mutex_eq hother (by simp [Core.Looping, hthread.1]) (by simp [Core.Looping]) rfl
      (by simp) rfl)
  | call_spin_unlock hthread =>
    exact .inl (at_mutex_eq hother (by simp [Core.Looping, hthread.1]) (by simp [Core.Looping]) rfl
      (by simp) rfl)

end Sched

end onix
