import Onix.Sched.Shipped
import Onix.Sched.SpinLock

open ReentrantLock

namespace onix

variable {τ ℓ : Type}

/-- A call on a lock that has not returned. -/
inductive Pending where
  | spin_lock
  | spin_unlock
  /-- `spin_unlock`, behind the step that has released the mutex -/
  | released
  deriving DecidableEq, Repr

/-- The number of levels behind the return of a call. -/
def returned : Option Pending → Nat → Nat
  | none, depth => depth
  | some .spin_lock, depth => depth + 1
  | some .spin_unlock, depth => depth - 1
  | some .released, depth => depth - 1

/-- The kernel under an observer of the calls on one lock, who counts for each task the calls of
`spin_lock` that have returned less those of `spin_unlock` that have, and sees the call it is in. -/
structure Watched (τ ℓ : Type) where
  kernel : Kernel τ ℓ
  depth : τ → Nat
  pending : τ → Option Pending

variable [DecidableEq τ] [DecidableEq ℓ]

namespace Watched

section Definitions

variable (l : ℓ) (w : Watched τ ℓ)

/-- The call that the running task is in during an operation. -/
def call (op : Op ℓ) : Option Pending :=
  if op = .call (.spin_lock l) then some .spin_lock
  else if op = .call (.spin_unlock l) then some .spin_unlock
  else w.pending w.kernel.current

/-- The call at the end of an operation that ends in this state. -/
def call_behind (op : Op ℓ) (s' : Kernel τ ℓ) : Option Pending :=
  if w.call l op = some .spin_unlock ∧ (w.kernel.lock l).mutex.value = true ∧
      (s'.lock l).mutex.value = false then
    some .released
  else w.call l op

/-- The observer behind an operation. A call has returned when the task is in the code of its thread
again. -/
def watch (op : Op ℓ) (s' : Kernel τ ℓ) : Watched τ ℓ :=
  let t := w.kernel.current
  let call := w.call_behind l op s'
  { kernel := s'
    depth := Function.update w.depth t (if s'.stack t = [] then returned call (w.depth t) else w.depth t)
    pending := Function.update w.pending t (if s'.stack t = [] then none else call) }

/-- A task is between the return of its outermost `spin_lock` and its outermost `spin_unlock`. -/
def Inside (t : τ) : Prop :=
  1 ≤ w.depth t ∧ (2 ≤ w.depth t ∨ w.pending t = none ∨ w.pending t = some .spin_lock)

instance (t : τ) : Decidable (w.Inside t) := inferInstanceAs (Decidable (_ ∧ _))

/-- Any disciplined scheduling of tasks that call `spin_lock` and `spin_unlock` on one lock in nested
pairs, at most to the depth that `repeat` can count, and use its mutex in no other way. -/
structure Paired (search : Core τ ℓ → Option τ) (op : Op ℓ) : Prop extends
    Disciplined w.kernel.toCore search op where
  not_lock : op ≠ .call (.mutex_lock l)
  not_unlock : op ≠ .call (.mutex_unlock l)
  room : op = .call (.spin_lock l) → w.depth w.kernel.current + 1 < 2 ^ 32
  taken : op = .call (.spin_unlock l) → 1 ≤ w.depth w.kernel.current

/-- Behind `task_init` no task has called anything. -/
structure Starts (idle : τ) (tasks : List (τ × u32)) : Prop where
  boots : boots idle tasks w.kernel
  depth : ∀ t, w.depth t = 0
  pending : ∀ t, w.pending t = none

def Next (w' : Watched τ ℓ) : Prop :=
  ∃ search op s', w.Paired l search op ∧ step search op w.kernel = some s' ∧ w' = w.watch l op s'

/-- The states of the runs of nested pairs, as the observer has them. -/
abbrev Reachable (idle : τ) (tasks : List (τ × u32)) : Watched τ ℓ → Prop :=
  Runs.Reach (fun w => w.Starts idle tasks) fun w w' => w.Next l w'

end Definitions

variable {l : ℓ} {w : Watched τ ℓ} {op : Op ℓ} {s' : Kernel τ ℓ}

@[simp] theorem watch_kernel : (w.watch l op s').kernel = s' := rfl

theorem watch_of_ne (l : ℓ) (op : Op ℓ) (s' : Kernel τ ℓ) {t : τ} (ht : t ≠ w.kernel.current) :
    (w.watch l op s').depth t = w.depth t ∧ (w.watch l op s').pending t = w.pending t := by
  simp [watch, ht]

theorem watch_returned (l : ℓ) (op : Op ℓ) (hstack : s'.stack w.kernel.current = []) :
    (w.watch l op s').depth w.kernel.current =
      returned (w.call_behind l op s') (w.depth w.kernel.current) ∧
    (w.watch l op s').pending w.kernel.current = none := by
  simp [watch, hstack]

theorem watch_inside (l : ℓ) (op : Op ℓ) (hstack : s'.stack w.kernel.current ≠ []) :
    (w.watch l op s').depth w.kernel.current = w.depth w.kernel.current ∧
    (w.watch l op s').pending w.kernel.current = w.call_behind l op s' := by
  simp [watch, hstack]

omit [DecidableEq τ] in
theorem call_of_ne (hcalls : op ≠ .call (.spin_lock l) ∧ op ≠ .call (.spin_unlock l)) :
    w.call l op = w.pending w.kernel.current := by
  simp [call, hcalls]

omit [DecidableEq τ] in
/-- Only a `spin_unlock` is taken further by a release of the mutex. -/
theorem call_behind_of_call {call : Option Pending} (hcall : w.call l op = call)
    (hkept : call ≠ some .spin_unlock ∨
      ((w.kernel.lock l).mutex.value = true → (s'.lock l).mutex.value = true)) :
    w.call_behind l op s' = call := by
  rw [call_behind, hcall, if_neg]
  rintro ⟨rfl, hvalue, hfree⟩
  rcases hkept with hne | hkept
  · exact hne rfl
  · simp [hkept hvalue] at hfree

omit [DecidableEq τ] in
theorem call_behind_released (hcall : w.call l op = some .spin_unlock)
    (hvalue : (w.kernel.lock l).mutex.value = true) (hfree : (s'.lock l).mutex.value = false) :
    w.call_behind l op s' = some .released :=
  if_pos ⟨hcall, hvalue, hfree⟩

end Watched

theorem SpinLockPoint.place_ne_out (point : SpinLockPoint) : point.place ≠ .out := by
  cases point <;> simp [place]

/-- A task in `spin_unlock` gives back a level. -/
theorem SpinUnlockPoint.leaving (point : SpinUnlockPoint) : point.place.Leaving := by
  cases point <;> trivial

theorem SpinUnlockPoint.place_ne_out (point : SpinUnlockPoint) : point.place ≠ .out := by
  cases point <;> simp [place]

namespace Sched

variable {a b : Sched τ ℓ} {op : Op ℓ} {calls : Bool} {l : ℓ}

/-- A call is made in the code of a thread. -/
theorem Act.call_stack {call : Call ℓ} (hact : a.Act (.call call) calls b) : a.stack a.current = [] := by
  have hlock : ∀ {m intr again c}, a.LockEntry (.call call) m intr again c → a.stack a.current = [] := by
    intro m intr again c hentry
    cases hentry with
    | call hthread => exact hthread.1
  have hunlock : ∀ {m intr c}, a.UnlockEntry (.call call) m intr c → a.stack a.current = [] := by
    intro m intr c hentry
    cases hentry with
    | call hthread => exact hthread.1
  cases hact with
  | set_interrupt_state hstack hboot => exact hstack
  | take hentry hvalue => exact hlock hentry
  | wait hentry hvalue hfree => exact hlock hentry
  | wait_refused hentry hvalue hlinked => exact hlock hentry
  | release_refused hentry hvalue => exact hunlock hentry
  | release hentry hvalue hempty => exact hunlock hentry
  | handoff hentry hvalue hlast => exact hunlock hentry
  | yield hthread => exact hthread.1
  | sleep hthread hfree => exact hthread.1
  | sleep_refused hthread hlinked => exact hthread.1
  | test_block hthread hgate hfree => exact hthread.1
  | test_refused hthread hgate hlinked => exact hthread.1
  | test_wake hthread hgate => exact hthread.1
  | call_spin_lock hthread => exact hthread.1
  | call_spin_unlock hthread => exact hthread.1

/-- A call of `spin_lock` leads to its first statement. -/
theorem Act.calls_spin_lock (hact : a.Act (.call (.spin_lock l)) calls b) :
    b.stack a.current = [.spin_lock l .test] ∧ b.lock = a.lock ∧ b.log = a.log := by
  cases hact with
  | call_spin_lock hthread => exact ⟨by simp [hthread.1], rfl, rfl⟩
  | take hentry hvalue => cases hentry
  | wait hentry hvalue hfree => cases hentry
  | wait_refused hentry hvalue hlinked => cases hentry
  | release_refused hentry hvalue => cases hentry
  | release hentry hvalue hempty => cases hentry
  | handoff hentry hvalue hlast => cases hentry

theorem Act.calls_spin_unlock (hact : a.Act (.call (.spin_unlock l)) calls b) :
    b.stack a.current = [.spin_unlock l .check_holder] ∧ b.lock = a.lock ∧ b.log = a.log := by
  cases hact with
  | call_spin_unlock hthread => exact ⟨by simp [hthread.1], rfl, rfl⟩
  | take hentry hvalue => cases hentry
  | wait hentry hvalue hfree => cases hentry
  | wait_refused hentry hvalue hlinked => cases hentry
  | release_refused hentry hvalue => cases hentry
  | release hentry hvalue hempty => cases hentry
  | handoff hentry hvalue hlast => cases hentry

/-- Only its calls take a task into the code of a lock. -/
theorem Act.place_out (hact : a.Act op calls b) (hshaped : Shaped (a.stack a.current))
    (hout : place l (a.stack a.current) = .out)
    (hcalls : op ≠ .call (.spin_lock l) ∧ op ≠ .call (.spin_unlock l) ∧ op ≠ .call (.mutex_lock l)) :
    place l (b.stack a.current) = .out := by
  cases hact with
  | tick hIF hticks => simpa [place] using hout
  | expire hIF hticks => simpa [place] using hout
  | set_interrupt_state hstack hboot => exact hout
  | yield hthread => simpa [place] using hout
  | sleep hthread hfree => simpa [place, Core.doze] using hout
  | sleep_refused hthread hlinked => simpa [place] using hout
  | test_block hthread hgate hfree => simpa [place] using hout
  | test_refused hthread hgate hlinked => simpa [place] using hout
  | test_wake hthread hgate => simpa [place] using hout
  | @take _ m _ _ c hentry hvalue =>
    have hm : m ≠ l := by
      rintro rfl
      cases hentry with
      | call hthread => exact hcalls.2.2 rfl
      | spin hstack => simp [place, hstack, SpinLockPoint.place] at hout
      | retry hstack => simp [place, hstack] at hout
    simpa [Core.take_mutex, hentry.place_of_ne hm] using hout
  | wait hentry hvalue hfree =>
    simpa [Core.wait_mutex, hentry.frame, hentry.place_wait hcalls.2.2] using hout
  | wait_refused hentry hvalue hlinked =>
    simpa [place, hentry.frame] using (hentry.place_wait hcalls.2.2).trans hout
  | release_refused hentry hvalue => simp [hentry.frame, hentry.stack hshaped, place]
  | release hentry hvalue hempty => simp [Core.free_mutex, hentry.stack hshaped, place]
  | handoff hentry hvalue hlast => simp [Core.free_mutex, hentry.frame, hentry.stack hshaped, place]
  | iret hstack => simpa [place, hstack] using hout
  | unlock_return hstack => simpa [place, hstack] using hout
  | @call_spin_lock l' hthread =>
    have hl : l' ≠ l := by
      rintro rfl
      exact hcalls.1 rfl
    simp [place, hl, hthread.1]
  | @call_spin_unlock l' hthread =>
    have hl : l' ≠ l := by
      rintro rfl
      exact hcalls.2.1 rfl
    simp [place, hl, hthread.1]
  | @spin_lock l' point rest hstack hpoint =>
    have hl : l' ≠ l := by
      rintro rfl
      cases point <;> simp [place, hstack, SpinLockPoint.place] at hout
    have hrest := (hstack ▸ hshaped).spin_lock_rest
    exact (a.pop_frame.spin_lock_stmt_of_ne point hl).2.1.trans (by simp [hstack, hrest, place])
  | @spin_unlock l' point rest hstack hpoint =>
    have hl : l' ≠ l := by
      rintro rfl
      cases point <;> simp [place, hstack, SpinUnlockPoint.place] at hout
    have hrest := (hstack ▸ hshaped).spin_unlock_rest
    exact (a.pop_frame.spin_unlock_stmt_of_ne point hl).2.1.trans (by simp [hstack, hrest, place])

/-- A task that leaves the code of a lock is in the code of its thread again, or has made another task
ready in `mutex_unlock`. -/
theorem Act.leaves_place (hact : a.Act op calls b) (hshaped : Shaped (a.stack a.current))
    (hcall : op ≠ .call (.mutex_lock l)) (halive : ∀ e, .spin e ∉ b.stack a.current)
    (hbefore : place l (a.stack a.current) ≠ .out) (hbehind : place l (b.stack a.current) = .out) :
    b.stack a.current = [] ∨
      place l (a.stack a.current) = .release ∧ ∃ intr, b.stack a.current = [.mutex_unlock intr] := by
  have hthread : ¬ a.Thread := fun hthread => hbefore (by simp [hthread.1, place])
  cases hact with
  | tick hIF hticks => exact absurd (by simpa [place] using hbehind) hbefore
  | expire hIF hticks => exact absurd (by simpa [place] using hbehind) hbefore
  | set_interrupt_state hstack hboot => exact .inl hstack
  | @take _ m _ _ c hentry hvalue =>
    rcases hentry.stack hshaped with hrest | hrest
    · exact .inl (by simp [Core.take_mutex, hrest])
    · by_cases hm : m = l
      · simp [Core.take_mutex, hrest, hm, place, SpinLockPoint.place] at hbehind
      · exact absurd ((hentry.place_of_ne hm).symm.trans (by simp [hrest, hm, place])) hbefore
  | wait hentry hvalue hfree =>
    exact absurd ((hentry.place_wait hcall).symm.trans (by simpa [Core.wait_mutex, hentry.frame] using hbehind))
      hbefore
  | wait_refused hentry hvalue hlinked => exact absurd (by simp [hentry.frame]) (halive (.assertion .task_block_next))
  | release_refused hentry hvalue => exact absurd (by simp [hentry.frame]) (halive (.assertion .mutex_unlock_held))
  | release hentry hvalue hempty => exact .inl (by simp [Core.free_mutex, hentry.stack hshaped])
  | @handoff _ m intr _ _ _ hentry hvalue hlast =>
    refine .inr ⟨?_, intr, by simp [Core.free_mutex, hentry.frame, hentry.stack hshaped]⟩
    cases hentry with
    | call hyields => exact absurd hyields hthread
    | spin hstack =>
      obtain rfl := (hstack ▸ hshaped).spin_unlock_rest
      by_cases hm : m = l
      · simp [hstack, hm, place, SpinUnlockPoint.place]
      · exact absurd (by simp [hstack, hm, place]) hbefore
  | iret hstack => exact absurd (by simpa [place, hstack] using hbehind) hbefore
  | unlock_return hstack => exact absurd (by simpa [place, hstack] using hbehind) hbefore
  | @spin_lock l' point rest hstack hpoint =>
    obtain rfl := (hstack ▸ hshaped).spin_lock_rest
    obtain rfl : l' = l := by
      by_contra hl
      exact hbefore (by simp [hstack, hl, place])
    rcases Core.spin_lock_stmt_stack (c := a.pop_frame) (by simp [hstack]) l' point with h | ⟨next, h⟩ | ⟨e, h⟩
    · exact .inl h
    · replace h : (a.pop_frame.spin_lock_stmt l' point).stack a.current = [.spin_lock l' next] := h
      exact absurd (by simpa [h, place] using hbehind) next.place_ne_out
    · replace h : (a.pop_frame.spin_lock_stmt l' point).stack a.current = [.spin e] := h
      exact absurd (by simp [h]) (halive e)
  | @spin_unlock l' point rest hstack hpoint =>
    obtain rfl := (hstack ▸ hshaped).spin_unlock_rest
    obtain rfl : l' = l := by
      by_contra hl
      exact hbefore (by simp [hstack, hl, place])
    rcases Core.spin_unlock_stmt_stack (c := a.pop_frame) (by simp [hstack]) l' point with h | ⟨next, -, h⟩ | ⟨e, h⟩
    · exact .inl h
    · replace h : (a.pop_frame.spin_unlock_stmt l' point).stack a.current = [.spin_unlock l' next] := h
      exact absurd (by simpa [h, place] using hbehind) next.place_ne_out
    · replace h : (a.pop_frame.spin_unlock_stmt l' point).stack a.current = [.spin e] := h
      exact absurd (by simp [h]) (halive e)
  | _ => exact absurd ‹_› hthread

/-- The depth of the running task fits where it is. -/
theorem Spinning.fits_at (h : a.Spinning l) {p : Place} (hplace : place l (a.stack a.current) = p) :
    p.Fits (2 ^ 32) (depth l a.current a.log) :=
  hplace ▸ h.inv.fits a.current

/-- What an act does to the calls of the running task on a lock. -/
inductive Turn (l : ℓ) (op : Op ℓ) (a b : Sched τ ℓ) : Prop where
  | calls_lock (hop : op = .call (.spin_lock l)) (hbefore : a.stack a.current = [])
      (hstack : b.stack a.current = [.spin_lock l .test]) (hlock : b.lock = a.lock) (hlog : b.log = a.log)
  | calls_unlock (hop : op = .call (.spin_unlock l)) (hbefore : a.stack a.current = [])
      (hstack : b.stack a.current = [.spin_unlock l .check_holder]) (hlock : b.lock = a.lock)
      (hlog : b.log = a.log)
  | stays (hcalls : op ≠ .call (.spin_lock l) ∧ op ≠ .call (.spin_unlock l))
      (hout : place l (b.stack a.current) = .out ↔ place l (a.stack a.current) = .out)
      (hleaving : (place l (b.stack a.current)).Leaving ↔ (place l (a.stack a.current)).Leaving)
      (hdepth : depth l a.current b.log = depth l a.current a.log)
      (hheld : (a.lock l).mutex.value = true → (b.lock l).mutex.value = true)
  | locked (hcalls : op ≠ .call (.spin_lock l) ∧ op ≠ .call (.spin_unlock l))
      (hbefore : place l (a.stack a.current) ≠ .out ∧ ¬ (place l (a.stack a.current)).Leaving)
      (hstack : b.stack a.current = []) (hdepth : depth l a.current b.log = depth l a.current a.log + 1)
      (hheld : (b.lock l).mutex.value = (a.lock l).mutex.value)
  | dropped (hcalls : op ≠ .call (.spin_lock l) ∧ op ≠ .call (.spin_unlock l))
      (hbefore : place l (a.stack a.current) = .drop) (hstack : b.stack a.current = [])
      (hdepth : depth l a.current b.log = depth l a.current a.log - 1)
      (hlock : b.lock l = { a.lock l with «repeat» := (a.lock l).repeat - 1 })
  | released (hcalls : op ≠ .call (.spin_lock l) ∧ op ≠ .call (.spin_unlock l))
      (hbefore : place l (a.stack a.current) = .release)
      (hstack : b.stack a.current = [] ∨ ∃ intr, b.stack a.current = [.mutex_unlock intr])
      (hdepth : depth l a.current b.log = depth l a.current a.log - 1)
      (hheld : (a.lock l).mutex.value = true)
      (hlock : b.lock l = { holder := none, mutex := { value := false }, «repeat» := 0 })

omit [DecidableEq τ] [DecidableEq ℓ] in
/-- The shared variables are the lock. -/
theorem eq_of_shared {lock lock' : spinlock_t τ} (h : lock.shared = lock'.shared) : lock = lock' := by
  obtain ⟨holder, ⟨value⟩, levels⟩ := lock
  obtain ⟨holder', ⟨value'⟩, levels'⟩ := lock'
  simp only [spinlock_t.shared, Lock.mk.injEq, UInt32.toNat_inj] at h
  simp [h]

theorem of_view_eq_move {lock : Lock τ} {p : Place} {d : Nat}
    (hview : b.view l = (a.view l).move a.current lock p d) :
    (b.lock l).shared = lock ∧ place l (b.stack a.current) = p ∧ depth l a.current b.log = d := by
  refine ⟨congrArg State.lock hview, ?_, ?_⟩
  · simpa [Core.view, State.move] using congrFun (congrArg State.place hview) a.current
  · simpa [Core.view, State.move] using congrFun (congrArg State.depth hview) a.current

/-- An act of a task that keeps to nested pairs on a lock. -/
theorem Act.turn {search : Core τ ℓ → Option τ} (hact : a.Act op calls b)
    (hnested : Nested l a.toCore search op) (hshaped : Shaped (a.stack a.current)) (h : a.Spinning l)
    (halive : place l (a.stack a.current) ≠ .out → ∀ e, .spin e ∉ b.stack a.current) : Turn l op a b := by
  by_cases hlock : op = .call (.spin_lock l)
  · subst hlock
    obtain ⟨hstack, hsame, hlog⟩ := hact.calls_spin_lock
    exact .calls_lock rfl hact.call_stack hstack hsame hlog
  by_cases hunlock : op = .call (.spin_unlock l)
  · subst hunlock
    obtain ⟨hstack, hsame, hlog⟩ := hact.calls_spin_unlock
    exact .calls_unlock rfl hact.call_stack hstack hsame hlog
  have hcalls : op ≠ .call (.spin_lock l) ∧ op ≠ .call (.spin_unlock l) := ⟨hlock, hunlock⟩
  have hstays : ∀ p, place l (a.stack a.current) = .out → place l (b.stack a.current) = p → p = .out :=
    fun p hout hp => hp.symm.trans (hact.place_out hshaped hout ⟨hlock, hunlock, hnested.not_lock⟩)
  rcases hact.view_step hnested hshaped h with hview | hstep
  · have hplace : place l (b.stack a.current) = place l (a.stack a.current) :=
      congrFun (congrArg State.place hview) a.current
    refine .stays hcalls (by rw [hplace]) (by rw [hplace])
      (congrFun (congrArg State.depth hview) a.current) fun hheld => ?_
    exact (congrArg (Lock.held ∘ State.lock) hview).trans hheld
  generalize hview : b.view l = s' at hstep
  have hinside : ∀ {p lock q}, place l (a.stack a.current) = p → p ≠ .out →
      s' = (a.view l).move a.current lock q ((a.view l).depth a.current) → q ≠ .out →
      (q.Leaving ↔ p.Leaving) → ((a.lock l).mutex.value = true → lock.held = true) → Turn l op a b := by
    rintro p lock q rfl hp rfl hq hleaving hheld
    obtain ⟨hshared, hplace, hdepth⟩ := of_view_eq_move hview
    exact .stays hcalls (by simp [hplace, hp, hq]) (by rw [hplace, hleaving]) hdepth
      fun h => (congrArg Lock.held hshared).trans (hheld h)
  have hreturns : ∀ {p lock d}, place l (a.stack a.current) = p → p ≠ .out → p ≠ .release →
      s' = (a.view l).move a.current lock .out d →
      b.stack a.current = [] ∧ (b.lock l).shared = lock ∧ depth l a.current b.log = d := by
    rintro p lock d rfl hp hrelease rfl
    obtain ⟨hshared, hplace, hdepth⟩ := of_view_eq_move hview
    exact ⟨(hact.leaves_place hshaped hnested.not_lock (halive hp) hp hplace).resolve_right fun h => hrelease h.1,
      hshared, hdepth⟩
  cases hstep with
  | call_lock hplace hroom => exact absurd (hstays _ hplace (of_view_eq_move hview).2.1) (by simp)
  | call_unlock hplace hdepth => exact absurd (hstays _ hplace (of_view_eq_move hview).2.1) (by simp)
  | test_other hplace hholder => exact hinside hplace (by simp) rfl (by simp) (by simp [Place.Leaving]) id
  | test_own hplace hholder => exact hinside hplace (by simp) rfl (by simp) (by simp [Place.Leaving]) id
  | acquire hplace hheld =>
    exact hinside hplace (by simp) rfl (by simp) (by simp [Place.Leaving]) fun _ => rfl
  | hold hplace => exact hinside hplace (by simp) rfl (by simp) (by simp [Place.Leaving]) id
  | check hplace hlevels => exact hinside hplace (by simp) rfl (by simp) (by simp [Place.Leaving]) id
  | set hplace =>
    obtain ⟨hstack, hshared, hdepth⟩ := hreturns hplace (by simp) (by simp) rfl
    refine .locked hcalls ?_ hstack hdepth (congrArg Lock.held hshared)
    rw [show place l (a.stack a.current) = _ from hplace]
    simp [Place.Leaving]
  | again hplace =>
    obtain ⟨hstack, hshared, hdepth⟩ := hreturns hplace (by simp) (by simp) rfl
    refine .locked hcalls ?_ hstack hdepth (congrArg Lock.held hshared)
    rw [show place l (a.stack a.current) = _ from hplace]
    simp [Place.Leaving]
  | check_holder hplace hholder => exact hinside hplace (by simp) rfl (by simp) (by simp [Place.Leaving]) id
  | test_many hplace hlevels => exact hinside hplace (by simp) rfl (by simp) (by simp [Place.Leaving]) id
  | test_last hplace hlevels => exact hinside hplace (by simp) rfl (by simp) (by simp [Place.Leaving]) id
  | drop hplace =>
    obtain ⟨hstack, hshared, hdepth⟩ := hreturns hplace (by simp) (by simp) rfl
    have hlevels : (a.lock l).repeat.toNat = depth l a.current a.log :=
      congrArg Lock.levels (h.shared hplace rfl)
    have hfits : 2 ≤ depth l a.current a.log := h.fits_at hplace
    have hsub : ((a.lock l).repeat - 1).toNat = (a.lock l).repeat.toNat - 1 :=
      UInt32.toNat_sub_of_le _ _ (UInt32.le_iff_toNat_le.mpr (by rw [hlevels, UInt32.toNat_one]; omega))
    refine .dropped hcalls hplace hstack hdepth (eq_of_shared (hshared.trans ?_))
    simp [Core.view, spinlock_t.shared, hsub]
  | check_last hplace hlevels => exact hinside hplace (by simp) rfl (by simp) (by simp [Place.Leaving]) id
  | clear_holder hplace => exact hinside hplace (by simp) rfl (by simp) (by simp [Place.Leaving]) id
  | clear_levels hplace => exact hinside hplace (by simp) rfl (by simp) (by simp [Place.Leaving]) id
  | release hplace hheld =>
    obtain ⟨hshared, hbehind, hdepth⟩ := of_view_eq_move hview
    have hbefore : place l (a.stack a.current) ≠ .out := by
      rw [show place l (a.stack a.current) = _ from hplace]
      simp
    have hshared' : (a.lock l).shared = { held := true, holder := none, levels := 0 } := h.shared hplace rfl
    refine .released hcalls hplace ((hact.leaves_place hshaped hnested.not_lock (halive hbefore) hbefore hbehind).imp_right
      And.right) hdepth hheld (eq_of_shared (hshared.trans ?_))
    rw [show (a.view l).lock = _ from hshared']
    rfl

end Sched

/-- Where a task with these frames and this depth is for the observer of the calls on a lock. -/
inductive Watches (l : ℓ) (frames : List (Frame ℓ)) (depth : Nat) : Option Pending → Nat → Prop where
  | out (hplace : place l frames = .out) : Watches l frames depth none depth
  | locking (hplace : place l frames ≠ .out) (hstays : ¬ (place l frames).Leaving)
      (halive : ∀ e, .spin e ∉ frames) : Watches l frames depth (some .spin_lock) depth
  | unlocking (hleaving : (place l frames).Leaving) (halive : ∀ e, .spin e ∉ frames) :
      Watches l frames depth (some .spin_unlock) depth
  | released {intr : Bool} (hframes : frames = [.mutex_unlock intr]) (hdepth : depth = 0) :
      Watches l frames depth (some .released) 1

namespace Watches

variable {l : ℓ} {frames : List (Frame ℓ)} {depth levels : Nat} {pending : Option Pending}

omit [DecidableEq τ] in
/-- In the code of its thread a task is in no call. -/
theorem of_nil (h : Watches l [] depth pending levels) : pending = none ∧ levels = depth := by
  cases h with
  | out hplace => exact ⟨rfl, rfl⟩
  | locking hplace hstays halive => exact absurd rfl hplace
  | unlocking hleaving halive => exact hleaving.elim
  | released hframes hdepth => exact absurd hframes (by simp)

theorem of_leaving (h : Watches l frames depth pending levels) (hleaving : (place l frames).Leaving) :
    pending = some .spin_unlock ∧ levels = depth := by
  cases h with
  | out hplace => exact (hplace ▸ hleaving).elim
  | locking hplace hstays halive => exact absurd hleaving hstays
  | unlocking hleaving halive => exact ⟨rfl, rfl⟩
  | released hframes hdepth => exact (show Place.Leaving .out by simpa [hframes, place] using hleaving).elim

/-- Out of the code of the lock a task is in no call, or at the end of the one that has released it. -/
theorem of_out (h : Watches l frames depth pending levels) (hout : place l frames = .out) :
    pending = none ∨ pending = some .released ∧ levels = 1 := by
  cases h with
  | out hplace => exact .inl rfl
  | locking hplace hstays halive => exact absurd hout hplace
  | unlocking hleaving halive => exact (hout ▸ hleaving).elim
  | released hframes hdepth => exact .inr ⟨rfl, rfl⟩

theorem of_locking (h : Watches l frames depth pending levels) (hplace : place l frames ≠ .out)
    (hstays : ¬ (place l frames).Leaving) : pending = some .spin_lock := by
  cases h with
  | out hout => exact absurd hout hplace
  | locking hplace hstays halive => rfl
  | unlocking hleaving halive => exact absurd hleaving hstays
  | released hframes hdepth => exact absurd (by rw [hframes]; rfl) hplace

/-- A task in a call is in the code of the lock, or at the end of the call that has released it. -/
theorem of_pending (h : Watches l frames depth pending levels) (hcall : pending ≠ none) :
    place l frames ≠ .out ∨ ∃ intr, frames = [.mutex_unlock intr] := by
  cases h with
  | out hplace => exact absurd rfl hcall
  | locking hplace hstays halive => exact .inl hplace
  | unlocking hleaving halive => exact .inl fun hout => (hout ▸ hleaving).elim
  | released hframes hdepth => exact .inr ⟨_, hframes⟩

theorem of_unlock (h : Watches l frames depth pending levels)
    (hcall : pending = some .spin_unlock ∨ pending = some .released) :
    (place l frames).Leaving ∨ ∃ intr, frames = [.mutex_unlock intr] := by
  cases h with
  | out hplace => simp at hcall
  | locking hplace hstays halive => simp at hcall
  | unlocking hleaving halive => exact .inl hleaving
  | released hframes hdepth => exact .inr ⟨_, hframes⟩

section Watch

variable {w : Watched τ ℓ} {op : Op ℓ} {s' : Kernel τ ℓ} {t : τ}

/-- Behind an operation that ends in a call -/
theorem inside (hcurrent : w.kernel.current = t) (hne : s'.stack t ≠ [])
    (h : Watches l frames depth (w.call_behind l op s') (w.depth t)) :
    Watches l frames depth ((w.watch l op s').pending t) ((w.watch l op s').depth t) := by
  subst hcurrent
  obtain ⟨hdepth, hpending⟩ := w.watch_inside l op hne
  rwa [hdepth, hpending]

/-- Behind one that returns to the code of the thread -/
theorem returned (hcurrent : w.kernel.current = t) (hnil : s'.stack t = [])
    (hlevels : depth = onix.returned (w.call_behind l op s') (w.depth t)) :
    Watches l [] depth ((w.watch l op s').pending t) ((w.watch l op s').depth t) := by
  subst hcurrent
  obtain ⟨hdepth, hpending⟩ := w.watch_returned l op hnil
  rw [hdepth, hpending, hlevels]
  exact .out rfl

end Watch

end Watches

namespace Sched

variable {a b : Sched τ ℓ} {op : Op ℓ} {l : ℓ} {w : Watched τ ℓ} {s' : Kernel τ ℓ}

/-- The observer sees what the running task does. -/
theorem Turn.watches (h : Turn l op a b) (hcore : w.kernel.toCore = a.toCore)
    (hstack : s'.stack a.current = b.stack a.current) (hlock : s'.lock = b.lock)
    (halive : place l (b.stack a.current) ≠ .out → ∀ e, .spin e ∉ b.stack a.current)
    (hlast : place l (a.stack a.current) = .release → depth l a.current a.log = 1)
    (hreturns : ∀ intr, a.stack a.current = [.mutex_unlock intr] → b.stack a.current = [])
    (hw : Watches l (a.stack a.current) (depth l a.current a.log) (w.pending a.current) (w.depth a.current)) :
    Watches l (b.stack a.current) (depth l a.current b.log) ((w.watch l op s').pending a.current)
      ((w.watch l op s').depth a.current) := by
  have hcurrent : w.kernel.current = a.current := congrArg Core.current hcore
  have hlock' : w.kernel.lock = a.lock := congrArg Core.lock hcore
  -- the two ways in which the operation ends for the observer
  have hinside : ∀ {call}, w.call_behind l op s' = call → b.stack a.current ≠ [] →
      Watches l (b.stack a.current) (depth l a.current b.log) call (w.depth a.current) →
      Watches l (b.stack a.current) (depth l a.current b.log) ((w.watch l op s').pending a.current)
        ((w.watch l op s').depth a.current) := by
    rintro call rfl hne hwatches
    exact hwatches.inside hcurrent (by rwa [hstack])
  have hreturned : ∀ {call}, w.call_behind l op s' = call → b.stack a.current = [] →
      depth l a.current b.log = returned call (w.depth a.current) →
      Watches l (b.stack a.current) (depth l a.current b.log) ((w.watch l op s').pending a.current)
        ((w.watch l op s').depth a.current) := by
    rintro call rfl hnil hlevels
    rw [hnil]
    exact .returned hcurrent (by rwa [hstack]) hlevels
  have hnonempty : place l (b.stack a.current) ≠ .out → b.stack a.current ≠ [] := fun hplace hnil =>
    hplace (by rw [hnil]; rfl)
  have hcalls : op ≠ .call (.spin_lock l) ∧ op ≠ .call (.spin_unlock l) →
      w.call l op = w.pending a.current := fun hcalls => hcurrent ▸ w.call_of_ne hcalls
  have hkept : ((a.lock l).mutex.value = true → (b.lock l).mutex.value = true) →
      (w.kernel.lock l).mutex.value = true → (s'.lock l).mutex.value = true := by
    rw [hlock', hlock]
    exact id
  generalize w.pending a.current = pending at hw hcalls
  generalize w.depth a.current = levels at hw hinside hreturned
  cases h with
  | calls_lock hop hbefore hbehind hsame hlog =>
    have hplace : place l (b.stack a.current) = .test := by simp [hbehind, place, SpinLockPoint.place]
    have hout : place l (b.stack a.current) ≠ .out := by simp [hplace]
    obtain ⟨-, rfl⟩ := (hbefore ▸ hw).of_nil
    rw [← hlog] at hinside
    exact hinside (w.call_behind_of_call (if_pos hop) (.inl (by simp))) (hnonempty hout)
      (.locking hout (by simp [hplace, Place.Leaving]) (halive hout))
  | calls_unlock hop hbefore hbehind hsame hlog =>
    have hplace : place l (b.stack a.current) = .check_holder := by
      simp [hbehind, place, SpinUnlockPoint.place]
    have hout : place l (b.stack a.current) ≠ .out := by simp [hplace]
    obtain ⟨-, rfl⟩ := (hbefore ▸ hw).of_nil
    rw [← hlog] at hinside
    exact hinside (w.call_behind_of_call (by simp [Watched.call, hop]) (.inr (hkept (by rw [hsame]; exact id))))
      (hnonempty hout) (.unlocking (by simp [hplace, Place.Leaving]) (halive hout))
  | stays hno hout hleaving hdepth hheld =>
    rw [← hdepth] at hw
    cases hw with
    | out hplace =>
      have hbehind : w.call_behind l op s' = none := w.call_behind_of_call (hcalls hno) (.inl (by simp))
      by_cases hnil : b.stack a.current = []
      · exact hreturned hbehind hnil rfl
      · exact hinside hbehind hnil (.out (hout.mpr hplace))
    | locking hplace hstays _ =>
      have hplace := mt hout.mp hplace
      exact hinside (w.call_behind_of_call (hcalls hno) (.inl (by simp))) (hnonempty hplace)
        (.locking hplace (mt hleaving.mp hstays) (halive hplace))
    | unlocking hleaves _ =>
      have hplace : place l (b.stack a.current) ≠ .out := fun h => by
        rw [← hleaving, h] at hleaves
        exact hleaves
      exact hinside (w.call_behind_of_call (hcalls hno) (.inr (hkept hheld))) (hnonempty hplace)
        (.unlocking (hleaving.mpr hleaves) (halive hplace))
    | released hframes hzero =>
      exact hreturned (w.call_behind_of_call (hcalls hno) (.inl (by simp))) (hreturns _ hframes) hzero
  | locked hno hbefore hnil hdepth hheld =>
    cases hw with
    | out hplace => exact absurd hplace hbefore.1
    | locking hplace hstays _ =>
      exact hreturned (w.call_behind_of_call (hcalls hno) (.inl (by simp))) hnil hdepth
    | unlocking hleaves _ => exact absurd hleaves hbefore.2
    | released hframes _ => exact absurd (by rw [hframes]; rfl) hbefore.1
  | dropped hno hbefore hnil hdepth hsame =>
    obtain ⟨rfl, rfl⟩ := hw.of_leaving (by rw [hbefore]; trivial)
    exact hreturned (w.call_behind_of_call (hcalls hno) (.inr (hkept (by rw [hsame]; exact id)))) hnil hdepth
  | released hno hbefore hbehind hdepth hvalue hfree =>
    obtain ⟨rfl, rfl⟩ := hw.of_leaving (by rw [hbefore]; trivial)
    have hcall : w.call_behind l op s' = some .released :=
      w.call_behind_released (hcalls hno) (by rw [hlock', hvalue]) (by rw [hlock, hfree])
    rcases hbehind with hnil | ⟨intr, hframes⟩
    · exact hreturned hcall hnil hdepth
    · refine hinside hcall (by simp [hframes]) ?_
      rw [hlast hbefore]
      exact .released hframes (by rw [hdepth, hlast hbefore])

end Sched

end onix
