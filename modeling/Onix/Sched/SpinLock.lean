import Onix.Library.ReentrantLock
import Onix.Sched.Frames

open ReentrantLock

namespace onix

variable {τ ℓ : Type}

/-- The nesting depth of a task in a lock: the calls of `spin_lock` that have returned without those
that `spin_unlock` has taken back. -/
def depth [DecidableEq τ] [DecidableEq ℓ] (l : ℓ) (t : τ) : List (Event τ ℓ) → Nat
  | [] => 0
  | .locked u l' :: log => if u = t ∧ l' = l then depth l t log + 1 else depth l t log
  | .unlocked u l' :: log => if u = t ∧ l' = l then depth l t log - 1 else depth l t log
  | _ :: log => depth l t log

def SpinLockPoint.place : SpinLockPoint → Place
  | .test => .test
  | .acquire => .acquire
  | .hold => .hold
  | .check => .check
  | .set => .set
  | .again => .again

def SpinUnlockPoint.place : SpinUnlockPoint → Place
  | .check_holder => .check_holder
  | .test => .test_last
  | .drop => .drop
  | .check_repeat => .check_last
  | .clear_holder => .clear_holder
  | .clear_repeat => .clear_levels
  | .release => .release

/-- Where a task with these frames is in the code of the lock. -/
def place [DecidableEq ℓ] (l : ℓ) : List (Frame ℓ) → Place
  | [] => .out
  | .spin_lock l' point :: rest => if l' = l then point.place else place l rest
  | .spin_unlock l' point :: rest => if l' = l then point.place else place l rest
  | .mutex_lock m _ :: rest => if m = l then .acquire else place l rest
  | _ :: rest => place l rest

def spinlock_t.shared (lock : spinlock_t τ) : Lock τ :=
  { held := lock.mutex.value, holder := lock.holder, levels := lock.repeat.toNat }

variable [DecidableEq τ] [DecidableEq ℓ]

/-- The kernel as the tasks on one spin lock see it. -/
def Core.view (l : ℓ) (c : Core τ ℓ) : State τ where
  lock := (c.lock l).shared
  place := fun t => place l (c.stack t)
  depth := fun t => depth l t c.log

/-- Any disciplined scheduling of tasks that take and give back one lock in nested pairs, at most to
the depth that `repeat` can count, and use its mutex in no other way. -/
structure Nested (l : ℓ) (c : Core τ ℓ) (search : Core τ ℓ → Option τ) (op : Op ℓ) : Prop extends
    Disciplined c search op where
  not_lock : op ≠ .call (.mutex_lock l)
  not_unlock : op ≠ .call (.mutex_unlock l)
  room : op = .call (.spin_lock l) → depth l c.current c.log + 1 < 2 ^ 32
  taken : op = .call (.spin_unlock l) → 1 ≤ depth l c.current c.log

theorem depth_append {l : ℓ} {t : τ} (es : List (Event τ ℓ)) {log : List (Event τ ℓ)}
    (hes : ∀ e ∈ es, ∀ u l', e = .locked u l' ∨ e = .unlocked u l' → ¬ (u = t ∧ l' = l)) :
    depth l t (es ++ log) = depth l t log := by
  induction es with
  | nil => rfl
  | cons e es ih =>
    have he := hes e (by simp)
    have ih := ih fun f hf => hes f (by simp [hf])
    cases e with
    | locked u l' => simpa [depth, he u l' (.inl rfl)] using ih
    | unlocked u l' => simpa [depth, he u l' (.inr rfl)] using ih
    | _ => exact ih

namespace Core

variable {c d : Core τ ℓ} {op : Op ℓ} {l m : ℓ} {intr again : Bool}

/-- A task that waits for a mutex stays where it is in the code of every spin lock. -/
theorem LockEntry.place_wait (hentry : c.LockEntry op m intr again d)
    (hcall : op ≠ .call (.mutex_lock l)) :
    place l (.mutex_lock m intr :: d.stack c.current) = place l (c.stack c.current) := by
  by_cases hm : m = l
  · subst hm
    cases hentry with
    | call hthread => exact absurd rfl hcall
    | spin hstack => simp [place, hstack, SpinLockPoint.place]
    | retry hstack => simp [place, hstack]
  · cases hentry <;> simp_all [place]

theorem LockEntry.place_of_ne (hentry : c.LockEntry op m intr again d) (hm : m ≠ l) :
    place l (d.stack c.current) = place l (c.stack c.current) := by
  cases hentry <;> simp_all [place]

/-- A task that takes the mutex of a spin lock is in `spin_lock`. -/
theorem LockEntry.place_take (hentry : c.LockEntry op l intr again d)
    (hcall : op ≠ .call (.mutex_lock l))
    (hwaits : ∀ intr rest, c.stack c.current = .mutex_lock l intr :: rest → rest = [.spin_lock l .hold]) :
    place l (c.stack c.current) = .acquire ∧ place l (d.stack c.current) = .hold := by
  cases hentry with
  | call hthread => exact absurd rfl hcall
  | spin hstack => simp [place, hstack, SpinLockPoint.place]
  | retry hstack =>
    obtain rfl := hwaits _ _ hstack
    simp [place, hstack, SpinLockPoint.place]

theorem UnlockEntry.view_of_ne (hentry : c.UnlockEntry op m intr d) (hm : m ≠ l) :
    place l (d.stack c.current) = place l (c.stack c.current) ∧
      ∀ t, depth l t d.log = depth l t c.log := by
  cases hentry <;> simp_all [place, depth]

/-- A task that gives back the mutex of a spin lock is at the end of `spin_unlock`. -/
theorem UnlockEntry.place_release (hentry : c.UnlockEntry op l intr d)
    (hcall : op ≠ .call (.mutex_unlock l)) :
    place l (c.stack c.current) = .release ∧
      ∀ t, depth l t d.log = if c.current = t then depth l t c.log - 1 else depth l t c.log := by
  cases hentry with
  | call hthread => exact absurd rfl hcall
  | spin hstack => simp [place, hstack, SpinUnlockPoint.place, depth]

/-- The statements on other locks keep the view of a lock. -/
theorem spin_lock_stmt_of_ne (c : Core τ ℓ) {l' : ℓ} (point : SpinLockPoint) (hl : l' ≠ l) :
    (c.spin_lock_stmt l' point).lock l = c.lock l ∧
      place l ((c.spin_lock_stmt l' point).stack c.current) = place l (c.stack c.current) ∧
        ∀ t, depth l t (c.spin_lock_stmt l' point).log = depth l t c.log := by
  cases point with
  | test =>
    by_cases h : (c.lock l').holder = some c.current <;> simp [spin_lock_stmt, h, place, hl]
  | check => by_cases h : (c.lock l').repeat = 0 <;> simp [spin_lock_stmt, h, place, hl]
  | _ => simp [spin_lock_stmt, place, depth, hl, Ne.symm hl]

theorem spin_unlock_stmt_of_ne (c : Core τ ℓ) {l' : ℓ} (point : SpinUnlockPoint) (hl : l' ≠ l) :
    (c.spin_unlock_stmt l' point).lock l = c.lock l ∧
      place l ((c.spin_unlock_stmt l' point).stack c.current) = place l (c.stack c.current) ∧
        ∀ t, depth l t (c.spin_unlock_stmt l' point).log = depth l t c.log := by
  cases point with
  | check_holder =>
    by_cases h : (c.lock l').holder = some c.current <;> simp [spin_unlock_stmt, h, place, hl]
  | test => by_cases h : (c.lock l').repeat > 1 <;> simp [spin_unlock_stmt, h, place, hl]
  | check_repeat => by_cases h : (c.lock l').repeat = 1 <;> simp [spin_unlock_stmt, h, place, hl]
  | _ => simp [spin_unlock_stmt, place, depth, hl, Ne.symm hl]

end Core

namespace Sched

variable {a b : Sched τ ℓ} {op : Op ℓ} {calls : Bool} {l : ℓ}

/-- What a step of one task does to the view of a lock. -/
theorem view_eq_move (hstack : ∀ t, t ≠ a.current → b.stack t = a.stack t)
    (hdepth : ∀ t, t ≠ a.current → depth l t b.log = depth l t a.log) :
    b.view l = (a.view l).move a.current (b.lock l).shared (place l (b.stack a.current))
      (depth l a.current b.log) := by
  have hplace : (fun t => place l (b.stack t)) =
      Function.update (fun t => place l (a.stack t)) a.current (place l (b.stack a.current)) := by
    funext t
    by_cases ht : t = a.current
    · simp [ht]
    · simp [ht, hstack t ht]
  have hdepth : (fun t => depth l t b.log) =
      Function.update (fun t => depth l t a.log) a.current (depth l a.current b.log) := by
    funext t
    by_cases ht : t = a.current
    · simp [ht]
    · simp [ht, hdepth t ht]
  rw [Core.view, State.move, hplace, hdepth]
  rfl

/-- A statement of the protocol, given what it does to the lock, to the place and to the depth of the
running task. -/
theorem view_step {lock : Lock τ} {p : Place} {d : Nat}
    (hstep : ReentrantLock.Step (2 ^ 32) a.current (a.view l) ((a.view l).move a.current lock p d))
    (hstack : ∀ t, t ≠ a.current → b.stack t = a.stack t) (hlock : (b.lock l).shared = lock)
    (hplace : place l (b.stack a.current) = p)
    (hdepth : ∀ t, depth l t b.log = if t = a.current then d else depth l t a.log) :
    ReentrantLock.Step (2 ^ 32) a.current (a.view l) (b.view l) := by
  rw [view_eq_move hstack fun t ht => by rw [hdepth, if_neg ht], hlock, hplace, hdepth, if_pos rfl]
  exact hstep

theorem depth_same (hlog : b.log = a.log) (t : τ) : depth l t b.log =
    if t = a.current then (a.view l).depth a.current else depth l t a.log := by
  rw [hlog]
  split_ifs with ht
  · rw [ht]
    rfl
  · rfl

/-- A step that does not touch the lock, nor takes the running task into or out of its code. -/
theorem view_eq (hlock : b.lock l = a.lock l)
    (hplace : place l (b.stack a.current) = place l (a.stack a.current))
    (hdepth : ∀ t, depth l t b.log = depth l t a.log)
    (hstack : ∀ t, t ≠ a.current → b.stack t = a.stack t) : b.view l = a.view l := by
  rw [view_eq_move hstack fun t _ => hdepth t, hlock, hplace, hdepth]
  simp [State.move, Core.view]

/-- Between operations the tasks on a spin lock keep to the protocol, and a task waits for its mutex
only in `spin_lock`. -/
structure Spinning (l : ℓ) (a : Sched τ ℓ) : Prop where
  inv : Inv (2 ^ 32) (a.view l)
  waits : ∀ t intr rest, a.stack t = .mutex_lock l intr :: rest → rest = [.spin_lock l .hold]

/-- `mutex_unlock` is the last statement of the protocol on the lock whose mutex it gives back. -/
theorem Spinning.release {search : Core τ ℓ → Option τ} {m : ℓ} {intr : Bool} {c : Core τ ℓ}
    (h : a.Spinning l) (hentry : a.UnlockEntry op m intr c) (hnested : Nested l a.toCore search op)
    (hshaped : Shaped (a.stack a.current)) (hvalue : (a.lock m).mutex.value = true)
    (hlock : b.lock = Function.update a.lock m { a.lock m with mutex := { value := false } })
    (hplace : place l (b.stack a.current) = place l (c.stack a.current))
    (hdepth : ∀ t, depth l t b.log = depth l t c.log)
    (hother : ∀ t, t ≠ a.current → b.stack t = a.stack t) :
    b.view l = a.view l ∨ ReentrantLock.Step (2 ^ 32) a.current (a.view l) (b.view l) := by
  by_cases hm : m = l
  · subst hm
    obtain ⟨hbefore, hlog⟩ := hentry.place_release hnested.not_unlock
    refine .inr ?_
    rw [view_eq_move hother fun t ht => by rw [hdepth, hlog, if_neg (Ne.symm ht)], hplace, hdepth, hlog,
      if_pos rfl, hentry.stack hshaped]
    have hshared : (b.lock m).shared = { (a.view m).lock with held := false } := by
      simp [hlock, spinlock_t.shared, Core.view]
    rw [hshared]
    exact .release hbefore hvalue
  · obtain ⟨hplace', hlog⟩ := hentry.view_of_ne hm
    refine .inl (view_eq ?_ (hplace.trans hplace') (fun t => (hdepth t).trans (hlog t)) hother)
    rw [hlock, Function.update_of_ne (Ne.symm hm)]

/-- `mutex_lock` is the statement of the protocol that acquires the lock whose mutex it takes. -/
theorem Spinning.take {search : Core τ ℓ → Option τ} {m : ℓ} {intr again : Bool} {c : Core τ ℓ}
    (h : a.Spinning l) (hentry : a.LockEntry op m intr again c) (hnested : Nested l a.toCore search op)
    (hvalue : (a.lock m).mutex.value = false) (hb : b.toCore = c.take_mutex m intr)
    (hother : ∀ t, t ≠ a.current → b.stack t = a.stack t) :
    b.view l = a.view l ∨ ReentrantLock.Step (2 ^ 32) a.current (a.view l) (b.view l) := by
  have hdepth : ∀ t, depth l t b.log = depth l t a.log := fun t => by
    simp [hb, Core.take_mutex, depth, hentry.frame]
  have hstack : b.stack a.current = c.stack a.current := by simp [hb, Core.take_mutex]
  by_cases hm : m = l
  · subst hm
    obtain ⟨hbefore, hbehind⟩ := hentry.place_take hnested.not_lock (h.waits a.current)
    have hlock : (b.lock m).shared = { (a.view m).lock with held := true } := by
      simp [hb, Core.take_mutex, spinlock_t.shared, Core.view, hentry.frame]
    refine .inr ?_
    rw [view_eq_move hother fun t _ => hdepth t, hdepth, hstack, hbehind, hlock]
    exact .acquire hbefore hvalue
  · refine .inl (view_eq ?_ ?_ hdepth hother)
    · simp [hb, Core.take_mutex, hentry.frame, Ne.symm hm]
    · rw [hstack]
      exact hentry.place_of_ne hm

/-- Under the discipline, `mutex_unlock` finds the mutex of the lock held. -/
theorem Spinning.held {search : Core τ ℓ → Option τ} {intr : Bool} {c : Core τ ℓ} (h : a.Spinning l)
    (hentry : a.UnlockEntry op l intr c) (hnested : Nested l a.toCore search op) :
    (a.lock l).mutex.value = true := by
  have hlock := h.inv.owner a.current _ (by
    simp only [Core.view, (hentry.place_release hnested.not_unlock).1]
    rfl)
  exact congrArg Lock.held hlock

/-- A call of a function of some lock takes the task into the code of this lock alone. -/
theorem view_call {l' : ℓ} {p : Place} {frame : Frame ℓ} (hthread : a.Thread)
    (hframe : place l [frame] = if l' = l then p else .out)
    (hstep : l' = l → (a.view l).place a.current = .out → ReentrantLock.Step (2 ^ 32) a.current (a.view l)
      ((a.view l).move a.current (a.view l).lock p ((a.view l).depth a.current)))
    (hb : b.toCore = a.push_frame frame) (hother : ∀ t, t ≠ a.current → b.stack t = a.stack t) :
    b.view l = a.view l ∨ ReentrantLock.Step (2 ^ 32) a.current (a.view l) (b.view l) := by
  have hbefore : place l (a.stack a.current) = .out := by rw [hthread.1]; rfl
  have hplace : place l (b.stack a.current) = if l' = l then p else .out := by
    rw [← hframe]
    simp [hb, hthread.1]
  by_cases hl : l' = l
  · rw [if_pos hl] at hplace
    exact .inr (view_step (hstep hl hbefore) hother (by simp [hb, Core.view]) hplace (depth_same (by simp [hb])))
  · rw [if_neg hl, ← hbefore] at hplace
    exact .inl (view_eq (by simp [hb]) hplace (fun t => by simp [hb]) hother)

/-- What the shared variables are while the running task owns the lock at a place. -/
theorem Spinning.shared (h : a.Spinning l) {p : Place} (hplace : place l (a.stack a.current) = p)
    {lock : Lock τ} (howned : p.owned a.current (depth l a.current a.log) = some lock) :
    (a.lock l).shared = lock :=
  h.inv.owner a.current lock (by rw [← howned, ← hplace]; rfl)

/-- The statements of `spin_lock` outside of the mutex. -/
theorem Spinning.spin_lock (h : a.Spinning l) {point : SpinLockPoint} (hpoint : point ≠ .acquire)
    (hstack : a.stack a.current = [.spin_lock l point])
    (hb : b.toCore = a.pop_frame.spin_lock_stmt l point) :
    ReentrantLock.Step (2 ^ 32) a.current (a.view l) (b.view l) := by
  have hbefore : place l (a.stack a.current) = point.place := by simp [hstack, place]
  have hother : ∀ t, t ≠ a.current → b.stack t = a.stack t :=
    fun t ht => by rw [hb, Core.spin_lock_stmt_stack_of_ne _ _ (by simpa using ht)]; simp [ht]
  have hlocked : ∀ t, depth l t (.locked a.current l :: a.log) =
      if t = a.current then depth l a.current a.log + 1 else depth l t a.log := fun t => by
    by_cases ht : t = a.current
    · simp [depth, ht]
    · simp [depth, ht, Ne.symm ht]
  cases point with
  | acquire => exact absurd rfl hpoint
  | test =>
    by_cases hholder : (a.lock l).holder = some a.current
    · have hb : b.toCore = a.pop_frame.push_frame (.spin_lock l .again) := by
        simpa [Core.spin_lock_stmt, hholder] using hb
      refine view_step (.test_own hbefore hholder) hother ?_ ?_ fun t => ?_
      · simp [hb, Core.view]
      · simp [hb, place, SpinLockPoint.place]
      · exact depth_same (by simp [hb]) t
    · have hb : b.toCore = a.pop_frame.push_frame (.spin_lock l .acquire) := by
        simpa [Core.spin_lock_stmt, hholder] using hb
      refine view_step (.test_other hbefore hholder) hother ?_ ?_ fun t => ?_
      · simp [hb, Core.view]
      · simp [hb, place, SpinLockPoint.place]
      · exact depth_same (by simp [hb]) t
  | hold =>
    refine view_step (.hold hbefore) hother ?_ ?_ fun t => ?_
    · simp [hb, Core.spin_lock_stmt, spinlock_t.shared, Core.view]
    · simp [hb, Core.spin_lock_stmt, place, SpinLockPoint.place]
    · exact depth_same (by simp [hb, Core.spin_lock_stmt]) t
  | check =>
    have hlevels : (a.lock l).repeat.toNat = 0 := congrArg Lock.levels (h.shared hbefore rfl)
    have hrepeat : (a.lock l).repeat = 0 := UInt32.toNat_inj.mp hlevels
    have hb : b.toCore = a.pop_frame.push_frame (.spin_lock l .set) := by
      simpa [Core.spin_lock_stmt, hrepeat] using hb
    refine view_step (.check hbefore hlevels) hother ?_ ?_ fun t => ?_
    · simp [hb, Core.view]
    · simp [hb, place, SpinLockPoint.place]
    · exact depth_same (by simp [hb]) t
  | set =>
    refine view_step (.set hbefore) hother ?_ ?_ fun t => ?_
    · simp [hb, Core.spin_lock_stmt, spinlock_t.shared, Core.view]
    · simp [hb, Core.spin_lock_stmt, hstack, place]
    · simpa [hb, Core.spin_lock_stmt, Core.view] using hlocked t
  | again =>
    have hlevels : (a.lock l).repeat.toNat = depth l a.current a.log :=
      congrArg Lock.levels (h.shared hbefore rfl)
    have hfits : Place.again.Fits (2 ^ 32) (depth l a.current a.log) := by
      have hfits := h.inv.fits a.current
      rwa [show (a.view l).place a.current = .again from hbefore] at hfits
    refine view_step (.again hbefore) hother ?_ ?_ fun t => ?_
    · have hadd : ((a.lock l).repeat + 1).toNat = (a.lock l).repeat.toNat + 1 := by
        rw [UInt32.toNat_add, UInt32.toNat_one, Nat.mod_eq_of_lt (hlevels ▸ hfits.2)]
      simp [hb, Core.spin_lock_stmt, spinlock_t.shared, Core.view, hadd]
    · simp [hb, Core.spin_lock_stmt, hstack, place]
    · simpa [hb, Core.spin_lock_stmt, Core.view] using hlocked t

/-- The statements of `spin_unlock` outside of the mutex. -/
theorem Spinning.spin_unlock (h : a.Spinning l) {point : SpinUnlockPoint} (hpoint : point ≠ .release)
    (hstack : a.stack a.current = [.spin_unlock l point])
    (hb : b.toCore = a.pop_frame.spin_unlock_stmt l point) :
    ReentrantLock.Step (2 ^ 32) a.current (a.view l) (b.view l) := by
  have hbefore : place l (a.stack a.current) = point.place := by simp [hstack, place]
  have hother : ∀ t, t ≠ a.current → b.stack t = a.stack t :=
    fun t ht => by rw [hb, Core.spin_unlock_stmt_stack_of_ne _ _ (by simpa using ht)]; simp [ht]
  cases point with
  | release => exact absurd rfl hpoint
  | check_holder =>
    have hholder : (a.lock l).holder = some a.current := congrArg Lock.holder (h.shared hbefore rfl)
    have hb : b.toCore = a.pop_frame.push_frame (.spin_unlock l .test) := by
      simpa [Core.spin_unlock_stmt, hholder] using hb
    refine view_step (.check_holder hbefore hholder) hother ?_ ?_ fun t => ?_
    · simp [hb, Core.view]
    · simp [hb, place, SpinUnlockPoint.place]
    · exact depth_same (by simp [hb]) t
  | test =>
    by_cases hrepeat : (a.lock l).repeat > 1
    · have hb : b.toCore = a.pop_frame.push_frame (.spin_unlock l .drop) := by
        simpa [Core.spin_unlock_stmt, hrepeat] using hb
      refine view_step (.test_many hbefore (UInt32.lt_iff_toNat_lt.mp hrepeat)) hother ?_ ?_ fun t => ?_
      · simp [hb, Core.view]
      · simp [hb, place, SpinUnlockPoint.place]
      · exact depth_same (by simp [hb]) t
    · have hb : b.toCore = a.pop_frame.push_frame (.spin_unlock l .check_repeat) := by
        simpa [Core.spin_unlock_stmt, hrepeat] using hb
      have hle : (a.lock l).repeat.toNat ≤ 1 :=
        Nat.le_of_not_lt fun hlt => hrepeat (UInt32.lt_iff_toNat_lt.mpr hlt)
      refine view_step (.test_last hbefore hle) hother ?_ ?_ fun t => ?_
      · simp [hb, Core.view]
      · simp [hb, place, SpinUnlockPoint.place]
      · exact depth_same (by simp [hb]) t
  | drop =>
    have hlevels : (a.lock l).repeat.toNat = depth l a.current a.log :=
      congrArg Lock.levels (h.shared hbefore rfl)
    have hfits : 2 ≤ depth l a.current a.log := by
      have hfits := h.inv.fits a.current
      rwa [show (a.view l).place a.current = .drop from hbefore] at hfits
    refine view_step (.drop hbefore) hother ?_ ?_ fun t => ?_
    · have hsub : ((a.lock l).repeat - 1).toNat = (a.lock l).repeat.toNat - 1 := by
        refine UInt32.toNat_sub_of_le _ _ (UInt32.le_iff_toNat_le.mpr ?_)
        rw [hlevels, UInt32.toNat_one]
        omega
      simp [hb, Core.spin_unlock_stmt, spinlock_t.shared, Core.view, hsub]
    · simp [hb, Core.spin_unlock_stmt, hstack, place]
    · by_cases ht : t = a.current
      · simp [hb, Core.spin_unlock_stmt, depth, Core.view, ht]
      · simp [hb, Core.spin_unlock_stmt, depth, ht, Ne.symm ht]
  | check_repeat =>
    have hlevels : (a.lock l).repeat.toNat = depth l a.current a.log :=
      congrArg Lock.levels (h.shared hbefore rfl)
    have hfits : depth l a.current a.log = 1 := by
      have hfits := h.inv.fits a.current
      rwa [show (a.view l).place a.current = .check_last from hbefore] at hfits
    rw [hfits] at hlevels
    have hrepeat : (a.lock l).repeat = 1 := UInt32.toNat_inj.mp hlevels
    have hb : b.toCore = a.pop_frame.push_frame (.spin_unlock l .clear_holder) := by
      simpa [Core.spin_unlock_stmt, hrepeat] using hb
    refine view_step (.check_last hbefore hlevels) hother ?_ ?_ fun t => ?_
    · simp [hb, Core.view]
    · simp [hb, place, SpinUnlockPoint.place]
    · exact depth_same (by simp [hb]) t
  | clear_holder =>
    refine view_step (.clear_holder hbefore) hother ?_ ?_ fun t => ?_
    · simp [hb, Core.spin_unlock_stmt, spinlock_t.shared, Core.view]
    · simp [hb, Core.spin_unlock_stmt, place, SpinUnlockPoint.place]
    · exact depth_same (by simp [hb, Core.spin_unlock_stmt]) t
  | clear_repeat =>
    refine view_step (.clear_levels hbefore) hother ?_ ?_ fun t => ?_
    · simp [hb, Core.spin_unlock_stmt, spinlock_t.shared, Core.view]
    · simp [hb, Core.spin_unlock_stmt, place, SpinUnlockPoint.place]
    · exact depth_same (by simp [hb, Core.spin_unlock_stmt]) t

/-- The kernel code of a spin lock follows the statements of the protocol. -/
theorem Act.view_step {search : Core τ ℓ → Option τ} (hact : a.Act op calls b)
    (hnested : Nested l a.toCore search op) (hshaped : Shaped (a.stack a.current))
    (h : a.Spinning l) :
    b.view l = a.view l ∨ ReentrantLock.Step (2 ^ 32) a.current (a.view l) (b.view l) := by
  have hother := fun t (ht : t ≠ a.current) => hact.stack_of_ne ht
  have hclock : ∀ t, depth l t a.clock.log = depth l t a.log := by
    intro t
    rw [clock_log]
    exact depth_append (_ :: _) (by simp)
  cases hact with
  | tick hIF hticks => exact .inl (view_eq (by simp) (by simp [place]) hclock hother)
  | expire hIF hticks => exact .inl (view_eq (by simp) (by simp [place]) hclock hother)
  | set_interrupt_state hstack hboot => exact .inl (view_eq rfl rfl (fun _ => rfl) hother)
  | yield hthread => exact .inl (view_eq rfl (by simp [place]) (fun _ => rfl) hother)
  | sleep hthread hfree => exact .inl (view_eq rfl (by simp [place, Core.doze]) (fun _ => rfl) hother)
  | sleep_refused hthread hlinked => exact .inl (view_eq rfl (by simp [place]) (fun _ => rfl) hother)
  | test_block hthread hgate hfree => exact .inl (view_eq rfl (by simp [place]) (fun _ => rfl) hother)
  | test_refused hthread hgate hlinked => exact .inl (view_eq rfl (by simp [place]) (fun _ => rfl) hother)
  | test_wake hthread hgate => exact .inl (view_eq rfl (by simp [place]) (fun _ => rfl) hother)
  | iret hstack =>
    exact .inl (view_eq rfl (by simp [place, hstack]) (fun _ => rfl) hother)
  | unlock_return hstack =>
    exact .inl (view_eq rfl (by simp [place, hstack]) (fun _ => rfl) hother)
  | take hentry hvalue => exact h.take hentry hnested hvalue rfl hother
  | @wait _ m _ _ c hentry hvalue hfree =>
    refine .inl (view_eq ?_ ?_ (fun t => ?_) hother)
    · simp [Core.wait_mutex, hentry.frame]
    · simpa [Core.wait_mutex, hentry.frame] using hentry.place_wait hnested.not_lock
    · simp [Core.wait_mutex, depth, hentry.frame]
  | @wait_refused _ m _ _ c hentry hvalue hlinked =>
    refine .inl (view_eq ?_ ?_ (fun t => ?_) hother)
    · simp [hentry.frame]
    · simpa [place, hentry.frame] using hentry.place_wait hnested.not_lock
    · simp [depth, hentry.frame]
  | @release_refused _ m _ c hentry hvalue =>
    by_cases hm : m = l
    · subst hm
      simp [h.held hentry hnested] at hvalue
    · obtain ⟨hplace, hdepth⟩ := hentry.view_of_ne hm
      refine .inl (view_eq ?_ ?_ hdepth hother)
      · simp [hentry.frame]
      · simpa [place, hentry.frame] using hplace
  | @release _ m _ c hentry hvalue hempty =>
    refine h.release hentry hnested hshaped hvalue ?_ ?_ (fun t => ?_) hother
    · simp [Core.free_mutex, hentry.frame]
    · simp [Core.free_mutex]
    · simp [Core.free_mutex, depth]
  | @handoff _ m _ c waiters t hentry hvalue hlast =>
    refine h.release hentry hnested hshaped hvalue ?_ ?_ (fun t => ?_) hother
    · simp [Core.free_mutex, hentry.frame]
    · simp [Core.free_mutex, place, hentry.frame]
    · simp [Core.free_mutex, depth]
  | @call_spin_lock l' hthread =>
    refine view_call (p := .test) hthread rfl (fun hl hout => ?_) rfl hother
    subst hl
    exact .call_lock hout (hnested.room rfl)
  | @call_spin_unlock l' hthread =>
    refine view_call (p := .check_holder) hthread rfl (fun hl hout => ?_) rfl hother
    subst hl
    exact .call_unlock hout (hnested.taken rfl)
  | @spin_lock l' point rest hstack hpoint =>
    obtain rfl := (hstack ▸ hshaped).spin_lock_rest
    by_cases hl : l' = l
    · subst hl
      exact .inr (h.spin_lock hpoint hstack rfl)
    · obtain ⟨hlock, hplace, hdepth⟩ := a.pop_frame.spin_lock_stmt_of_ne point hl
      exact .inl (view_eq hlock (hplace.trans (by simp [hstack, place, hl])) hdepth hother)
  | @spin_unlock l' point rest hstack hpoint =>
    obtain rfl := (hstack ▸ hshaped).spin_unlock_rest
    by_cases hl : l' = l
    · subst hl
      exact .inr (h.spin_unlock hpoint hstack rfl)
    · obtain ⟨hlock, hplace, hdepth⟩ := a.pop_frame.spin_unlock_stmt_of_ne point hl
      exact .inl (view_eq hlock (hplace.trans (by simp [hstack, place, hl])) hdepth hother)

theorem Act.spinning {search : Core τ ℓ → Option τ} (hact : a.Act op calls b)
    (hnested : Nested l a.toCore search op) (hshaped : Shaped (a.stack a.current))
    (h : a.Spinning l) : b.Spinning l := by
  refine ⟨?_, fun t intr rest hstack => ?_⟩
  · rcases hact.view_step hnested hshaped h with hview | hstep
    · rw [hview]
      exact h.inv
    · exact h.inv.step hstep
  · by_cases ht : t = a.current
    · subst ht
      obtain ⟨-, -, again, c, hentry, rfl⟩ := hact.enters hshaped hstack
      cases hentry with
      | call hthread => exact absurd rfl hnested.not_lock
      | spin hspin => simp [hspin, (hspin ▸ hshaped).spin_lock_rest]
      | retry hretry => simpa [hretry] using h.waits _ _ _ hretry
    · rw [hact.stack_of_ne ht] at hstack
      exact h.waits t intr rest hstack

theorem Step.spinning {search : Core τ ℓ → Option τ} (hstep : a.Step search op b)
    (hnested : Nested l a.toCore search op) (hshaped : Shaped (a.stack a.current))
    (h : a.Spinning l) : b.Spinning l := by
  cases hstep with
  | stay hact => exact hact.spinning hnested hshaped h
  | @switch b next hact hsearch =>
    have hb := hact.spinning hnested hshaped h
    have hview : Core.view l (b.dispatch next) = b.view l := by simp [Core.view, depth]
    exact ⟨hview ▸ hb.inv, by simpa using hb.waits⟩

theorem Booted.spinning {idle : τ} {tasks : List (τ × u32)} (h : a.Booted idle tasks) : a.Spinning l := by
  refine ⟨⟨fun t => ?_, fun t lock howned => ?_, fun t u ht => ?_, fun _ => ?_⟩, fun t => ?_⟩
  all_goals simp_all [Core.view, h.stack, h.log, h.lock, place, depth, Place.Fits, Place.owned,
    spinlock_t.shared, Lock.free]

end Sched

end onix
