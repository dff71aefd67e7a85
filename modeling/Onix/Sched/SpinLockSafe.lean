import Onix.Sched.SpinLockCalls

open ReentrantLock

namespace onix

variable {τ ℓ : Type} [DecidableEq τ] [DecidableEq ℓ]

/-- The frames in which a task runs `spin_lock`, `spin_unlock` or `mutex_lock` on a lock. -/
def Frame.Of (l : ℓ) : Frame ℓ → Prop
  | .spin_lock l' _ => l' = l
  | .spin_unlock l' _ => l' = l
  | .mutex_lock m _ => m = l
  | _ => False

/-- The frames that hold nothing but the interrupt flag to go back to. -/
def Frame.Pops : Frame ℓ → Prop
  | .iret _ => True
  | .mutex_unlock _ => True
  | _ => False

/-- How many steps a frame takes at most until a call of `spin_unlock` has returned. -/
def Frame.left : Frame ℓ → Nat
  | .iret _ => 1
  | .mutex_unlock _ => 1
  | .spin_unlock _ point => point.left
  | _ => 0

def steps_left (frames : List (Frame ℓ)) : Nat := (frames.map Frame.left).sum

omit [DecidableEq τ] in
/-- On top of the frames of a task in the code of a lock is a frame of the lock, or an interrupt. -/
theorem Shaped.top_of_place {l : ℓ} {f : Frame ℓ} {rest : List (Frame ℓ)} (h : Shaped (f :: rest))
    (hplace : place l (f :: rest) ≠ .out) : f.Of l ∨ f.Pops ∨ ∃ e, f = .spin e := by
  cases f with
  | spin_lock l' point =>
    obtain rfl := h.spin_lock_rest
    by_contra hf
    simp_all [Frame.Of, place]
  | spin_unlock l' point =>
    obtain rfl := h.spin_unlock_rest
    by_contra hf
    simp_all [Frame.Of, place]
  | mutex_lock m intr =>
    by_contra hf
    rcases h.mutex_lock_rest with rfl | rfl <;> simp_all [Frame.Of, place]
  | mutex_unlock intr =>
    obtain rfl := h.mutex_unlock_rest
    exact absurd rfl hplace
  | iret IF => exact .inr (.inl trivial)
  | spin e => exact .inr (.inr ⟨e, rfl⟩)

omit [DecidableEq τ] in
/-- A task that gives back a level has a frame of `spin_unlock`. -/
theorem spin_unlock_mem_of_leaving {l : ℓ} {frames : List (Frame ℓ)} (h : (place l frames).Leaving) :
    ∃ point, .spin_unlock l point ∈ frames := by
  induction frames with
  | nil => exact h.elim
  | cons f rest ih =>
    have hrest : (place l rest).Leaving → ∃ point, .spin_unlock l point ∈ f :: rest := fun h =>
      (ih h).imp fun point hmem => List.mem_cons_of_mem _ hmem
    cases f with
    | spin_lock l' point =>
      by_cases hl : l' = l
      · subst hl
        simp only [place, if_true] at h
        cases point <;> exact h.elim
      · exact hrest (by simpa [place, hl] using h)
    | spin_unlock l' point =>
      by_cases hl : l' = l
      · exact ⟨point, by simp [hl]⟩
      · exact hrest (by simpa [place, hl] using h)
    | mutex_lock m intr =>
      by_cases hm : m = l
      · simp [place, hm, Place.Leaving] at h
      · exact hrest (by simpa [place, hm] using h)
    | _ => exact hrest h

namespace Sched

variable {a b : Sched τ ℓ} {op : Op ℓ} {calls : Bool} {l : ℓ}

/-- A task in the code of a lock that is in no list does not fail an assertion. -/
theorem Act.alive {search : Core τ ℓ → Option τ} (hact : a.Act .resume calls b)
    (hnested : Nested l a.toCore search .resume) (hshaped : Shaped (a.stack a.current))
    (hfree : a.Free a.current) (h : a.Spinning l) {f : Frame ℓ} {rest : List (Frame ℓ)}
    (hstack : a.stack a.current = f :: rest) (hf : f.Of l) (e : Failure) :
    Frame.spin e ∉ b.stack a.current := by
  cases hact with
  | take hentry hvalue =>
    rcases hentry.stack hshaped with hrest | hrest <;> simp [Core.take_mutex, hrest]
  | wait hentry hvalue hfree =>
    rcases hentry.stack hshaped with hrest | hrest <;> simp [Core.wait_mutex, hentry.frame, hrest]
  | wait_refused hentry hvalue hlinked => exact absurd hfree hlinked
  | @release_refused _ m _ c hentry hvalue =>
    cases hentry with
    | spin hspin =>
      obtain ⟨rfl, -⟩ := List.cons.inj (hspin.symm.trans hstack)
      obtain rfl : m = l := hf
      have hheld := congrArg Lock.held (h.shared (p := .release) (by simp [hspin, place, SpinUnlockPoint.place]) rfl)
      simp [spinlock_t.shared, hvalue] at hheld
  | release hentry hvalue hempty => simp [Core.free_mutex, hentry.stack hshaped]
  | handoff hentry hvalue hlast => simp [Core.free_mutex, hentry.frame, hentry.stack hshaped]
  | iret hiret =>
    obtain ⟨rfl, -⟩ := List.cons.inj (hiret.symm.trans hstack)
    exact hf.elim
  | unlock_return hunlock =>
    obtain ⟨rfl, -⟩ := List.cons.inj (hunlock.symm.trans hstack)
    exact hf.elim
  | @spin_lock l' point rest' hspin hpoint =>
    obtain ⟨rfl, rfl⟩ := List.cons.inj (hspin.symm.trans hstack)
    obtain rfl : l' = l := hf
    obtain rfl := (hspin ▸ hshaped).spin_lock_rest
    have hplace : place l' (a.stack a.current) = point.place := by simp [hspin, place]
    cases point with
    | acquire => exact absurd rfl hpoint
    | test =>
      by_cases hholder : (a.lock l').holder = some a.current <;>
        simp [Core.spin_lock_stmt, hspin, hholder]
    | check =>
      have hrepeat : (a.lock l').repeat = 0 :=
        UInt32.toNat_inj.mp (congrArg Lock.levels (h.shared hplace rfl))
      simp [Core.spin_lock_stmt, hspin, hrepeat]
    | _ => simp [Core.spin_lock_stmt, hspin]
  | @spin_unlock l' point rest' hspin hpoint =>
    obtain ⟨rfl, rfl⟩ := List.cons.inj (hspin.symm.trans hstack)
    obtain rfl : l' = l := hf
    obtain rfl := (hspin ▸ hshaped).spin_unlock_rest
    have hplace : place l' (a.stack a.current) = point.place := by simp [hspin, place]
    cases point with
    | release => exact absurd rfl hpoint
    | check_holder =>
      have hholder : (a.lock l').holder = some a.current :=
        congrArg Lock.holder (h.shared hplace rfl)
      simp [Core.spin_unlock_stmt, hspin, hholder]
    | test =>
      by_cases hrepeat : (a.lock l').repeat > 1 <;> simp [Core.spin_unlock_stmt, hspin, hrepeat]
    | check_repeat =>
      have hlevels : (a.lock l').repeat.toNat = depth l' a.current a.log :=
        congrArg Lock.levels (h.shared hplace rfl)
      have hfits : depth l' a.current a.log = 1 := h.fits_at hplace
      have hrepeat : (a.lock l').repeat = 1 := UInt32.toNat_inj.mp (hlevels.trans hfits)
      simp [Core.spin_unlock_stmt, hspin, hrepeat]
    | _ => simp [Core.spin_unlock_stmt, hspin]

/-- An interrupt and `mutex_unlock` end with their frame. -/
theorem Act.pops (hact : a.Act .resume calls b) {f : Frame ℓ} {rest : List (Frame ℓ)}
    (hstack : a.stack a.current = f :: rest) (hf : f.Pops) : b.stack a.current = rest := by
  have htop : ∀ {f' rest'}, a.stack a.current = f' :: rest' → f'.Pops := fun h => by
    obtain ⟨rfl, -⟩ := List.cons.inj (hstack.symm.trans h)
    exact hf
  have hlock : ∀ {m intr again c}, ¬ a.LockEntry .resume m intr again c := by
    intro m intr again c hentry
    cases hentry with
    | spin hspin => exact htop hspin
    | retry hretry => exact htop hretry
  have hunlock : ∀ {m intr c}, ¬ a.UnlockEntry .resume m intr c := by
    intro m intr c hentry
    cases hentry with
    | spin hspin => exact htop hspin
  cases hact with
  | take hentry hvalue => exact absurd hentry hlock
  | wait hentry hvalue hfree => exact absurd hentry hlock
  | wait_refused hentry hvalue hlinked => exact absurd hentry hlock
  | release_refused hentry hvalue => exact absurd hentry hunlock
  | release hentry hvalue hempty => exact absurd hentry hunlock
  | handoff hentry hvalue hlast => exact absurd hentry hunlock
  | iret hiret => simp [hstack]
  | unlock_return hreturn => simp [hstack]
  | spin_lock hspin hpoint => exact (htop hspin).elim
  | spin_unlock hspin hpoint => exact (htop hspin).elim

/-- No assertion fails in the code of a lock. -/
theorem Act.alive_current {search : Core τ ℓ → Option τ} (hact : a.Act op calls b) (hwf : a.WF)
    (hnested : Nested l a.toCore search op) (hregular : a.Regular) (hshaped : Shaped (a.stack a.current))
    (h : a.Spinning l) (hplace : place l (a.stack a.current) ≠ .out)
    (halive : ∀ e, .spin e ∉ a.stack a.current) (e : Failure) : .spin e ∉ b.stack a.current := by
  obtain ⟨f, rest, hstack⟩ : ∃ f rest, a.stack a.current = f :: rest :=
    List.exists_cons_of_ne_nil fun hnil => hplace (by rw [hnil]; rfl)
  cases op with
  | clock =>
    obtain ⟨-, rfl, -⟩ := hact.of_clock
    simpa using halive e
  | call call => exact absurd hact.call_stack (by simp [hstack])
  | resume =>
    rcases (hstack ▸ hshaped).top_of_place (hstack ▸ hplace) with hof | hpops | ⟨e', rfl⟩
    · have hfree : a.Free a.current := hregular.free (hwf.boot.resolve_right (by simp [hstack]))
      exact hact.alive hnested hshaped hfree h hstack hof e
    · rw [hact.pops hstack hpops]
      exact fun hmem => halive e (by simp [hstack, hmem])
    · exact absurd (by simp [hstack]) (halive e')

/-- Behind a statement of `spin_unlock` fewer are left. -/
theorem Act.left_lt_of_spin_unlock (hact : a.Act .resume calls b) {point : SpinUnlockPoint}
    (hstack : a.stack a.current = [.spin_unlock l point]) (hshaped : Shaped (a.stack a.current))
    (hbehind : ∀ e, .spin e ∉ b.stack a.current) :
    steps_left (b.stack a.current) < steps_left (a.stack a.current) := by
  have hleft : steps_left (a.stack a.current) = point.left := by simp [hstack, steps_left, Frame.left]
  have hlock : ∀ {m intr again c}, ¬ a.LockEntry .resume m intr again c := by
    intro m intr again c hentry
    cases hentry with
    | spin hspin => simp [hstack] at hspin
    | retry hretry => simp [hstack] at hretry
  have hunlock : ∀ {m intr c}, a.UnlockEntry .resume m intr c → point = .release := by
    intro m intr c hentry
    cases hentry with
    | spin hspin =>
      rw [hstack] at hspin
      simp_all
  rw [hleft]
  cases hact with
  | take hentry hvalue => exact absurd hentry hlock
  | wait hentry hvalue hfree => exact absurd hentry hlock
  | wait_refused hentry hvalue hlinked => exact absurd hentry hlock
  | release_refused hentry hvalue => exact absurd (by simp [hentry.frame]) (hbehind (.assertion .mutex_unlock_held))
  | release hentry hvalue hempty =>
    obtain rfl := hunlock hentry
    simp [Core.free_mutex, hentry.stack hshaped, steps_left, SpinUnlockPoint.left]
  | handoff hentry hvalue hlast =>
    obtain rfl := hunlock hentry
    simp [Core.free_mutex, hentry.frame, hentry.stack hshaped, steps_left, Frame.left, SpinUnlockPoint.left]
  | iret hiret => simp [hstack] at hiret
  | unlock_return hreturn => simp [hstack] at hreturn
  | spin_lock hspin hpoint => simp [hstack] at hspin
  | @spin_unlock l' point' rest hspin hpoint =>
    obtain ⟨⟨rfl, rfl⟩, -⟩ : (l = l' ∧ point = point') ∧ _ := by simpa [hstack] using hspin
    rcases Core.spin_unlock_stmt_stack (c := a.pop_frame) (by simp [hstack]) l point with h | ⟨next, hlt, h⟩ | ⟨e, h⟩
    · replace h : (a.pop_frame.spin_unlock_stmt l point).stack a.current = [] := h
      cases point <;> simp [h, steps_left, SpinUnlockPoint.left]
    · replace h : (a.pop_frame.spin_unlock_stmt l point).stack a.current = [.spin_unlock l next] := h
      simpa [h, steps_left, Frame.left] using hlt
    · replace h : (a.pop_frame.spin_unlock_stmt l point).stack a.current = [.spin e] := h
      exact absurd (by simp [h]) (hbehind e)

/-- A task in `spin_unlock` has fewer steps left behind each of them. -/
theorem Act.left_lt (hact : a.Act .resume calls b) (hshaped : Shaped (a.stack a.current))
    (hleaving : (place l (a.stack a.current)).Leaving) (halive : ∀ e, .spin e ∉ a.stack a.current)
    (hbehind : ∀ e, .spin e ∉ b.stack a.current) :
    steps_left (b.stack a.current) < steps_left (a.stack a.current) := by
  obtain ⟨f, rest, hstack⟩ : ∃ f rest, a.stack a.current = f :: rest :=
    List.exists_cons_of_ne_nil fun hnil => by
      rw [hnil] at hleaving
      exact hleaving
  have hplace : place l (f :: rest) ≠ .out := fun hout => by
    rw [hstack, hout] at hleaving
    exact hleaving
  rw [hstack] at hleaving
  rcases (hstack ▸ hshaped).top_of_place hplace with hof | hpops | ⟨e, rfl⟩
  · cases f with
    | spin_lock l' point =>
      obtain rfl : l' = l := hof
      exact absurd hleaving (by cases point <;> simp [place, SpinLockPoint.place, Place.Leaving])
    | mutex_lock m intr =>
      obtain rfl : m = l := hof
      exact absurd hleaving (by simp [place, Place.Leaving])
    | spin_unlock l' point =>
      obtain rfl := (hstack ▸ hshaped).spin_unlock_rest
      exact hact.left_lt_of_spin_unlock hstack hshaped hbehind
    | _ => exact hof.elim
  · rw [hact.pops hstack hpops, hstack]
    cases f with
    | iret IF => simp [steps_left, Frame.left]
    | mutex_unlock intr => simp [steps_left, Frame.left]
    | _ => exact hpops.elim
  · exact absurd (by simp [hstack]) (halive e)

end Sched

namespace Sched

variable {a b : Sched τ ℓ} {op : Op ℓ} {calls : Bool} {l : ℓ} {search : Core τ ℓ → Option τ}

/-- A task that a turn leaves in the code of the lock was in it before, or is at the start of a call. -/
theorem Turn.alive (h : Turn l op a b)
    (halive : place l (a.stack a.current) ≠ .out → ∀ e, .spin e ∉ b.stack a.current)
    (hplace : place l (b.stack a.current) ≠ .out) (e : Failure) : .spin e ∉ b.stack a.current := by
  cases h with
  | calls_lock hop hbefore hstack hlock hlog => simp [hstack]
  | calls_unlock hop hbefore hstack hlock hlog => simp [hstack]
  | stays hcalls hout hleaving hdepth hheld => exact halive (mt hout.mpr hplace) e
  | locked hcalls hbefore hstack hdepth hheld => exact halive hbefore.1 e
  | dropped hcalls hbefore hstack hdepth hlock => simp [hstack]
  | released hcalls hbefore hstack hdepth hheld hlock => exact halive (by simp [hbefore]) e

/-- With the frame of `mutex_unlock` alone a task can only return. -/
theorem Act.returns_unlock (hact : a.Act op calls b) (hwf : a.WF) {intr : Bool}
    (hstack : a.stack a.current = [.mutex_unlock intr]) : b.stack a.current = [] := by
  cases op with
  | clock => exact absurd hact.of_clock.1 (by simp [hwf.intr _ _ hstack trivial])
  | call call => simp [hact.call_stack] at hstack
  | resume => exact hact.pops hstack trivial

theorem Act.depth_of_ne (hact : a.Act op calls b) (hnested : Nested l a.toCore search op)
    (hshaped : Shaped (a.stack a.current)) (h : a.Spinning l) {t : τ} (ht : t ≠ a.current) :
    depth l t b.log = depth l t a.log := by
  rcases hact.view_step hnested hshaped h with hview | hstep
  · exact congrFun (congrArg State.depth hview) t
  · exact hstep.depth_of_ne ht

/-- The dispatch behind an act changes no stack, no lock and no depth. -/
theorem Step.act (hstep : a.Step search op b) (l : ℓ) : ∃ calls c, a.Act op calls c ∧ b.stack = c.stack ∧
    b.lock = c.lock ∧ ∀ t, depth l t b.log = depth l t c.log := by
  cases hstep with
  | stay hact => exact ⟨_, _, hact, rfl, rfl, fun _ => rfl⟩
  | switch hact hsearch => exact ⟨_, _, hact, by simp, by simp, fun t => by simp [depth]⟩

end Sched

/-- The abstract kernel under the observer of the calls on a lock. -/
structure Observed (l : ℓ) (w : Watched τ ℓ) (a : Sched τ ℓ) : Prop where
  holds : Holds (fun a => a.Regular ∧ a.Framed ∧ a.Spinning l) w.kernel a
  watches : ∀ t, Watches l (a.stack t) (depth l t a.log) (w.pending t) (w.depth t)

/-- A task that does not spin goes on where its top frame says. -/
theorem step_resume_isSome {search : Core τ ℓ → Option τ} {s : Kernel τ ℓ} {f : Frame ℓ} {rest : List (Frame ℓ)}
    (hstack : s.stack s.current = f :: rest) (hf : ∀ e, f ≠ .spin e) : (step search .resume s).isSome := by
  cases f with
  | spin e => exact absurd rfl (hf e)
  | _ => simp [step, hstack]

namespace Observed

variable {l : ℓ} {w : Watched τ ℓ} {a : Sched τ ℓ} {search : Core τ ℓ → Option τ} {op : Op ℓ}
  {s' : Kernel τ ℓ}

theorem core (h : Observed l w a) : w.kernel.toCore = a.toCore := h.holds.refines.core

/-- In the code of a lock no assertion has failed. -/
theorem alive (h : Observed l w a) {t : τ} (hplace : place l (a.stack t) ≠ .out) (e : Failure) :
    .spin e ∉ a.stack t := by
  have hw := h.watches t
  generalize w.pending t = pending at hw
  generalize w.depth t = levels at hw
  cases hw with
  | out hout => exact absurd hout hplace
  | locking _ _ halive => exact halive e
  | unlocking _ halive => exact halive e
  | released hframes _ => simp [hframes]

/-- What the observer asks of a step is what the kernel asks of it. -/
theorem nested (h : Observed l w a) (hpaired : w.Paired l search op) {b : Sched τ ℓ} {calls : Bool}
    (hact : a.Act op calls b) : Nested l a.toCore search op := by
  have hcurrent : w.kernel.current = a.current := congrArg Core.current h.core
  have hlevels : ∀ {call}, op = .call call → w.depth w.kernel.current = depth l a.current a.log := by
    rintro call rfl
    rw [hcurrent]
    exact (hact.call_stack ▸ h.watches a.current).of_nil.2
  refine ⟨h.core ▸ hpaired.toDisciplined, hpaired.not_lock, hpaired.not_unlock, fun hop => ?_, fun hop => ?_⟩
  · rw [← hlevels hop]
    exact hpaired.room hop
  · rw [← hlevels hop]
    exact hpaired.taken hop

/-- A step under the observer is an act of the abstract kernel, and takes the running task one turn
further in the code of the lock. -/
theorem step (h : Observed l w a) (hpaired : w.Paired l search op)
    (hstep : onix.step search op w.kernel = some s') :
    ∃ calls b b', a.Act op calls b ∧ a.WF ∧ Sched.Turn l op a b ∧ s'.stack = b.stack ∧ s'.lock = b.lock ∧
      (place l (a.stack a.current) ≠ .out → ∀ e, .spin e ∉ b.stack a.current) ∧
        Observed l (w.watch l op s') b' := by
  obtain ⟨hregular, hframed, hspinning⟩ := h.holds.inv
  have hcurrent : w.kernel.current = a.current := congrArg Core.current h.core
  have hshaped := hframed.shaped a.current
  obtain ⟨hwf, b', hab, href, hwf'⟩ := h.holds.step hpaired.sound hstep
  obtain ⟨calls, b, hact, hstack, hlock, hdepth⟩ := hab.act l
  have hnested := h.nested hpaired hact
  have halive := fun hplace =>
    hact.alive_current hwf hnested hregular hshaped hspinning hplace (h.alive hplace)
  have hturn := hact.turn hnested hshaped hspinning halive
  have hstack' : s'.stack = b.stack := by rw [href.core, hstack]
  have hlock' : s'.lock = b.lock := by rw [href.core, hlock]
  refine ⟨calls, b, b', hact, hwf, hturn, hstack', hlock', halive,
    ⟨href, hwf', hab.regular hwf hnested.toDisciplined hregular, hab.framed hwf hregular hframed,
      hab.spinning hnested hshaped hspinning⟩, fun t => ?_⟩
  rw [hstack, hdepth]
  by_cases ht : t = a.current
  · subst ht
    exact hturn.watches h.core (by rw [hstack']) hlock' (hturn.alive halive) hspinning.fits_at
      (fun intr => hact.returns_unlock hwf) (h.watches _)
  · obtain ⟨hlevels, hpending⟩ := w.watch_of_ne l op s' (by rwa [hcurrent])
    rw [hlevels, hpending, hact.stack_of_ne ht, hact.depth_of_ne hnested hshaped hspinning ht]
    exact h.watches t

end Observed

/-- What a spin lock guarantees in a state, with the depths and the calls counted from outside. One task
at a time is inside, and then the lock names it and counts its levels. The mutex is released in the calls
of `spin_unlock` at depth 1 and in no others, and in each of these before it returns; a call of
`spin_unlock` at a greater depth takes one from `repeat` and nothing else. A call of `spin_unlock` can
always go on, and comes nearer to its return by each step of its task. No assertion fails in the calls. -/
structure SpinLockSafe (l : ℓ) (w : Watched τ ℓ) : Prop where
  exclusive : ∀ t u, w.Inside t → w.Inside u → t = u
  inside : ∀ t, w.Inside t → (w.kernel.lock l).holder = some t ∧ (w.kernel.lock l).mutex.value = true ∧
    (w.kernel.lock l).repeat.toNat = w.depth t
  released : ∀ search op s', w.Paired l search op → step search op w.kernel = some s' →
    (w.kernel.lock l).mutex.value = true → (s'.lock l).mutex.value = false →
      w.call l op = some .spin_unlock ∧ w.depth w.kernel.current = 1
  outermost : ∀ search op s', w.Paired l search op → step search op w.kernel = some s' →
    w.call l op = some .spin_unlock ∨ w.call l op = some .released → w.depth w.kernel.current = 1 →
      s'.stack w.kernel.current = [] → w.call_behind l op s' = some .released
  nested : ∀ search op s', w.Paired l search op → step search op w.kernel = some s' →
    w.call l op = some .spin_unlock → 2 ≤ w.depth w.kernel.current → s'.stack w.kernel.current = [] →
      s'.lock l = { w.kernel.lock l with «repeat» := (w.kernel.lock l).repeat - 1 }
  /-- the two ways out of the code of `spin_unlock` -/
  leaves : ∀ search op s' point rest, w.Paired l search op → step search op w.kernel = some s' →
    w.kernel.stack w.kernel.current = .spin_unlock l point :: rest →
    (∀ next, .spin_unlock l next ∉ s'.stack w.kernel.current) →
      point = .release ∧ w.depth w.kernel.current = 1 ∧ (w.kernel.lock l).mutex.value = true ∧
        s'.lock l = { holder := none, mutex := { value := false }, «repeat» := 0 } ∨
      point = .drop ∧ 2 ≤ w.depth w.kernel.current ∧
        s'.lock l = { w.kernel.lock l with «repeat» := (w.kernel.lock l).repeat - 1 }
  goes_on : w.pending w.kernel.current = some .spin_unlock ∨ w.pending w.kernel.current = some .released →
    ∀ search, (step search .resume w.kernel).isSome ∧ ∀ s', w.Paired l search .resume →
      step search .resume w.kernel = some s' →
        steps_left (s'.stack w.kernel.current) < steps_left (w.kernel.stack w.kernel.current)
  asserts : ∀ t, w.pending t ≠ none → ∀ e, .spin e ∉ w.kernel.stack t

namespace Observed

variable {l : ℓ} {w : Watched τ ℓ} {a : Sched τ ℓ} {search : Core τ ℓ → Option τ} {op : Op ℓ}
  {s' : Kernel τ ℓ}

theorem inside (h : Observed l w a) {t : τ} (ht : w.Inside t) : 1 ≤ depth l t a.log ∧
    (a.lock l).shared = { held := true, holder := some t, levels := w.depth t } := by
  obtain ⟨hdepth, hstays⟩ := ht
  have hw := h.watches t
  have hspinning := h.holds.inv.2.2
  have howned : ∀ d, 1 ≤ d → depth l t a.log = d → (2 ≤ d ∨ ¬ (place l (a.stack t)).Leaving) →
      (a.lock l).shared = { held := true, holder := some t, levels := d } := by
    rintro d hd rfl hleaving
    exact hspinning.inv.owner t _ (Place.owned_of_fits (hspinning.inv.fits t) hd hleaving)
  generalize hpending : w.pending t = pending at hw hstays
  generalize w.depth t = levels at hw hstays hdepth
  cases hw with
  | out hplace => exact ⟨hdepth, howned _ hdepth rfl (.inr (by simp [hplace, Place.Leaving]))⟩
  | locking hplace hout halive => exact ⟨hdepth, howned _ hdepth rfl (.inr hout)⟩
  | unlocking hleaving halive => exact ⟨hdepth, howned _ hdepth rfl (hstays.imp_right (by simp))⟩
  | released hframes hzero => simp at hstays

theorem current (h : Observed l w a) : w.kernel.current = a.current := congrArg Core.current h.core

/-- A task that gives back a level is in a call of `spin_unlock`. -/
theorem of_leaving (h : Observed l w a) (hno : op ≠ .call (.spin_lock l) ∧ op ≠ .call (.spin_unlock l))
    (hleaving : (place l (a.stack a.current)).Leaving) :
    w.call l op = some .spin_unlock ∧ w.depth w.kernel.current = depth l a.current a.log := by
  rw [w.call_of_ne hno, h.current]
  exact (h.watches a.current).of_leaving hleaving

/-- Only the last statement of an outermost `spin_unlock` releases the mutex. -/
theorem released (h : Observed l w a) (hpaired : w.Paired l search op)
    (hstep : onix.step search op w.kernel = some s') (hvalue : (w.kernel.lock l).mutex.value = true)
    (hfree : (s'.lock l).mutex.value = false) :
    w.call l op = some .spin_unlock ∧ w.depth w.kernel.current = 1 := by
  obtain ⟨calls, b, b', hact, hwf, hturn, hstack, hlock, halive, -⟩ := h.step hpaired hstep
  rw [congrArg Core.lock h.core] at hvalue
  rw [hlock] at hfree
  cases hturn with
  | calls_lock hop hbefore hbehind hsame hlog => simp [hsame, hvalue] at hfree
  | calls_unlock hop hbefore hbehind hsame hlog => simp [hsame, hvalue] at hfree
  | stays hno hout hleaving hdepth hheld => simp [hheld hvalue] at hfree
  | locked hno hbefore hnil hdepth hheld => simp [hheld, hvalue] at hfree
  | dropped hno hbefore hnil hdepth hsame => simp [hsame, hvalue] at hfree
  | released hno hbefore hbehind hdepth hheld hsame =>
    obtain ⟨hcall, hlevels⟩ := h.of_leaving hno (by rw [hbefore]; trivial)
    exact ⟨hcall, hlevels.trans (h.holds.inv.2.2.fits_at hbefore)⟩

/-- A call of `spin_unlock` returns in its statement for an inner level, or behind the release of the
mutex at the outermost one. -/
theorem returns (h : Observed l w a) (hpaired : w.Paired l search op)
    (hstep : onix.step search op w.kernel = some s')
    (hcall : w.call l op = some .spin_unlock ∨ w.call l op = some .released)
    (hnil : s'.stack w.kernel.current = []) :
    w.call_behind l op s' = some .released ∧ w.depth w.kernel.current = 1 ∨
      2 ≤ w.depth w.kernel.current ∧
        s'.lock l = { w.kernel.lock l with «repeat» := (w.kernel.lock l).repeat - 1 } := by
  obtain ⟨calls, b, b', hact, hwf, hturn, hstack, hlock, halive, -⟩ := h.step hpaired hstep
  have hlock' := congrArg Core.lock h.core
  rw [hstack, h.current] at hnil
  cases hturn with
  | calls_lock hop hbefore hbehind hsame hlog => simp [hnil] at hbehind
  | calls_unlock hop hbefore hbehind hsame hlog => simp [hnil] at hbehind
  | stays hno hout hleaving hdepth hheld =>
    have hbehind : place l (b.stack a.current) = .out := by simp [hnil, place]
    rw [w.call_of_ne hno, h.current] at hcall
    rw [h.current]
    rcases (h.watches a.current).of_out (hout.mp hbehind) with hnone | ⟨hreleased, hlevels⟩
    · simp [hnone] at hcall
    · have hcall : w.call l op = some .released := by rw [w.call_of_ne hno, h.current, hreleased]
      exact .inl ⟨w.call_behind_of_call hcall (.inl (by simp)), hlevels⟩
  | locked hno hbefore hnil hdepth hheld =>
    rw [w.call_of_ne hno, h.current, (h.watches a.current).of_locking hbefore.1 hbefore.2] at hcall
    simp at hcall
  | dropped hno hbefore hnil hdepth hsame =>
    obtain ⟨-, hlevels⟩ := h.of_leaving hno (by rw [hbefore]; trivial)
    have hfits : 2 ≤ depth l a.current a.log := h.holds.inv.2.2.fits_at hbefore
    exact .inr ⟨hlevels ▸ hfits, by rw [hlock, hlock', hsame]⟩
  | released hno hbefore hbehind hdepth hheld hsame =>
    obtain ⟨hcall, hlevels⟩ := h.of_leaving hno (by rw [hbefore]; trivial)
    exact .inl ⟨w.call_behind_released hcall (by rw [hlock', hheld]) (by rw [hlock, hsame]),
      hlevels.trans (h.holds.inv.2.2.fits_at hbefore)⟩

/-- The code of `spin_unlock` is left in its statement for an inner level, or by the release of the mutex
at the outermost one. -/
theorem leaves (h : Observed l w a) (hpaired : w.Paired l search op)
    (hstep : onix.step search op w.kernel = some s') {point : SpinUnlockPoint} {rest : List (Frame ℓ)}
    (hframe : w.kernel.stack w.kernel.current = .spin_unlock l point :: rest)
    (hout : ∀ next, .spin_unlock l next ∉ s'.stack w.kernel.current) :
    point = .release ∧ w.depth w.kernel.current = 1 ∧ (w.kernel.lock l).mutex.value = true ∧
        s'.lock l = { holder := none, mutex := { value := false }, «repeat» := 0 } ∨
      point = .drop ∧ 2 ≤ w.depth w.kernel.current ∧
        s'.lock l = { w.kernel.lock l with «repeat» := (w.kernel.lock l).repeat - 1 } := by
  obtain ⟨calls, b, b', hact, hwf, hturn, hstack, hlock, halive, -⟩ := h.step hpaired hstep
  have hlock' := congrArg Core.lock h.core
  rw [hstack, h.current] at hout
  rw [h.current, congrArg Core.stack h.core] at hframe
  have hplace : place l (a.stack a.current) = point.place := by simp [hframe, place]
  cases hturn with
  | calls_lock hop hbefore hbehind hsame hlog => simp [hframe] at hbefore
  | calls_unlock hop hbefore hbehind hsame hlog => simp [hframe] at hbefore
  | stays hno hout' hleaving hdepth hheld =>
    obtain ⟨next, hmem⟩ := spin_unlock_mem_of_leaving (hleaving.mpr (by rw [hplace]; exact point.leaving))
    exact absurd hmem (hout next)
  | locked hno hbefore hnil hdepth hheld => exact absurd (by rw [hplace]; exact point.leaving) hbefore.2
  | dropped hno hbefore hnil hdepth hsame =>
    obtain ⟨-, hlevels⟩ := h.of_leaving hno (by rw [hbefore]; trivial)
    have hfits : 2 ≤ depth l a.current a.log := h.holds.inv.2.2.fits_at hbefore
    refine .inr ⟨?_, hlevels ▸ hfits, by rw [hlock, hlock', hsame]⟩
    rw [hplace] at hbefore
    cases point <;> simp_all [SpinUnlockPoint.place]
  | released hno hbefore hbehind hdepth hheld hsame =>
    obtain ⟨-, hlevels⟩ := h.of_leaving hno (by rw [hbefore]; trivial)
    refine .inl ⟨?_, hlevels.trans (h.holds.inv.2.2.fits_at hbefore), by rw [hlock', hheld], by rw [hlock, hsame]⟩
    rw [hplace] at hbefore
    cases point <;> simp_all [SpinUnlockPoint.place]

/-- A call of `spin_unlock` can always go on, and then has fewer steps left. -/
theorem goes_on (h : Observed l w a) (hcall : w.pending w.kernel.current = some .spin_unlock ∨
      w.pending w.kernel.current = some .released) (search : Core τ ℓ → Option τ) :
    (onix.step search .resume w.kernel).isSome ∧ ∀ s', w.Paired l search .resume →
      onix.step search .resume w.kernel = some s' →
        steps_left (s'.stack w.kernel.current) < steps_left (w.kernel.stack w.kernel.current) := by
  rw [h.current] at hcall ⊢
  rw [congrArg Core.stack h.core]
  have hw : (place l (a.stack a.current)).Leaving ∨ ∃ intr, a.stack a.current = [.mutex_unlock intr] :=
    (h.watches a.current).of_unlock hcall
  refine ⟨?_, fun s' hpaired hstep => ?_⟩
  · rcases hw with hleaving | ⟨intr, hframes⟩
    · have hplace : place l (a.stack a.current) ≠ .out := fun hout => (hout ▸ hleaving).elim
      obtain ⟨f, rest, hstack⟩ : ∃ f rest, a.stack a.current = f :: rest :=
        List.exists_cons_of_ne_nil fun hnil => hplace (by rw [hnil]; rfl)
      have hstack' : w.kernel.stack w.kernel.current = f :: rest := by
        rw [h.current, congrArg Core.stack h.core, hstack]
      exact step_resume_isSome hstack' fun e he => h.alive hplace e (by simp [hstack, he])
    · have hstack' : w.kernel.stack w.kernel.current = [.mutex_unlock intr] := by
        rw [h.current, congrArg Core.stack h.core, hframes]
      exact step_resume_isSome hstack' (by simp)
  · obtain ⟨calls, b, b', hact, hwf, hturn, hstack, hlock, hbehind, -⟩ := h.step hpaired hstep
    rw [hstack]
    rcases hw with hleaving | ⟨intr, hframes⟩
    · have hplace : place l (a.stack a.current) ≠ .out := fun hout => (hout ▸ hleaving).elim
      exact hact.left_lt (h.holds.inv.2.1.shaped _) hleaving (h.alive hplace) (hbehind hplace)
    · rw [hact.returns_unlock hwf hframes, hframes]
      simp [steps_left, Frame.left]

end Observed

/-- The observer of every run of nested pairs has an abstract state to it. -/
theorem observed {idle : τ} {tasks : List (τ × u32)} {l : ℓ} {w : Watched τ ℓ}
    (hreach : Watched.Reachable l idle tasks w) : ∃ a, Observed l w a := by
  refine hreach.related (fun w hstarts => ?_) (fun w w' a hobserved hnext => ?_)
  · obtain ⟨a, href, hwf, hbooted⟩ := boots_refines hstarts.boots
    refine ⟨a, ⟨href, .inl hwf, hbooted.regular, hbooted.framed, hbooted.spinning⟩, fun t => ?_⟩
    rw [hbooted.stack, hbooted.log, hstarts.depth, hstarts.pending]
    exact .out rfl
  · obtain ⟨search, op, s', hpaired, hstep, rfl⟩ := hnext
    obtain ⟨calls, b, b', -, -, -, -, -, -, hobserved'⟩ := hobserved.step hpaired hstep
    exact ⟨b', hobserved'⟩

/-- Reentrant spin lock safety, for any number of tasks and any scheduling of them. -/
theorem spin_lock_safe {idle : τ} {tasks : List (τ × u32)} {l : ℓ} {w : Watched τ ℓ}
    (hreach : Watched.Reachable l idle tasks w) : SpinLockSafe l w := by
  obtain ⟨a, h⟩ := observed hreach
  have hlock := congrArg Core.lock h.core
  refine ⟨fun t u ht hu => ?_, fun t ht => ?_, fun search op s' hpaired hstep => h.released hpaired hstep,
    fun search op s' hpaired hstep hcall hdepth hnil => ?_,
    fun search op s' hpaired hstep hcall hdepth hnil => ?_,
    fun search op s' point rest hpaired hstep => h.leaves hpaired hstep, h.goes_on, fun t hpending e => ?_⟩
  · exact h.holds.inv.2.2.inv.exclusive (h.inside ht).1 (h.inside hu).1
  · have hshared := (h.inside ht).2
    rw [hlock]
    exact ⟨congrArg Lock.holder hshared, congrArg Lock.held hshared, congrArg Lock.levels hshared⟩
  · exact ((h.returns hpaired hstep hcall hnil).resolve_right fun h => by omega).1
  · exact ((h.returns hpaired hstep (.inl hcall) hnil).resolve_left fun h => by omega).2
  · rw [congrArg Core.stack h.core]
    rcases (h.watches t).of_pending hpending with hplace | ⟨intr, hframes⟩
    · exact h.alive hplace e
    · simp [hframes]

/-- The test of a run of nested pairs on a lock. -/
def nested_pairs (l : ℓ) (w : Watched τ ℓ) (op : Op ℓ) : Bool :=
  idle_yields w.kernel.toCore op && op ≠ .call (.mutex_lock l) && op ≠ .call (.mutex_unlock l) &&
    (op = .call (.spin_lock l) → w.depth w.kernel.current + 1 < 2 ^ 32) &&
    (op = .call (.spin_unlock l) → 1 ≤ w.depth w.kernel.current)

theorem nested_pairs_paired (l : ℓ) (w : Watched τ ℓ) (op : Op ℓ) (hok : nested_pairs l w op = true) :
    w.Paired l (task_search .TASK_READY) op := by
  simp only [nested_pairs, Bool.and_eq_true, decide_eq_true_eq] at hok
  obtain ⟨⟨⟨⟨hidle, hlock⟩, hunlock⟩, hroom⟩, htaken⟩ := hok
  exact ⟨(idle_yields_shipped _ op hidle).disciplined, hlock, hunlock, hroom, htaken⟩

/-- The kernel's own scheduler run through nested pairs on a lock, under the observer. -/
def watched_run (l : ℓ) : List (Op ℓ) → Watched τ ℓ → Option (Watched τ ℓ)
  | [], w => some w
  | op :: ops, w =>
    if nested_pairs l w op then
      (step (task_search .TASK_READY) op w.kernel).bind fun s => watched_run l ops (w.watch l op s)
    else none

theorem reachable_watched_run {idle : τ} {tasks : List (τ × u32)} {l : ℓ} {ops : List (Op ℓ)} {w w' : Watched τ ℓ}
    (hreach : Watched.Reachable l idle tasks w) (hrun : watched_run l ops w = some w') :
    Watched.Reachable l idle tasks w' := by
  induction ops generalizing w with
  | nil =>
    obtain rfl : w = w' := Option.some.inj hrun
    exact hreach
  | cons op ops ih =>
    rw [watched_run] at hrun
    split_ifs at hrun with hok
    obtain ⟨s, hstep, hrest⟩ := Option.bind_eq_some_iff.mp hrun
    exact ih (.step hreach ⟨_, op, s, nested_pairs_paired l w op hok, hstep, rfl⟩) hrest

/-- The init task takes a lock twice and yields to the test task, which waits for it; it gives the lock back
twice, and the test task takes it. -/
def two_levels : List (Op Nat) :=
  [enable, .clock, .call (.spin_lock 0), .resume, .resume, .resume, .resume, .resume,
    .call (.spin_lock 0), .resume, .resume, .call .yield, .call (.spin_lock 0), .resume, .resume] ++
  [.resume, .call (.spin_unlock 0), .resume, .resume, .resume] ++
  [.call (.spin_unlock 0), .resume, .resume, .resume, .resume, .resume, .resume] ++
  [.resume, .resume, .resume, .resume, .call .yield, .resume]

theorem exists_watched (ops : List (Op Nat)) (check : Watched Nat Nat → Bool)
    (hrun : (watched_run 0 ops ⟨shipped_kernel, fun _ => 0, fun _ => none⟩).any check = true) :
    ∃ w, Watched.Reachable 0 1 (shipped_tasks 2 3) w ∧ check w = true := by
  obtain ⟨w, hw, hcheck⟩ := Option.any_eq_true _ _ |>.mp hrun
  exact ⟨w, reachable_watched_run (.init ⟨boots_shipped_kernel, fun _ => rfl, fun _ => rfl⟩) hw, hcheck⟩

/-- The lock taken twice, given back once, released, and with the next task. -/
theorem spin_lock_safe_shipped : ∃ w₂ w₁ w₀ w : Watched Nat Nat,
    (w₂.depth 2 = 2 ∧ (w₂.kernel.lock 0).repeat = 2 ∧ w₂.pending 3 = some .spin_lock ∧ w₂.Inside 2) ∧
    (w₁.depth 2 = 1 ∧ (w₁.kernel.lock 0).repeat = 1 ∧ (w₁.kernel.lock 0).mutex.value = true ∧ w₁.Inside 2) ∧
    (w₀.pending 2 = some .released ∧ (w₀.kernel.lock 0).mutex.value = false) ∧
    (w.depth 2 = 0 ∧ w.pending 2 = none ∧ (w.kernel.lock 0).holder = some 3 ∧ w.Inside 3) ∧
    SpinLockSafe 0 w₂ ∧ SpinLockSafe 0 w₁ ∧ SpinLockSafe 0 w₀ ∧ SpinLockSafe 0 w := by
  obtain ⟨w₂, hreach₂, hcheck₂⟩ := exists_watched (two_levels.take 15) (fun w => w.depth 2 = 2 ∧
    (w.kernel.lock 0).repeat = 2 ∧ w.pending 3 = some .spin_lock ∧ w.Inside 2) (by decide +kernel)
  obtain ⟨w₁, hreach₁, hcheck₁⟩ := exists_watched (two_levels.take 20) (fun w => w.depth 2 = 1 ∧
    (w.kernel.lock 0).repeat = 1 ∧ (w.kernel.lock 0).mutex.value = true ∧ w.Inside 2) (by decide +kernel)
  obtain ⟨w₀, hreach₀, hcheck₀⟩ := exists_watched (two_levels.take 27) (fun w =>
    w.pending 2 = some .released ∧ (w.kernel.lock 0).mutex.value = false) (by decide +kernel)
  obtain ⟨w, hreach, hcheck⟩ := exists_watched two_levels (fun w => w.depth 2 = 0 ∧ w.pending 2 = none ∧
    (w.kernel.lock 0).holder = some 3 ∧ w.Inside 3) (by decide +kernel)
  exact ⟨w₂, w₁, w₀, w, of_decide_eq_true hcheck₂, of_decide_eq_true hcheck₁, of_decide_eq_true hcheck₀,
    of_decide_eq_true hcheck, spin_lock_safe hreach₂, spin_lock_safe hreach₁, spin_lock_safe hreach₀,
    spin_lock_safe hreach⟩

end onix
