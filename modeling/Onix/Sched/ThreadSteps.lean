import Onix.Sched.Threads

open ReentrantLock

namespace ReentrantLock

variable {τ : Type} [DecidableEq τ] {bound : Nat} {t u : τ} {s s' : State τ}

theorem Step.of_ne (hstep : Step bound t s s') (hu : u ≠ t) :
    s'.place u = s.place u ∧ s'.depth u = s.depth u := by
  cases hstep <;> exact ⟨Function.update_of_ne hu _ _, Function.update_of_ne hu _ _⟩

/-- The places of a thread that takes the first level. -/
def Place.Taking : Place → Prop
  | .test => True
  | .acquire => True
  | .hold => True
  | .check => True
  | .set => True
  | _ => False

/-- A thread without a level takes the first one, and nothing else. -/
theorem Step.taking (hstep : Step bound t s s') (hfits : (s'.place t).Fits bound (s'.depth t))
    (htaking : (s.place t).Taking) (hdepth : s.depth t = 0) :
    (s'.place t).Taking ∧ s'.depth t = 0 ∨ s'.place t = .out ∧ s'.depth t = 1 := by
  cases hstep with
  | test_own hplace hholder => simp [State.move, Place.Fits, hdepth] at hfits
  | set hplace => exact .inr (by simp [State.move, hdepth])
  | _ => simp_all [State.move, Place.Taking]

/-- A thread with one level gives it back, and nothing else. -/
theorem Step.leaving (hstep : Step bound t s s') (hfits : (s'.place t).Fits bound (s'.depth t))
    (hleaving : (s.place t).Leaving) (hdepth : s.depth t = 1) :
    (s'.place t).Leaving ∧ s'.depth t = 1 ∨ s'.place t = .out ∧ s'.depth t = 0 := by
  cases hstep with
  | test_many hplace hlevels => simp [State.move, Place.Fits, hdepth] at hfits
  | drop hplace => exact .inr (by simp [State.move, hdepth])
  | release hplace hheld => exact .inr (by simp [State.move, hdepth])
  | _ => simp_all [State.move, Place.Leaving]

end ReentrantLock

namespace onix

variable {τ ℓ : Type}

/-- The frames of a task that uses one lock and has interrupts on in the code of its thread. -/
def Frame.OfThread (lock : ℓ) : Frame ℓ → Prop
  | .iret IF => IF = true
  | .mutex_lock m intr => m = lock ∧ intr = true
  | .mutex_unlock intr => intr = true
  | .spin_lock l _ => l = lock
  | .spin_unlock l _ => l = lock
  | .spin _ => False

/-- What the threads call. -/
inductive ThreadOp (lock : ℓ) : Op ℓ → Prop where
  | clock : ThreadOp lock .clock
  | resume : ThreadOp lock .resume
  | enable : ThreadOp lock enable
  | yield : ThreadOp lock (.call .yield)
  | spin_lock : ThreadOp lock (.call (.spin_lock lock))
  | spin_unlock : ThreadOp lock (.call (.spin_unlock lock))

/-- The task goes on in code that runs with interrupts off. -/
def Suspended (frames : List (Frame ℓ)) : Prop := ∃ f rest, frames = f :: rest ∧ f.Atomic

theorem not_suspended_nil : ¬ Suspended ([] : List (Frame ℓ)) := by simp [Suspended]

theorem suspended_cons {f : Frame ℓ} {rest : List (Frame ℓ)} : Suspended (f :: rest) ↔ f.Atomic := by
  simp [Suspended]

variable [DecidableEq τ]

namespace Core

variable {c d : Core τ ℓ} {op : Op ℓ} {m lock : ℓ} {intr again : Bool}

/-- The threads lock the mutex of their lock alone, and with interrupts on. -/
theorem LockEntry.of_thread (hentry : c.LockEntry op m intr again d) (hop : ThreadOp lock op)
    (hframes : ∀ f ∈ c.stack c.current, f.OfThread lock) (hflag : c.IF = true ∨ Suspended (c.stack c.current)) :
    m = lock ∧ intr = true ∧ ∀ f ∈ d.stack c.current, f.OfThread lock := by
  cases hentry with
  | call hthread => cases hop
  | @spin m rest hstack =>
    rw [hstack] at hframes hflag
    obtain rfl : m = lock := hframes _ List.mem_cons_self
    have hIF : c.IF = true := hflag.resolve_right (suspended_cons.not.mpr id)
    refine ⟨rfl, hIF, fun f hf => ?_⟩
    obtain rfl | hf : f = .spin_lock m .hold ∨ f ∈ rest := by simpa [hstack] using hf
    · rfl
    · exact hframes f (List.mem_cons_of_mem _ hf)
  | @retry m intr rest hstack =>
    rw [hstack] at hframes
    obtain ⟨rfl, rfl⟩ := hframes _ List.mem_cons_self
    refine ⟨rfl, rfl, fun f hf => hframes f (List.mem_cons_of_mem _ ?_)⟩
    simpa [hstack] using hf

theorem UnlockEntry.of_thread (hentry : c.UnlockEntry op m intr d) (hop : ThreadOp lock op)
    (hframes : ∀ f ∈ c.stack c.current, f.OfThread lock) (hflag : c.IF = true ∨ Suspended (c.stack c.current)) :
    m = lock ∧ intr = true ∧ ∀ f ∈ d.stack c.current, f.OfThread lock := by
  cases hentry with
  | call hthread => cases hop
  | @spin m rest hstack =>
    rw [hstack] at hframes hflag
    obtain rfl : m = lock := hframes _ List.mem_cons_self
    have hIF : c.IF = true := hflag.resolve_right (suspended_cons.not.mpr id)
    refine ⟨rfl, hIF, fun f hf => hframes f (List.mem_cons_of_mem _ ?_)⟩
    simpa [hstack] using hf

end Core

variable [DecidableEq ℓ]

namespace Core

variable {c : Core τ ℓ} {lock : ℓ}

/-- A statement of the spin lock functions puts no frame on the stack but its own next one, or fails. -/
theorem spin_lock_stmt_frames {point : SpinLockPoint} {f : Frame ℓ}
    (hf : f ∈ (c.spin_lock_stmt lock point).stack c.current) :
    f ∈ c.stack c.current ∨ f.OfThread lock ∨ ∃ e, f = .spin e := by
  cases point with
  | test => by_cases h : (c.lock lock).holder = some c.current <;> simp_all [spin_lock_stmt] <;> grind [Frame.OfThread]
  | check => by_cases h : (c.lock lock).repeat = 0 <;> simp_all [spin_lock_stmt] <;> grind [Frame.OfThread]
  | hold =>
    simp_all [spin_lock_stmt]
    grind [Frame.OfThread]
  | _ => simp_all [spin_lock_stmt]

theorem spin_unlock_stmt_frames {point : SpinUnlockPoint} {f : Frame ℓ}
    (hf : f ∈ (c.spin_unlock_stmt lock point).stack c.current) :
    f ∈ c.stack c.current ∨ f.OfThread lock ∨ ∃ e, f = .spin e := by
  cases point with
  | check_holder =>
    by_cases h : (c.lock lock).holder = some c.current <;> simp_all [spin_unlock_stmt] <;> grind [Frame.OfThread]
  | test => by_cases h : (c.lock lock).repeat > 1 <;> simp_all [spin_unlock_stmt] <;> grind [Frame.OfThread]
  | check_repeat =>
    by_cases h : (c.lock lock).repeat = 1 <;> simp_all [spin_unlock_stmt] <;> grind [Frame.OfThread]
  | clear_holder =>
    simp_all [spin_unlock_stmt]
    grind [Frame.OfThread]
  | clear_repeat =>
    simp_all [spin_unlock_stmt]
    grind [Frame.OfThread]
  | _ => simp_all [spin_unlock_stmt]

end Core

namespace Sched

variable {a b : Sched τ ℓ} {op : Op ℓ} {calls : Bool} {lock : ℓ}

/-- An act of a thread leaves interrupts on or the task in code that turns them on again, and behind an
act that gives up the CPU the latter. -/
theorem Act.of_thread {search : Core τ ℓ → Option τ} (hact : a.Act op calls b) (hop : ThreadOp lock op)
    (hnested : Nested lock a.toCore search op) (hshaped : Shaped (a.stack a.current)) (hfree : a.Free a.current)
    (hspinning : a.Spinning lock) (hframes : ∀ f ∈ a.stack a.current, f.OfThread lock)
    (hflag : op = enable ∨ a.IF = true ∨ Suspended (a.stack a.current)) :
    (∀ f ∈ b.stack a.current, f.OfThread lock) ∧ (calls = true → Suspended (b.stack a.current)) ∧
      (b.IF = true ∨ Suspended (b.stack a.current)) := by
  have hsuspended : ∀ {c : Sched τ ℓ} {f rest}, c.stack a.current = f :: rest → f.Atomic →
      Suspended (c.stack a.current) := fun hstack hatomic => ⟨_, _, hstack, hatomic⟩
  have hresume : op ≠ enable → a.IF = true ∨ Suspended (a.stack a.current) := hflag.resolve_left
  have hlock : ∀ {m intr again c}, a.LockEntry op m intr again c → op ≠ enable := by
    intro m intr again c hentry
    cases hentry <;> exact fun heq => by cases heq
  have hunlock : ∀ {m intr c}, a.UnlockEntry op m intr c → op ≠ enable := by
    intro m intr c hentry
    cases hentry <;> exact fun heq => by cases heq
  -- most acts do not give up the CPU
  have hkeeps : false = true → Suspended (b.stack a.current) := fun hcalls => absurd hcalls Bool.false_ne_true
  cases hact with
  | tick hIF hticks =>
    have hstack : a.clock.stack a.current = .iret a.IF :: a.stack a.current := by simp
    refine ⟨?_, fun _ => hsuspended hstack trivial, .inr (hsuspended hstack trivial)⟩
    simpa [hstack, hIF, Frame.OfThread] using hframes
  | expire hIF hticks =>
    have hstack : a.clock.stack a.current = .iret a.IF :: a.stack a.current := by simp
    refine ⟨?_, fun _ => hsuspended hstack trivial, .inr (hsuspended hstack trivial)⟩
    simpa [hstack, hIF, Frame.OfThread] using hframes
  | @set_interrupt_state state hstack hboot =>
    obtain rfl : state = true := by cases hop; rfl
    exact ⟨hframes, hkeeps, .inl rfl⟩
  | yield hthread =>
    have hIF : a.IF = true := (hresume (by simp)).resolve_right (hthread.1 ▸ not_suspended_nil)
    have hstack : a.gate.stack a.current = [.iret true] := by simp [hthread.1, hIF]
    refine ⟨?_, fun _ => ⟨_, _, hstack, trivial⟩, .inr ⟨_, _, hstack, trivial⟩⟩
    intro f hf
    obtain rfl : f = .iret true := by simpa [hstack] using hf
    rfl
  | sleep hthread hfree' => cases hop
  | sleep_refused hthread hlinked => cases hop
  | test_block hthread hgate hfree' => cases hop
  | test_refused hthread hgate hlinked => cases hop
  | test_wake hthread hgate => cases hop
  | take hentry hvalue =>
    obtain ⟨rfl, rfl, hrest⟩ := hentry.of_thread hop hframes (hresume (hlock hentry))
    exact ⟨by simpa [Core.take_mutex] using hrest, hkeeps, .inl rfl⟩
  | @wait _ m _ again c hentry hvalue hfree' =>
    obtain ⟨rfl, rfl, hrest⟩ := hentry.of_thread hop hframes (hresume (hlock hentry))
    have hstack : (c.wait_mutex m true again).stack a.current = .mutex_lock m true :: c.stack a.current := by
      simp [Core.wait_mutex, hentry.frame]
    refine ⟨fun f hf => ?_, fun _ => ⟨_, _, hstack, trivial⟩, .inr ⟨_, _, hstack, trivial⟩⟩
    obtain rfl | hf := List.mem_cons.mp (hstack ▸ hf)
    · exact ⟨rfl, rfl⟩
    · exact hrest f hf
  | wait_refused hentry hvalue hlinked => exact absurd hfree hlinked
  | @release_refused _ m _ c hentry hvalue =>
    obtain ⟨rfl, -, -⟩ := hentry.of_thread hop hframes (hresume (hunlock hentry))
    simp [hspinning.held hentry hnested] at hvalue
  | release hentry hvalue hempty =>
    obtain ⟨rfl, rfl, hrest⟩ := hentry.of_thread hop hframes (hresume (hunlock hentry))
    exact ⟨by simpa [Core.free_mutex] using hrest, hkeeps, .inl rfl⟩
  | @handoff _ m _ c waiters t hentry hvalue hlast =>
    obtain ⟨rfl, rfl, hrest⟩ := hentry.of_thread hop hframes (hresume (hunlock hentry))
    have hstack : (((c.free_mutex m (some t)).set_state t .TASK_READY).push_frame (.mutex_unlock true)).stack
        a.current = .mutex_unlock true :: c.stack a.current := by
      simp [Core.free_mutex, hentry.frame]
    refine ⟨fun f hf => ?_, fun _ => ⟨_, _, hstack, trivial⟩, .inr ⟨_, _, hstack, trivial⟩⟩
    obtain rfl | hf := List.mem_cons.mp (hstack ▸ hf)
    · rfl
    · exact hrest f hf
  | iret hstack =>
    rw [hstack] at hframes
    obtain rfl := hframes _ List.mem_cons_self
    refine ⟨fun f hf => hframes f (List.mem_cons_of_mem _ ?_), hkeeps, .inl rfl⟩
    simpa [hstack] using hf
  | unlock_return hstack =>
    rw [hstack] at hframes
    obtain rfl := hframes _ List.mem_cons_self
    refine ⟨fun f hf => hframes f (List.mem_cons_of_mem _ ?_), hkeeps, .inl rfl⟩
    simpa [hstack] using hf
  | @call_spin_lock l hthread =>
    obtain rfl : l = lock := by cases hop; rfl
    have hIF : a.IF = true := (hresume (by simp)).resolve_right (hthread.1 ▸ not_suspended_nil)
    exact ⟨by simp [hthread.1, Frame.OfThread], hkeeps, .inl hIF⟩
  | @call_spin_unlock l hthread =>
    obtain rfl : l = lock := by cases hop; rfl
    have hIF : a.IF = true := (hresume (by simp)).resolve_right (hthread.1 ▸ not_suspended_nil)
    exact ⟨by simp [hthread.1, Frame.OfThread], hkeeps, .inl hIF⟩
  | @spin_lock l point rest hstack hpoint =>
    have hframes' := hframes
    rw [hstack] at hframes'
    obtain rfl : l = lock := hframes' _ List.mem_cons_self
    obtain rfl := (hstack ▸ hshaped).spin_lock_rest
    have hIF : a.IF = true := (hresume (by simp)).resolve_right (hstack ▸ suspended_cons.not.mpr id)
    have halive := Act.alive (.spin_lock hstack hpoint) hnested hshaped hfree hspinning hstack rfl
    refine ⟨fun f hf => ?_, hkeeps, .inl (by simpa using hIF)⟩
    obtain hf' | hf' | ⟨e, rfl⟩ := Core.spin_lock_stmt_frames (c := a.pop_frame) hf
    · simp [hstack] at hf'
    · exact hf'
    · exact absurd hf (halive e)
  | @spin_unlock l point rest hstack hpoint =>
    have hframes' := hframes
    rw [hstack] at hframes'
    obtain rfl : l = lock := hframes' _ List.mem_cons_self
    obtain rfl := (hstack ▸ hshaped).spin_unlock_rest
    have hIF : a.IF = true := (hresume (by simp)).resolve_right (hstack ▸ suspended_cons.not.mpr id)
    have halive := Act.alive (.spin_unlock hstack hpoint) hnested hshaped hfree hspinning hstack rfl
    refine ⟨fun f hf => ?_, hkeeps, .inl (by simpa using hIF)⟩
    obtain hf' | hf' | ⟨e, rfl⟩ := Core.spin_unlock_stmt_frames (c := a.pop_frame) hf
    · simp [hstack] at hf'
    · exact hf'
    · exact absurd hf (halive e)

/-- A thread outside of the lock stays outside of it when it goes on in kernel code. -/
theorem Act.view_out (hact : a.Act .resume calls b) (hframes : ∀ f ∈ a.stack a.current, f.OfThread lock)
    (hout : place lock (a.stack a.current) = .out) : b.view lock = a.view lock := by
  have hother := fun t (ht : t ≠ a.current) => hact.stack_of_ne ht
  have hlock : ∀ {m intr again c}, ¬ a.LockEntry .resume m intr again c := by
    intro m intr again c hentry
    cases hentry with
    | spin hstack =>
      obtain rfl := hframes (.spin_lock m .acquire) (by simp [hstack])
      simp [hstack, place, SpinLockPoint.place] at hout
    | retry hstack =>
      obtain ⟨rfl, -⟩ := hframes (.mutex_lock m intr) (by simp [hstack])
      simp [hstack, place] at hout
  have hunlock : ∀ {m intr c}, ¬ a.UnlockEntry .resume m intr c := by
    intro m intr c hentry
    cases hentry with
    | spin hstack =>
      obtain rfl := hframes (.spin_unlock m .release) (by simp [hstack])
      simp [hstack, place, SpinUnlockPoint.place] at hout
  cases hact with
  | take hentry hvalue => exact absurd hentry hlock
  | wait hentry hvalue hfree => exact absurd hentry hlock
  | wait_refused hentry hvalue hlinked => exact absurd hentry hlock
  | release_refused hentry hvalue => exact absurd hentry hunlock
  | release hentry hvalue hempty => exact absurd hentry hunlock
  | handoff hentry hvalue hlast => exact absurd hentry hunlock
  | iret hstack => exact view_eq rfl (by simp [place, hstack]) (fun _ => rfl) hother
  | unlock_return hstack => exact view_eq rfl (by simp [place, hstack]) (fun _ => rfl) hother
  | @spin_lock l point rest hstack hpoint =>
    obtain rfl := hframes (.spin_lock l point) (by simp [hstack])
    cases point <;> simp [hstack, place, SpinLockPoint.place] at hout
  | @spin_unlock l point rest hstack hpoint =>
    obtain rfl := hframes (.spin_unlock l point) (by simp [hstack])
    cases point <;> simp [hstack, place, SpinUnlockPoint.place] at hout

end Sched

/-- Where a thread that prints is: the statements it has left, its place in the lock and its depth. -/
inductive Position : List Stmt → Place → Nat → Prop where
  | start : Position [.set_interrupt_state true] .out 0
  | free : Position [] .out 0
  | taking {place : Place} (htaking : place.Taking) : Position (LOGK ++ [.spin_unlock]) place 0
  | inside {rest : List Stmt} (hne : rest ≠ []) (hsuffix : rest <:+ LOGK ++ [.spin_unlock]) : Position rest .out 1
  | leaving {place : Place} (hleaving : place.Leaving) : Position [] place 1

namespace Sched

variable {a b : Sched τ ℓ} {op : Op ℓ} {calls : Bool} {lock : ℓ}

/-- Kernel code takes a thread from one position to the next without its code. -/
theorem Act.position {search : Core τ ℓ → Option τ} (hact : a.Act .resume calls b)
    (hnested : Nested lock a.toCore search .resume) (hshaped : Shaped (a.stack a.current))
    (hspinning : a.Spinning lock) (hframes : ∀ f ∈ a.stack a.current, f.OfThread lock) {rest : List Stmt}
    (h : Position rest (place lock (a.stack a.current)) (depth lock a.current a.log)) :
    Position rest (place lock (b.stack a.current)) (depth lock a.current b.log) := by
  have hsame : b.view lock = a.view lock →
      Position rest (place lock (b.stack a.current)) (depth lock a.current b.log) := by
    intro hview
    have hplace := congrArg (fun s => s.place a.current) hview
    have hdepth := congrArg (fun s => s.depth a.current) hview
    simp only [Core.view] at hplace hdepth
    rwa [hplace, hdepth]
  have hfits := (hact.spinning hnested hshaped hspinning).inv.fits a.current
  generalize hplace : place lock (a.stack a.current) = p at h
  generalize hdepth : depth lock a.current a.log = d at h
  cases h with
  | taking htaking =>
    obtain hview | hstep := hact.view_step hnested hshaped hspinning
    · exact hsame hview
    · rw [← hplace] at htaking
      have hcases := hstep.taking hfits htaking hdepth
      simp only [Core.view] at hcases
      obtain ⟨htaking', hdepth'⟩ | ⟨hout, hdepth'⟩ := hcases
      · rw [hdepth']
        exact .taking htaking'
      · rw [hout, hdepth']
        exact .inside (by simp [LOGK]) List.suffix_rfl
  | leaving hleaving =>
    obtain hview | hstep := hact.view_step hnested hshaped hspinning
    · exact hsame hview
    · rw [← hplace] at hleaving
      have hcases := hstep.leaving hfits hleaving hdepth
      simp only [Core.view] at hcases
      obtain ⟨hleaving', hdepth'⟩ | ⟨hout, hdepth'⟩ := hcases
      · rw [hdepth']
        exact .leaving hleaving'
      · rw [hout, hdepth']
        exact .free
  | _ => exact hsame (hact.view_out hframes hplace)

/-- A clock interrupt, a call of `yield` and one that turns interrupts on leave the lock alone. -/
theorem Act.view_same (hact : a.Act op calls b) (hop : op = .clock ∨ op = enable ∨ op = .call .yield) :
    b.view lock = a.view lock := by
  have hother := fun t (ht : t ≠ a.current) => hact.stack_of_ne ht
  obtain rfl | rfl | rfl := hop
  · obtain ⟨-, rfl, -⟩ := hact.of_clock
    refine view_eq (by simp) (by simp [place]) (fun t => ?_) hother
    rw [clock_log]
    exact depth_append (_ :: _) (by simp)
  · cases hact with
    | set_interrupt_state hstack hboot => exact view_eq rfl rfl (fun _ => rfl) hother
    | take hentry hvalue => cases hentry
    | wait hentry hvalue hfree => cases hentry
    | wait_refused hentry hvalue hlinked => cases hentry
    | release_refused hentry hvalue => cases hentry
    | release hentry hvalue hempty => cases hentry
    | handoff hentry hvalue hlast => cases hentry
  · cases hact with
    | yield hthread => exact view_eq rfl (by simp [place]) (fun _ => rfl) hother
    | take hentry hvalue => cases hentry
    | wait hentry hvalue hfree => cases hentry
    | wait_refused hentry hvalue hlinked => cases hentry
    | release_refused hentry hvalue => cases hentry
    | release hentry hvalue hempty => cases hentry
    | handoff hentry hvalue hlast => cases hentry

end Sched

/-- What a thread that prints does next with the statements it has left, and those left behind it. -/
inductive Does (lock : ℓ) : List Stmt → Op ℓ → List Stmt → Prop where
  | clock (rest : List Stmt) : Does lock rest .clock rest
  | resume (rest : List Stmt) : Does lock rest .resume rest
  | enable : Does lock [.set_interrupt_state true] enable []
  | spin_lock : Does lock [] (.call (.spin_lock lock)) (LOGK ++ [.spin_unlock])
  | spin_unlock : Does lock [.spin_unlock] (.call (.spin_unlock lock)) []

namespace Sched

variable {a b : Sched τ ℓ} {op : Op ℓ} {calls : Bool} {lock : ℓ}

/-- A thread that prints goes from one position to the next. -/
theorem Act.does {search : Core τ ℓ → Option τ} (hact : a.Act op calls b) {rest rest' : List Stmt}
    (hdoes : Does lock rest op rest') (hnested : Nested lock a.toCore search op)
    (hshaped : Shaped (a.stack a.current)) (hspinning : a.Spinning lock)
    (hframes : ∀ f ∈ a.stack a.current, f.OfThread lock) (hcall : ∀ call, op = .call call → a.stack a.current = [])
    (h : Position rest (place lock (a.stack a.current)) (depth lock a.current a.log)) :
    Position rest' (place lock (b.stack a.current)) (depth lock a.current b.log) := by
  have hsame : b.view lock = a.view lock → place lock (b.stack a.current) = place lock (a.stack a.current) ∧
      depth lock a.current b.log = depth lock a.current a.log := fun hview =>
    ⟨congrArg (fun s => s.place a.current) hview, congrArg (fun s => s.depth a.current) hview⟩
  have hout : ∀ call, op = .call call → place lock (a.stack a.current) = .out := fun call hop => by
    rw [hcall call hop]
    rfl
  cases hdoes with
  | clock rest =>
    obtain ⟨hplace, hdepth⟩ := hsame (hact.view_same (.inl rfl))
    rwa [hplace, hdepth]
  | resume rest => exact hact.position hnested hshaped hspinning hframes h
  | enable =>
    obtain ⟨hplace, hdepth⟩ := hsame (hact.view_same (.inr (.inl rfl)))
    rw [hplace, hdepth]
    generalize place lock (a.stack a.current) = p at h
    generalize depth lock a.current a.log = d at h
    cases h with
    | start => exact .free
    | inside hne hsuffix => simp [LOGK, List.suffix_cons_iff] at hsuffix
  | spin_lock =>
    obtain ⟨hstack, -, hlog⟩ := hact.calls_spin_lock
    rw [hstack, hlog]
    rw [hout _ rfl] at h
    generalize depth lock a.current a.log = d at h
    cases h with
    | free => exact .taking (by simp [place, SpinLockPoint.place, Place.Taking])
    | inside hne hsuffix => exact absurd rfl hne
    | leaving hleaving => exact hleaving.elim
  | spin_unlock =>
    obtain ⟨hstack, -, hlog⟩ := hact.calls_spin_unlock
    rw [hstack, hlog]
    rw [hout _ rfl] at h
    generalize depth lock a.current a.log = d at h
    cases h with
    | inside hne hsuffix => exact .leaving (by simp [place, SpinUnlockPoint.place, Place.Leaving])

/-- The other tasks stay where they are. -/
theorem Act.view_of_ne {search : Core τ ℓ → Option τ} (hact : a.Act op calls b)
    (hnested : Nested lock a.toCore search op) (hshaped : Shaped (a.stack a.current)) (hspinning : a.Spinning lock)
    {t : τ} (ht : t ≠ a.current) :
    place lock (b.stack t) = place lock (a.stack t) ∧ depth lock t b.log = depth lock t a.log := by
  obtain hview | hstep := hact.view_step hnested hshaped hspinning
  · exact ⟨congrArg (fun s => s.place t) hview, congrArg (fun s => s.depth t) hview⟩
  · exact hstep.of_ne ht

/-- What holds of the tasks of the table, some of which have not turned interrupts on yet: interrupts
are on in the code of every other thread, and every task that waits for the CPU is in kernel code. -/
structure Steady (lock : ℓ) (fresh : τ → Prop) (a : Sched τ ℓ) : Prop where
  current : some a.current ∈ a.task_table
  frames : ∀ t, ∀ f ∈ a.stack t, f.OfThread lock
  starts : ∀ t, some t ∈ a.task_table → fresh t → a.stack t = [] ∧ (t = a.current → a.IF = false)
  waits : ∀ t, some t ∈ a.task_table → t ≠ a.current → ¬ fresh t → Suspended (a.stack t)
  flag : ¬ fresh a.current → a.IF = true ∨ Suspended (a.stack a.current)

theorem Step.steady {search : Core τ ℓ → Option τ} (hstep : a.Step search op b) (hwf : a.WF)
    (hregular : a.Regular) (hframed : a.Framed) (hspinning : a.Spinning lock)
    (hnested : Nested lock a.toCore search op) (hop : ThreadOp lock op) {fresh : τ → Prop}
    (henable : fresh a.current → op = enable) (h : a.Steady lock fresh) :
    b.Steady lock fun t => fresh t ∧ t ≠ a.current := by
  have hflag : op = enable ∨ a.IF = true ∨ Suspended (a.stack a.current) := by
    by_cases hfresh : fresh a.current
    · exact .inl (henable hfresh)
    · exact .inr (h.flag hfresh)
  have hframes : ∀ {c : Sched τ ℓ} {calls}, a.Act op calls c → ∀ t, ∀ f ∈ c.stack t, f.OfThread lock := by
    intro c calls hact t
    by_cases ht : t = a.current
    · rw [ht]
      exact (hact.of_thread hop hnested (hframed.shaped _) (hregular.free h.current) hspinning (h.frames _) hflag).1
    · rw [hact.stack_of_ne ht]
      exact h.frames t
  -- a task that does not run keeps its stack
  have hwaits : ∀ {c : Sched τ ℓ} {calls}, a.Act op calls c → ∀ t, some t ∈ a.task_table → t ≠ a.current →
      (fresh t → c.stack t = []) ∧ (¬ fresh t → Suspended (c.stack t)) := by
    intro c calls hact t hmem ht
    rw [hact.stack_of_ne ht]
    exact ⟨fun hfresh => (h.starts t hmem hfresh).1, h.waits t hmem ht⟩
  cases hstep with
  | @stay b hact =>
    obtain ⟨-, -, hon⟩ := hact.of_thread hop hnested (hframed.shaped _) (hregular.free h.current) hspinning
      (h.frames _) hflag
    obtain ⟨htable, -, hcurrent, -⟩ := hact.frame
    refine ⟨by rw [htable, hcurrent]; exact h.current, hframes hact, ?_, ?_, fun _ => by rwa [hcurrent]⟩
    · rintro t hmem ⟨hfresh, ht⟩
      rw [htable] at hmem
      exact ⟨(hwaits hact t hmem ht).1 hfresh, fun heq => absurd (heq.trans hcurrent) ht⟩
    · intro t hmem ht hfresh
      rw [htable] at hmem
      rw [hcurrent] at ht
      exact (hwaits hact t hmem ht).2 fun hf => hfresh ⟨hf, ht⟩
  | @switch b next hact hsearch =>
    obtain ⟨-, hsuspended, -⟩ := hact.of_thread hop hnested (hframed.shaped _) (hregular.free h.current)
      hspinning (h.frames _) hflag
    obtain ⟨htable, -⟩ := hact.frame
    have hmem_next := (hact.schedulable hwf hnested.toDisciplined hregular hsearch).1
    have hwaits' : ∀ t, some t ∈ a.task_table → ¬ (fresh t ∧ t ≠ a.current) → Suspended (b.stack t) := by
      intro t hmem hfresh
      by_cases ht : t = a.current
      · rw [ht]
        exact hsuspended rfl
      · exact (hwaits hact t hmem ht).2 fun hf => hfresh ⟨hf, ht⟩
    refine ⟨by simpa using hmem_next, by simpa using hframes hact, ?_, ?_, ?_⟩
    · rintro t hmem ⟨hfresh, ht⟩
      simp only [Core.dispatch_frame, htable] at hmem ⊢
      exact ⟨(hwaits hact t hmem ht).1 hfresh, fun _ => hact.off hwf⟩
    · intro t hmem _ hfresh
      simp only [Core.dispatch_frame, htable] at hmem ⊢
      exact hwaits' t hmem hfresh
    · intro hfresh
      simp only [Core.dispatch_frame] at hfresh ⊢
      exact .inr (hwaits' next (htable ▸ hmem_next) hfresh)

end Sched

end onix
