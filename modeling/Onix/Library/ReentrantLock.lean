import Mathlib.Logic.Function.Basic
import Mathlib.Tactic

/-! A lock that its owner can take again: a flag, the owner, and the number of levels.

Threads are interleaved at every statement. Only the test of the flag together with setting it is
one step; the owner and the levels are read and written outside of it. A thread starts to take the
lock only as long as one level more stays below a bound. -/

namespace ReentrantLock

/-- The shared variables of a lock. -/
structure Lock (τ : Type) where
  held : Bool
  holder : Option τ
  levels : Nat

/-- The next statement of a thread on the lock. -/
inductive Place where
  | out
  | test
  | acquire
  | hold
  | check
  | set
  | again
  | check_holder
  | test_last
  | drop
  | check_last
  | clear_holder
  | clear_levels
  | release
  deriving DecidableEq

variable {τ : Type}

def Lock.free : Lock τ := { held := false, holder := none, levels := 0 }

/-- The nesting depths a thread can have at a place: how often it has taken the lock without giving
it back. -/
def Place.Fits (bound : Nat) : Place → Nat → Prop
  | .out, _ => True
  | .test, depth => depth + 1 < bound
  | .acquire, depth => depth = 0
  | .hold, depth => depth = 0
  | .check, depth => depth = 0
  | .set, depth => depth = 0
  | .again, depth => 1 ≤ depth ∧ depth + 1 < bound
  | .check_holder, depth => 1 ≤ depth
  | .test_last, depth => 1 ≤ depth
  | .drop, depth => 2 ≤ depth
  | .check_last, depth => depth = 1
  | .clear_holder, depth => depth = 1
  | .clear_levels, depth => depth = 1
  | .release, depth => depth = 1

/-- What the shared variables are while a thread at this place and depth owns the lock, if it does. -/
def Place.owned (t : τ) : Place → Nat → Option (Lock τ)
  | .out, 0 => none
  | .test, 0 => none
  | .acquire, _ => none
  | .hold, _ => some { held := true, holder := none, levels := 0 }
  | .check, _ => some { held := true, holder := some t, levels := 0 }
  | .set, _ => some { held := true, holder := some t, levels := 0 }
  | .clear_levels, depth => some { held := true, holder := none, levels := depth }
  | .release, _ => some { held := true, holder := none, levels := 0 }
  | _, depth => some { held := true, holder := some t, levels := depth }

structure State (τ : Type) where
  lock : Lock τ
  place : τ → Place
  depth : τ → Nat

/-- A statement of one thread. -/
def State.move [DecidableEq τ] (s : State τ) (t : τ) (lock : Lock τ) (place : Place) (depth : Nat) :
    State τ :=
  { lock, place := Function.update s.place t place, depth := Function.update s.depth t depth }

section Steps

variable [DecidableEq τ]

/-- The statements of a thread that gives back no more levels than it has taken. -/
inductive Step (bound : Nat) (t : τ) (s : State τ) : State τ → Prop where
  | call_lock (hplace : s.place t = .out) (hroom : s.depth t + 1 < bound) :
      Step bound t s (s.move t s.lock .test (s.depth t))
  | test_other (hplace : s.place t = .test) (hholder : s.lock.holder ≠ some t) :
      Step bound t s (s.move t s.lock .acquire (s.depth t))
  | test_own (hplace : s.place t = .test) (hholder : s.lock.holder = some t) :
      Step bound t s (s.move t s.lock .again (s.depth t))
  | acquire (hplace : s.place t = .acquire) (hheld : s.lock.held = false) :
      Step bound t s (s.move t { s.lock with held := true } .hold (s.depth t))
  | hold (hplace : s.place t = .hold) :
      Step bound t s (s.move t { s.lock with holder := some t } .check (s.depth t))
  | check (hplace : s.place t = .check) (hlevels : s.lock.levels = 0) :
      Step bound t s (s.move t s.lock .set (s.depth t))
  | set (hplace : s.place t = .set) :
      Step bound t s (s.move t { s.lock with levels := 1 } .out (s.depth t + 1))
  | again (hplace : s.place t = .again) :
      Step bound t s (s.move t { s.lock with levels := s.lock.levels + 1 } .out (s.depth t + 1))
  | call_unlock (hplace : s.place t = .out) (hdepth : 1 ≤ s.depth t) :
      Step bound t s (s.move t s.lock .check_holder (s.depth t))
  | check_holder (hplace : s.place t = .check_holder) (hholder : s.lock.holder = some t) :
      Step bound t s (s.move t s.lock .test_last (s.depth t))
  | test_many (hplace : s.place t = .test_last) (hlevels : 1 < s.lock.levels) :
      Step bound t s (s.move t s.lock .drop (s.depth t))
  | test_last (hplace : s.place t = .test_last) (hlevels : s.lock.levels ≤ 1) :
      Step bound t s (s.move t s.lock .check_last (s.depth t))
  | drop (hplace : s.place t = .drop) :
      Step bound t s (s.move t { s.lock with levels := s.lock.levels - 1 } .out (s.depth t - 1))
  | check_last (hplace : s.place t = .check_last) (hlevels : s.lock.levels = 1) :
      Step bound t s (s.move t s.lock .clear_holder (s.depth t))
  | clear_holder (hplace : s.place t = .clear_holder) :
      Step bound t s (s.move t { s.lock with holder := none } .clear_levels (s.depth t))
  | clear_levels (hplace : s.place t = .clear_levels) :
      Step bound t s (s.move t { s.lock with levels := 0 } .release (s.depth t))
  | release (hplace : s.place t = .release) (hheld : s.lock.held = true) :
      Step bound t s (s.move t { s.lock with held := false } .out (s.depth t - 1))

/-- A statement of one thread leaves the depth of the others. -/
theorem Step.depth_of_ne {bound : Nat} {t u : τ} {s s' : State τ} (hstep : Step bound t s s') (hu : u ≠ t) :
    s'.depth u = s.depth u := by
  cases hstep <;> simp [State.move, hu]

end Steps

/-- The shared variables are those of the one owner, or free. -/
structure Inv (bound : Nat) (s : State τ) : Prop where
  fits : ∀ t, (s.place t).Fits bound (s.depth t)
  owner : ∀ t lock, (s.place t).owned t (s.depth t) = some lock → s.lock = lock
  unique : ∀ t u, ((s.place t).owned t (s.depth t)).isSome → ((s.place u).owned u (s.depth u)).isSome →
    t = u
  free : (∀ t, (s.place t).owned t (s.depth t) = none) → s.lock = .free

/-- An owner keeps the flag set, and names nobody but itself as the holder. -/
theorem Place.owned_eq_some {t : τ} {place : Place} {depth : Nat} {lock : Lock τ}
    (h : place.owned t depth = some lock) : lock.held = true ∧ ∀ u, lock.holder = some u → u = t := by
  cases place <;> cases depth <;> simp [Place.owned] at h <;> subst h <;> simp [eq_comm]

/-- A thread that has taken the lock owns it. -/
theorem Place.owned_of_pos {t : τ} {place : Place} {bound depth : Nat} (hfits : place.Fits bound depth)
    (hdepth : 1 ≤ depth) : ∃ lock, place.owned t depth = some lock := by
  cases place <;> cases depth <;> simp_all [Place.owned, Place.Fits]

/-- The places of a thread that gives back a level. -/
def Place.Leaving : Place → Prop
  | .check_holder => True
  | .test_last => True
  | .drop => True
  | .check_last => True
  | .clear_holder => True
  | .clear_levels => True
  | .release => True
  | _ => False

/-- A thread that has taken the lock owns it with its depth for the levels, until it gives back the
last one. -/
theorem Place.owned_of_fits {t : τ} {place : Place} {bound depth : Nat} (hfits : place.Fits bound depth)
    (hdepth : 1 ≤ depth) (hstays : 2 ≤ depth ∨ ¬ place.Leaving) :
    place.owned t depth = some { held := true, holder := some t, levels := depth } := by
  cases place <;> cases depth <;> simp_all [Place.owned, Place.Fits, Place.Leaving]

variable {bound : Nat} {s s' : State τ} {t u : τ}

theorem Inv.holder_owns (h : Inv bound s) (hholder : s.lock.holder = some t) :
    (s.place t).owned t (s.depth t) = some s.lock := by
  by_contra hnot
  have hnone : ∀ u, (s.place u).owned u (s.depth u) = none := by
    intro u
    cases howned : (s.place u).owned u (s.depth u) with
    | none => rfl
    | some lock =>
      obtain rfl := h.owner u lock howned
      obtain rfl := (Place.owned_eq_some howned).2 t hholder
      exact absurd howned hnot
  rw [h.free hnone] at hholder
  exact absurd hholder (by simp [Lock.free])

/-- What a statement of a thread may do to the shared variables, by whether the thread owns the lock
before and behind it. -/
def Passes (lock lock' : Lock τ) : Option (Lock τ) → Option (Lock τ) → Prop
  | none, none => lock' = lock
  | none, some owned => lock.held = false ∧ lock' = owned
  | some _, some owned => lock' = owned
  | some _, none => lock' = .free

variable [DecidableEq τ]

theorem Inv.move (h : Inv bound s) {lock : Lock τ} {place : Place} {depth : Nat} (hfits : place.Fits bound depth)
    (hpasses : Passes s.lock lock ((s.place t).owned t (s.depth t)) (place.owned t depth)) :
    Inv bound (s.move t lock place depth) := by
  -- no other thread owns the lock if this one does before or behind the statement
  have hother : ∀ u, u ≠ t → ∀ owned, (s.place u).owned u (s.depth u) = some owned →
      place.owned t depth = none ∧ lock = s.lock := by
    intro u hu owned howned
    have hbefore : (s.place t).owned t (s.depth t) = none := by
      by_contra hsome
      exact hu (h.unique u t (by simp [howned]) (by simpa using Option.isSome_iff_ne_none.mpr hsome))
    rw [hbefore] at hpasses
    cases hbehind : place.owned t depth with
    | none =>
      rw [hbehind] at hpasses
      exact ⟨rfl, hpasses⟩
    | some owned' =>
      rw [hbehind] at hpasses
      have hheld := (Place.owned_eq_some howned).1
      rw [← h.owner u owned howned, hpasses.1] at hheld
      exact absurd hheld (by simp)
  refine ⟨fun u => ?_, fun u owned howned => ?_, fun u v hu hv => ?_, fun hnone => ?_⟩
  · by_cases hu : u = t
    · subst hu
      simpa [State.move] using hfits
    · simpa [State.move, hu] using h.fits u
  · by_cases hu : u = t
    · subst hu
      simp only [State.move, Function.update_self] at howned ⊢
      rw [howned] at hpasses
      cases hbefore : (s.place u).owned u (s.depth u) with
      | none => rw [hbefore] at hpasses; exact hpasses.2
      | some owned' => rw [hbefore] at hpasses; exact hpasses
    · simp only [State.move, Function.update_of_ne hu] at howned ⊢
      rw [(hother u hu owned howned).2]
      exact h.owner u owned howned
  · by_cases hut : u = t <;> by_cases hvt : v = t
    · rw [hut, hvt]
    · subst hut
      simp only [State.move, Function.update_self, Function.update_of_ne hvt] at hu hv
      obtain ⟨owned, howned⟩ := Option.isSome_iff_exists.mp hv
      simp [(hother v hvt owned howned).1] at hu
    · subst hvt
      simp only [State.move, Function.update_self, Function.update_of_ne hut] at hu hv
      obtain ⟨owned, howned⟩ := Option.isSome_iff_exists.mp hu
      simp [(hother u hut owned howned).1] at hv
    · simp only [State.move, Function.update_of_ne hut, Function.update_of_ne hvt] at hu hv
      exact h.unique u v hu hv
  · have hbehind : place.owned t depth = none := by simpa [State.move] using hnone t
    rw [hbehind] at hpasses
    cases hbefore : (s.place t).owned t (s.depth t) with
    | some owned => rw [hbefore] at hpasses; exact hpasses
    | none =>
      rw [hbefore] at hpasses
      refine Eq.trans hpasses (h.free fun u => ?_)
      by_cases hu : u = t
      · rw [hu, hbefore]
      · simpa [State.move, hu] using hnone u

/-- Every statement of every thread keeps the invariant. -/
theorem Inv.step (h : Inv bound s) (hstep : Step bound t s s') : Inv bound s' := by
  have hfits := h.fits t
  have howner := h.owner t
  cases hstep with
  | call_lock hplace hroom =>
    rw [hplace] at howner
    refine h.move hroom ?_
    rw [hplace]
    cases hdepth : s.depth t <;> simp_all [Place.owned, Passes]
  | test_other hplace hholder =>
    rw [hplace] at hfits howner
    have hzero : s.depth t = 0 := by
      cases hdepth : s.depth t with
      | zero => rfl
      | succ depth => simp [howner _ (by rw [hdepth]; rfl)] at hholder
    refine h.move hzero ?_
    rw [hplace, hzero]
    rfl
  | test_own hplace hholder =>
    have howned := h.holder_owns hholder
    rw [hplace] at hfits howned
    cases hdepth : s.depth t with
    | zero => simp [hdepth, Place.owned] at howned
    | succ depth =>
      rw [hdepth] at howned hfits
      refine h.move ⟨by omega, hfits⟩ ?_
      rw [hplace, hdepth]
      simpa [Place.owned, Passes, eq_comm] using howned
  | acquire hplace hheld =>
    rw [hplace] at hfits
    have hfree : s.lock = .free := h.free fun u => by
      by_contra hsome
      obtain ⟨owned, howned⟩ := Option.ne_none_iff_exists'.mp hsome
      rw [h.owner u owned howned, (Place.owned_eq_some howned).1] at hheld
      exact absurd hheld (by simp)
    refine h.move hfits ?_
    rw [hplace, hfree]
    simp [Place.owned, Passes, Lock.free]
  | again hplace =>
    rw [hplace] at hfits howner
    refine h.move trivial ?_
    rw [hplace, howner _ rfl]
    simp [Place.owned, Passes]
  | call_unlock hplace hdepth =>
    rw [hplace] at howner
    refine h.move hdepth ?_
    rw [hplace]
    obtain ⟨depth, hsucc⟩ := Nat.exists_eq_add_of_le' hdepth
    rw [hsucc] at howner ⊢
    exact howner _ rfl
  | test_many hplace hlevels =>
    rw [hplace] at hfits howner
    have hlock := howner _ rfl
    refine h.move (by rwa [hlock] at hlevels) ?_
    rw [hplace]
    exact hlock
  | test_last hplace hlevels =>
    rw [hplace] at hfits howner
    have hlock := howner _ rfl
    rw [hlock] at hlevels
    refine h.move (Nat.le_antisymm hlevels hfits) ?_
    rw [hplace]
    exact hlock
  | drop hplace =>
    rw [hplace] at hfits howner
    refine h.move trivial ?_
    obtain ⟨depth, hdepth⟩ := Nat.exists_eq_add_of_le' hfits
    rw [hplace, howner _ rfl, hdepth]
    simp [Place.owned, Passes]
  | release hplace hheld =>
    rw [hplace] at hfits howner
    have hone : s.depth t = 1 := hfits
    refine h.move trivial ?_
    rw [hplace, howner _ rfl, hone]
    simp [Place.owned, Passes, Lock.free]
  | hold hplace =>
    rw [hplace] at hfits howner
    refine h.move hfits ?_
    rw [hplace, howner _ rfl]
    rfl
  | check hplace hlevels =>
    rw [hplace] at hfits howner
    refine h.move hfits ?_
    rw [hplace]
    exact howner _ rfl
  | set hplace =>
    rw [hplace] at hfits howner
    have hzero : s.depth t = 0 := hfits
    refine h.move trivial ?_
    rw [hplace, howner _ rfl, hzero]
    rfl
  | check_holder hplace hholder =>
    rw [hplace] at hfits howner
    refine h.move hfits ?_
    rw [hplace]
    exact howner _ rfl
  | check_last hplace hlevels =>
    rw [hplace] at hfits howner
    refine h.move hfits ?_
    rw [hplace]
    exact howner _ rfl
  | clear_holder hplace =>
    rw [hplace] at hfits howner
    refine h.move hfits ?_
    rw [hplace, howner _ rfl]
    rfl
  | clear_levels hplace =>
    rw [hplace] at hfits howner
    refine h.move hfits ?_
    rw [hplace, howner _ rfl]
    rfl

omit [DecidableEq τ] in
/-- At most one thread has taken the lock without giving it back. -/
theorem Inv.exclusive (h : Inv bound s) (ht : 1 ≤ s.depth t) (hu : 1 ≤ s.depth u) : t = u := by
  obtain ⟨lock, howned⟩ := Place.owned_of_pos (t := t) (h.fits t) ht
  obtain ⟨lock', howned'⟩ := Place.owned_of_pos (t := u) (h.fits u) hu
  exact h.unique t u (by simp [howned]) (by simp [howned'])

end ReentrantLock
