import Onix.Sched.Invariant

namespace onix

variable {τ ℓ : Type}

section Membership

variable [DecidableEq ℓ] {queue : ListPtr ℓ → List τ} {l l' : ListPtr ℓ} {t : τ}

/-- Putting one task into a queue moves no other task. -/
theorem mem_update_insert {l₁ l₂ : List τ} {u : τ} (hl : queue l = l₁ ++ l₂) (hne : t ≠ u) :
    t ∈ Function.update queue l (l₁ ++ u :: l₂) l' ↔ t ∈ queue l' := by
  by_cases h : l' = l
  · subst h
    simp [hl, hne]
  · rw [Function.update_of_ne h]

/-- Taking some tasks off a queue moves no other task. -/
theorem mem_update_remove {ts : List τ} (gone : τ → Prop)
    (hts : ∀ u, u ∈ ts ↔ u ∈ queue l ∧ ¬ gone u) (hstay : ¬ gone t) :
    t ∈ Function.update queue l ts l' ↔ t ∈ queue l' := by
  by_cases h : l' = l
  · subst h
    simp [hts, hstay]
  · rw [Function.update_of_ne h]

/-- A task that is taken off its queue is in no other. -/
theorem not_mem_update_remove {ts : List τ} (gone : τ → Prop)
    (hts : ∀ u, u ∈ ts ↔ u ∈ queue l ∧ ¬ gone u) (hgone : gone t) (hmem : t ∈ queue l)
    (hdisjoint : ∀ l' l'' u, u ∈ queue l' → u ∈ queue l'' → l' = l'') :
    t ∉ Function.update queue l ts l' := by
  by_cases h : l' = l
  · subst h
    simp [hts, hgone]
  · rw [Function.update_of_ne h]
    exact fun hmem' => h (hdisjoint _ _ t hmem' hmem)

end Membership

/-- `block_list` and the waiters of the mutexes: where a `TASK_BLOCKED` task is. -/
def ListPtr.Blocks : ListPtr ℓ → Prop
  | .sleep_list => False
  | _ => True

namespace Sched

/-- The state of a task says which list it is in. -/
def Fits (a : Sched τ ℓ) (t : τ) : Prop :=
  match (a.task t).state with
  | .TASK_READY => a.Free t
  | .TASK_RUNNING => a.Free t
  | .TASK_SLEEPING => t ∈ a.queue .sleep_list
  | .TASK_BLOCKED => ∃ l : ListPtr ℓ, l.Blocks ∧ t ∈ a.queue l
  | _ => False

/-- States and lists agree for every task of the table that is not exempt, and only the running
task is `TASK_RUNNING`. -/
def Settled (exempt : τ → Prop) (a : Sched τ ℓ) : Prop :=
  ∀ t, some t ∈ a.task_table → ¬ exempt t →
    a.Fits t ∧ ((a.task t).state = .TASK_RUNNING → t = a.current)

/-- Between operations the running task is `TASK_RUNNING`. -/
structure Agrees (exempt : τ → Prop) (a : Sched τ ℓ) : Prop where
  settled : a.Settled exempt
  running : some a.current ∈ a.task_table → ¬ exempt a.current →
    (a.task a.current).state = .TASK_RUNNING

variable {exempt : τ → Prop} {a b : Sched τ ℓ} {t : τ}

theorem Fits.congr (hfits : a.Fits t) (hstate : (b.task t).state = (a.task t).state)
    (hmem : ∀ l, t ∈ b.queue l ↔ t ∈ a.queue l) : b.Fits t := by
  simp only [Fits, hstate, Free, hmem] at hfits ⊢
  exact hfits

/-- A ready or running task is in no list. -/
theorem Fits.free (hfits : a.Fits t)
    (hstate : (a.task t).state = .TASK_READY ∨ (a.task t).state = .TASK_RUNNING) : a.Free t := by
  rcases hstate with hstate | hstate <;> rwa [Fits, hstate] at hfits

theorem Fits.mem_sleep_list (hfits : a.Fits t) (hstate : (a.task t).state = .TASK_SLEEPING) :
    t ∈ a.queue .sleep_list := by
  rwa [Fits, hstate] at hfits

theorem Fits.mem_blocks (hfits : a.Fits t) (hstate : (a.task t).state = .TASK_BLOCKED) :
    ∃ l : ListPtr ℓ, l.Blocks ∧ t ∈ a.queue l := by
  rwa [Fits, hstate] at hfits

/-- A task in a list sleeps or blocks, as the list says. -/
theorem Fits.of_mem (hfits : a.Fits t) {l : ListPtr ℓ} (ht : t ∈ a.queue l)
    (hdisjoint : ∀ l', t ∈ a.queue l' → l' = l) :
    (a.task t).state = .TASK_SLEEPING ∧ l = .sleep_list ∨
      (a.task t).state = .TASK_BLOCKED ∧ l.Blocks := by
  cases hstate : (a.task t).state with
  | TASK_READY => exact absurd ht (hfits.free (.inl hstate) l)
  | TASK_RUNNING => exact absurd ht (hfits.free (.inr hstate) l)
  | TASK_SLEEPING => exact .inl ⟨rfl, (hdisjoint _ (hfits.mem_sleep_list hstate)).symm⟩
  | TASK_BLOCKED =>
    obtain ⟨l', hblocks, hmem⟩ := hfits.mem_blocks hstate
    exact .inr ⟨rfl, hdisjoint l' hmem ▸ hblocks⟩
  | TASK_INIT => exact (by simp [Fits, hstate] at hfits)
  | TASK_WAITING => exact (by simp [Fits, hstate] at hfits)
  | TASK_DIED => exact (by simp [Fits, hstate] at hfits)

/-- The running task is in no list. -/
theorem Agrees.free (hagrees : a.Agrees exempt) (hmem : some a.current ∈ a.task_table)
    (hexempt : ¬ exempt a.current) : a.Free a.current :=
  (hagrees.settled a.current hmem hexempt).1.free (.inr (hagrees.running hmem hexempt))

theorem Agrees.mono {exempt' : τ → Prop} (hagrees : a.Agrees exempt) (h : ∀ t, exempt t → exempt' t) :
    a.Agrees exempt' :=
  ⟨fun t ht hexempt => hagrees.settled t ht fun ht => hexempt (h t ht),
    fun hmem hexempt => hagrees.running hmem fun ht => hexempt (h _ ht)⟩

theorem Settled.congr (hsettled : a.Settled exempt) (htable : b.task_table = a.task_table)
    (hcurrent : b.current = a.current) (hstate : ∀ t, (b.task t).state = (a.task t).state)
    (hqueue : b.queue = a.queue) : b.Settled exempt := by
  intro t ht hexempt
  rw [htable] at ht
  obtain ⟨hfits, hrunning⟩ := hsettled t ht hexempt
  exact ⟨hfits.congr (hstate t) fun l => by rw [hqueue], by rw [hstate, hcurrent]; exact hrunning⟩

theorem due_append_asleep (a : Sched τ ℓ) : a.due ++ a.asleep = a.queue .sleep_list :=
  List.takeWhile_append_dropWhile

/-- A sleeper is either due or stays asleep. -/
theorem mem_asleep (hwf : a.WF) : t ∈ a.asleep ↔ t ∈ a.queue .sleep_list ∧ t ∉ a.due := by
  have hnodup := hwf.nodup .sleep_list
  rw [← due_append_asleep, List.nodup_append] at hnodup
  rw [← due_append_asleep, List.mem_append]
  constructor
  · intro ht
    exact ⟨.inr ht, fun hdue => hnodup.2.2 t hdue t ht rfl⟩
  · rintro ⟨ht, hdue⟩
    exact ht.resolve_left hdue

variable [DecidableEq ℓ]

/-- Putting the running task into a list, and giving it the state that fits. -/
theorem Settled.insert (hsettled : a.Settled exempt) {l : ListPtr ℓ} (l₁ : List τ) {l₂ : List τ}
    (hl : a.queue l = l₁ ++ l₂) (htable : b.task_table = a.task_table)
    (hcurrent : b.current = a.current)
    (hstate : ∀ t, t ≠ a.current → (b.task t).state = (a.task t).state)
    (hqueue : b.queue = Function.update a.queue l (l₁ ++ a.current :: l₂))
    (hfits : b.Fits a.current) (hstop : (b.task a.current).state ≠ .TASK_RUNNING) :
    b.Settled exempt := by
  intro t ht hexempt
  rw [htable] at ht
  obtain ⟨hfits', hrunning⟩ := hsettled t ht hexempt
  by_cases htc : t = a.current
  · subst htc
    exact ⟨hfits, fun h => absurd h hstop⟩
  · refine ⟨hfits'.congr (hstate t htc) fun l' => ?_, ?_⟩
    · rw [hqueue]
      exact mem_update_insert hl htc
    · rw [hstate t htc, hcurrent]
      exact hrunning

/-- Taking tasks off a list and making them ready. -/
theorem Settled.remove (hsettled : a.Settled exempt) (hwf : a.WF) {l : ListPtr ℓ} {ts : List τ}
    (gone : τ → Prop) (hts : ∀ u, u ∈ ts ↔ u ∈ a.queue l ∧ ¬ gone u)
    (hgone : ∀ u, gone u → u ∈ a.queue l ∧ (b.task u).state = .TASK_READY)
    (htable : b.task_table = a.task_table) (hcurrent : b.current = a.current)
    (hstate : ∀ t, ¬ gone t → (b.task t).state = (a.task t).state)
    (hqueue : b.queue = Function.update a.queue l ts) : b.Settled exempt := by
  intro t ht hexempt
  rw [htable] at ht
  obtain ⟨hfits, hrunning⟩ := hsettled t ht hexempt
  by_cases htg : gone t
  · obtain ⟨hmem, hready⟩ := hgone t htg
    refine ⟨?_, fun h => by simp [hready] at h⟩
    rw [Fits, hready]
    intro l'
    rw [hqueue]
    exact not_mem_update_remove gone hts htg hmem hwf.disjoint
  · refine ⟨hfits.congr (hstate t htg) fun l' => ?_, ?_⟩
    · rw [hqueue]
      exact mem_update_remove gone hts htg
    · rw [hstate t htg, hcurrent]
      exact hrunning

variable [DecidableEq τ] {op : Op ℓ} {calls : Bool}

theorem clock_settled (hsettled : a.Settled exempt) (hwf : a.WF) : a.clock.Settled exempt := by
  refine hsettled.remove hwf (· ∈ a.due) (fun u => mem_asleep hwf) (fun u hu => ?_)
    (by simp) (by simp) (fun u hu => by simp [hu]) rfl
  exact ⟨due_subset a hu, by simp [hu]⟩

/-- An act keeps states and lists in agreement. -/
theorem Act.settled (hact : a.Act op calls b) (hwf : a.WF) (hagrees : a.Agrees exempt) :
    b.Settled exempt := by
  have hsettled := hagrees.settled
  cases hact with
  | tick hIF hticks => exact clock_settled hsettled hwf
  | expire hIF hticks => exact clock_settled hsettled hwf
  | sleep hthread hfree =>
    refine hsettled.insert (l := .sleep_list) _ List.takeWhile_append_dropWhile.symm rfl rfl
      (fun t ht => by simp [Core.doze, ht]) rfl ?_ (by simp [Core.doze])
    simp [Fits, Core.doze, insert_sleeper]
  | sleep_refused hthread hlinked => exact hsettled.congr rfl rfl (fun t => by simp) rfl
  | test_block hthread hgate hfree =>
    refine hsettled.insert (l := .block_list) [] rfl rfl rfl (fun t ht => by simp [ht]) rfl ?_
      (by simp)
    simp only [Fits, Core.set_state_state, if_true]
    exact ⟨.block_list, trivial, by simp⟩
  | @test_wake u hthread hgate =>
    have hblock := hwf.gate
    rw [hgate, Option.toList_some] at hblock
    refine hsettled.remove hwf (l := .block_list) (· = u) (fun v => ?_) (fun v hv => ?_) rfl rfl
      (fun v hv => by simp [hv]) rfl
    · simp [hblock]
    · simp [hv, hblock]
  | take hentry hvalue =>
    exact hsettled.congr (by simp [Core.take_mutex, hentry.frame])
      (by simp [Core.take_mutex, hentry.frame]) (fun t => by simp [Core.take_mutex, hentry.frame]) rfl
  | @wait _ m _ _ _ hentry hvalue hfree =>
    refine hsettled.insert (l := .waiters m) [] rfl (by simp [Core.wait_mutex, hentry.frame])
      (by simp [Core.wait_mutex, hentry.frame])
      (fun t ht => by simp [Core.wait_mutex, hentry.frame, ht]) rfl ?_
      (by simp [Core.wait_mutex, hentry.frame])
    simp only [Fits, Core.wait_mutex, hentry.frame, Core.set_state_state, if_true]
    exact ⟨.waiters m, trivial, by simp⟩
  | wait_refused hentry hvalue hlinked =>
    exact hsettled.congr (by simp [hentry.frame]) (by simp [hentry.frame])
      (fun t => by simp [hentry.frame]) rfl
  | release_refused hentry hvalue =>
    exact hsettled.congr (by simp [hentry.frame]) (by simp [hentry.frame])
      (fun t => by simp [hentry.frame]) rfl
  | release hentry hvalue hempty =>
    exact hsettled.congr (by simp [Core.free_mutex, hentry.frame])
      (by simp [Core.free_mutex, hentry.frame]) (fun t => by simp [Core.free_mutex, hentry.frame]) rfl
  | @handoff _ m _ _ waiters u hentry hvalue hlast =>
    have hnodup := hwf.nodup (.waiters m)
    rw [hlast, List.nodup_append] at hnodup
    have hu : u ∉ waiters := fun hmem => hnodup.2.2 u hmem u (by simp) rfl
    refine hsettled.remove hwf (l := .waiters m) (· = u) (fun v => ?_) (fun v hv => ?_)
      (by simp [Core.free_mutex, hentry.frame]) (by simp [Core.free_mutex, hentry.frame])
      (fun v hv => by simp [Core.free_mutex, hentry.frame, hv]) rfl
    · rw [hlast, List.mem_append, List.mem_singleton]
      constructor
      · exact fun hv => ⟨.inl hv, fun heq => hu (heq ▸ hv)⟩
      · exact fun hv => hv.1.resolve_right hv.2
    · simp [hv, hlast]
  | spin_lock hstack hpoint =>
    exact hsettled.congr (by simp) (by simp) (fun t => by simp) rfl
  | spin_unlock hstack hpoint =>
    exact hsettled.congr (by simp) (by simp) (fun t => by simp) rfl
  | _ => exact hsettled.congr rfl rfl (fun t => rfl) rfl

/-- An act that keeps the CPU keeps the running task running. -/
theorem Act.agrees (hact : a.Act op false b) (hwf : a.WF) (hagrees : a.Agrees exempt) :
    b.Agrees exempt := by
  refine ⟨hact.settled hwf hagrees, fun hmem hexempt => ?_⟩
  obtain ⟨htable, -, hcurrent, -, -⟩ := hact.frame
  rw [htable, hcurrent] at hmem
  rw [hcurrent] at hexempt ⊢
  have hrunning := hagrees.running hmem hexempt
  have hfree := hagrees.free hmem hexempt
  cases hact with
  | tick hIF hticks =>
    have hdue : a.current ∉ a.due := fun hdue => hfree _ (due_subset a hdue)
    simpa [hdue] using hrunning
  | @test_wake u hthread hgate =>
    have hne : a.current ≠ u := fun heq => hfree .block_list (by simp [hwf.gate, hgate, heq])
    simpa [hne] using hrunning
  | take hentry hvalue => simpa [Core.take_mutex, hentry.frame] using hrunning
  | wait_refused hentry hvalue hlinked => simpa [hentry.frame] using hrunning
  | release_refused hentry hvalue => simpa [hentry.frame] using hrunning
  | release hentry hvalue hempty => simpa [Core.free_mutex, hentry.frame] using hrunning
  | _ => simpa using hrunning

end Sched

/-- The tasks a scheduler may dispatch: a ready one, or the running one if it can go on. -/
def Core.Schedulable (c : Core τ ℓ) (t : τ) : Prop :=
  some t ∈ c.task_table ∧
    ((c.task t).state = .TASK_READY ∨ t = c.current ∧ (c.task t).state = .TASK_RUNNING)

namespace Sched

variable [DecidableEq τ] {exempt : τ → Prop} {b : Sched τ ℓ}

/-- Dispatching a schedulable task brings the running task into agreement as well. -/
theorem Settled.dispatch (hsettled : b.Settled exempt) {next : τ}
    (hnext : ¬ exempt next → b.Schedulable next) :
    Agrees exempt ⟨b.dispatch next, b.queue⟩ := by
  refine ⟨fun t ht hexempt => ?_, fun _ _ => by simp⟩
  simp only [Core.dispatch_frame] at ht
  obtain ⟨hfits, hrunning⟩ := hsettled t ht hexempt
  by_cases htn : t = next
  · subst htn
    have hstate := (b.dispatch_fields t t).2.2.2.1
    rw [if_pos rfl] at hstate
    refine ⟨?_, fun _ => by simp⟩
    -- a schedulable task is in no list
    have hfree : b.Free t := hfits.free ((hnext hexempt).2.imp_right And.right)
    rw [Fits, hstate]
    exact hfree
  · by_cases hstop : t = b.current ∧ (b.task t).state = .TASK_RUNNING
    · have hfree : b.Free t := hfits.free (.inr hstop.2)
      have hstate := (b.dispatch_fields next t).2.2.2.1
      rw [if_neg htn, if_pos hstop] at hstate
      refine ⟨?_, fun h => absurd (hstate.symm.trans h) (by simp)⟩
      rw [Fits, hstate]
      exact hfree
    · have hstate := (b.dispatch_fields next t).2.2.2.1
      rw [if_neg htn, if_neg hstop] at hstate
      have hidle : (b.task t).state ≠ .TASK_RUNNING := fun h => hstop ⟨hrunning h, h⟩
      exact ⟨hfits.congr hstate fun l => Iff.rfl, fun h => absurd (hstate.symm.trans h) hidle⟩

end Sched

end onix
