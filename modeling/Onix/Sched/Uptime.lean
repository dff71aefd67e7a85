import Onix.Sched.SleepQueue

namespace onix

variable {τ ℓ : Type}

/-- The log has grown by the end of a sleep of the task. -/
def Woken (t : τ) (log log' : List (Event τ ℓ)) : Prop :=
  ∃ es, log' = es ++ log ∧ Event.wake t ∈ es

/-- A sleep that has ended between two points of a run ended before or behind any point between. -/
theorem woken_iff {t : τ} {log log' log'' : List (Event τ ℓ)} (hfirst : log <:+ log')
    (hrest : log' <:+ log'') : Woken t log log'' ↔ Woken t log log' ∨ Woken t log' log'' := by
  obtain ⟨es, rfl⟩ := hfirst
  obtain ⟨es', rfl⟩ := hrest
  constructor
  · rintro ⟨es'', hlog, hmem⟩
    rw [← List.append_assoc] at hlog
    rw [← List.append_cancel_right hlog, List.mem_append] at hmem
    exact hmem.symm.imp (fun h => ⟨es, rfl, h⟩) fun h => ⟨es', rfl, h⟩
  · rintro (⟨es'', hlog, hmem⟩ | ⟨es'', hlog, hmem⟩)
    · rw [← List.append_cancel_right hlog] at hmem
      exact ⟨es' ++ es, by simp, by simp [hmem]⟩
    · rw [← List.append_cancel_right hlog] at hmem
      exact ⟨es' ++ es, by simp, by simp [hmem]⟩

theorem Woken.of_append {t : τ} {log log' : List (Event τ ℓ)} (es : List (Event τ ℓ))
    (h : Woken t log log') (hlog : log' = es ++ log) : Event.wake t ∈ es := by
  obtain ⟨es', hlog', hes'⟩ := h
  rwa [← List.append_cancel_right (hlog'.symm.trans hlog)]

variable [DecidableEq τ] [DecidableEq ℓ]

namespace Sched

variable {a b : Sched τ ℓ} {op : Op ℓ} {search : Core τ ℓ → Option τ}

/-- Only clock interrupts count `jiffies`. -/
theorem Step.jiffies (hstep : a.Step search op b) :
    b.jiffies = if op = .clock then a.jiffies + 1 else a.jiffies := by
  have hact' : ∀ {c : Sched τ ℓ} {calls}, a.Act op calls c →
      c.jiffies = if op = .clock then a.jiffies + 1 else a.jiffies := by
    intro c calls hact
    split_ifs with hop
    · subst hop
      obtain ⟨-, rfl, -⟩ := hact.of_clock
      simp
    · rcases hact.time_cases with ⟨hclock, -⟩ | ⟨ms, -, -, -, -, rfl⟩ | ⟨-, -, hjiffies, -⟩
      · exact absurd hclock hop
      · simp [Core.doze]
      · exact hjiffies
  cases hstep with
  | stay hact => exact hact' hact
  | switch hact hsearch => simpa using hact' hact

/-- A sleeper that does not run is woken by a clock interrupt that finds it due, or it sleeps on
with its wake-up time. -/
theorem Step.sleeper (hstep : a.Step search op b) (hwf : a.WF) {t : τ}
    (ht : t ∈ a.queue .sleep_list) (hne : t ≠ a.current) :
    op = .clock ∧ t ∈ a.due ∧ Woken t a.log b.log ∨
      (op = .clock → t ∈ a.asleep) ∧ t ∈ b.queue .sleep_list ∧
        (b.task t).ticks = (a.task t).ticks ∧ ¬ Woken t a.log b.log := by
  have hact' : ∀ {c : Sched τ ℓ} {calls}, a.Act op calls c →
      op = .clock ∧ t ∈ a.due ∧ Woken t a.log c.log ∨
        (op = .clock → t ∈ a.asleep) ∧ t ∈ c.queue .sleep_list ∧
          (c.task t).ticks = (a.task t).ticks ∧ ¬ Woken t a.log c.log := by
    intro c calls hact
    by_cases hclock : op = .clock
    · subst hclock
      obtain ⟨-, rfl, -⟩ := hact.of_clock
      by_cases hdue : t ∈ a.due
      · exact .inl ⟨rfl, hdue, _ :: _, by rw [clock_log]; rfl, by simp [hdue]⟩
      · have hasleep := (mem_asleep hwf).mpr ⟨ht, hdue⟩
        refine .inr ⟨fun _ => hasleep, by simpa using hasleep, by simp [hdue, hne], fun hwoken => ?_⟩
        have hmem := hwoken.of_append (_ :: _) (by rw [clock_log]; rfl)
        simp [hdue] at hmem
    · refine .inr ⟨fun hop => absurd hop hclock, ?_⟩
      rcases hact.time_cases with ⟨hop, -⟩ | ⟨ms, -, -, -, -, rfl⟩ | ⟨⟨es, hlog, hes⟩, hqueue, -, hticks⟩
      · exact absurd hop hclock
      · refine ⟨?_, by simp [Core.doze, hne], fun hwoken => ?_⟩
        · rw [← List.takeWhile_append_dropWhile (p := fun u => (a.task u).ticks ≤ a.wake_time ms)
            (l := a.queue .sleep_list), List.mem_append] at ht
          simpa [insert_sleeper, hne] using ht
        · have hmem := hwoken.of_append [_] rfl
          simp at hmem
      · refine ⟨hqueue ▸ ht, hticks.elim (fun h => h t) fun h => h.2.2 t hne, fun hwoken => ?_⟩
        exact (hes _ (hwoken.of_append es hlog)).elim
  cases hstep with
  | stay hact => exact hact' hact
  | @switch b next hact hsearch =>
    have hcurrent : t ≠ b.current := hact.frame.2.2.1 ▸ hne
    obtain ⟨hop, hdue, hwoken⟩ | ⟨hasleep, hmem, hticks, hwoken⟩ := hact' hact
    · left
      exact ⟨hop, hdue, (woken_iff hact.log_suffix (by simp)).mpr (.inl hwoken)⟩
    · right
      refine ⟨hasleep, hmem, by simp [hcurrent, hticks], fun h => hwoken ?_⟩
      refine ((woken_iff hact.log_suffix (by simp)).mp h).resolve_right fun h => ?_
      have he := h.of_append [_] (by simp only [Core.dispatch_frame]; rfl)
      simp at he

omit [DecidableEq τ] [DecidableEq ℓ] in
/-- Who is still asleep behind a clock interrupt has a later wake-up time than some value of
`jiffies`, so this was not the last. -/
theorem jiffies_lt_of_mem_asleep {t : τ} (ht : t ∈ a.asleep) : a.jiffies.toNat + 1 < 2 ^ 32 := by
  by_contra hlast
  have hall : ∀ u, (a.task u).ticks ≤ a.jiffies := fun u => by
    have := (a.task u).ticks.toNat_lt
    rw [UInt32.le_iff_toNat_le]
    omega
  rw [asleep, List.dropWhile_eq_nil_iff.mpr fun u _ => decide_eq_true (hall u)] at ht
  exact absurd ht List.not_mem_nil

/-- The states and lists of all tasks but the idle task agree. -/
structure Coherent (idle : τ) (a : Sched τ ℓ) : Prop where
  idel_task : a.idel_task = some idle
  agrees : a.Agrees (· = idle)

variable {idle : τ}

theorem Step.coherent (hstep : a.Step (task_search .TASK_READY) op b) (hwf : a.WF)
    (h : a.Coherent idle) : b.Coherent idle :=
  ⟨hstep.frame.2.trans h.idel_task, hstep.agrees_but_idle hwf h.idel_task h.agrees⟩

/-- A task other than the idle task that calls `task_sleep` is put on the sleep list. -/
theorem Step.sleep {ms : u32} (hstep : a.Step search (.call (.sleep ms)) b)
    (h : a.Coherent idle) (hne : a.current ≠ idle) :
    a.current ∈ b.queue .sleep_list ∧ ¬ Woken a.current a.log b.log ∧
      (a.wake_time ms ≠ 0 → (b.task a.current).ticks = a.wake_time ms) := by
  have hmem : some a.current ∈ a.task_table → a.Free a.current := fun hmem => h.agrees.free hmem hne
  cases hstep with
  | stay hact =>
    cases hact with
    | sleep_refused hthread hlinked => exact absurd (hmem hthread.2) hlinked
    | take hentry hvalue => cases hentry
    | wait_refused hentry hvalue hlinked => cases hentry
    | release_refused hentry hvalue => cases hentry
    | release hentry hvalue hempty => cases hentry
  | @switch b next hact hsearch =>
    cases hact with
    | sleep hthread hfree =>
      refine ⟨by simp [insert_sleeper], fun hwoken => ?_, fun hzero => ?_⟩
      · have he := hwoken.of_append [_, _] (by simp only [Core.dispatch_frame]; rfl)
        simp at he
      · have hwake : a.gate.wake_time ms = a.wake_time ms := rfl
        simp [Core.doze, hwake, hzero]
    | wait hentry hvalue hfree => cases hentry
    | handoff hentry hvalue hlast => cases hentry

end Sched

/-- Between operations of the running kernel, whatever `jiffies` and the wake-up times are: some
abstract state says what the lists hold, and states and lists agree but for the idle task. -/
def Lawful (idle : τ) (s : Kernel τ ℓ) : Prop := ∃ a, Holds (Sched.Coherent idle) s a

theorem lawful_of_reachable {idle : τ} {tasks : List (τ × u32)} {s : Kernel τ ℓ}
    (hreach : Reachable idle tasks Unrestricted s) : Lawful idle s :=
  reachable_invariant (Sched.Coherent idle) (fun _ _ _ h => h ▸ task_search_sound)
    (fun _ _ hbooted => ⟨hbooted.idel_task, hbooted.regular.agrees.mono fun _ h => h.elim⟩)
    (fun a b search op hwf h hallowed hstep => by
      obtain rfl : search = task_search .TASK_READY := hallowed
      exact hstep.coherent hwf h) hreach

omit [DecidableEq τ] [DecidableEq ℓ] in
/-- A kernel that has been up for any other time. -/
theorem Lawful.set_jiffies {idle : τ} {s : Kernel τ ℓ} (h : Lawful idle s) (jiffies : u32) :
    Lawful idle { s with jiffies } := by
  obtain ⟨a, ⟨hcore, hrep⟩, hwf, hcoherent⟩ := h
  refine ⟨⟨{ a.toCore with jiffies }, a.queue⟩, ⟨by simp [hcore], hrep⟩, ?_, ?_⟩
  · exact hwf.imp (fun h => { h with }) id
  · exact ⟨hcoherent.idel_task, ⟨hcoherent.agrees.settled, hcoherent.agrees.running⟩⟩

variable {ok : Core τ ℓ → Op ℓ → Bool}

theorem run_log_suffix {idle : τ} {ops : List (Op ℓ)} {s s' : Kernel τ ℓ} {a : Sched τ ℓ}
    (h : Holds (Sched.Coherent idle) s a) (hrun : run ok ops s = some s') : s.log <:+ s'.log := by
  induction ops generalizing s a with
  | nil =>
    obtain rfl : s = s' := Option.some.inj hrun
    exact List.suffix_refl _
  | cons op ops ih =>
    rw [run] at hrun
    split_ifs at hrun
    obtain ⟨s₁, hstep, hrest⟩ := Option.bind_eq_some_iff.mp hrun
    obtain ⟨hwf, b, hab, href, hwf'⟩ := h.step task_search_sound hstep
    refine List.IsSuffix.trans ?_ (ih ⟨href, hwf', hab.coherent hwf h.inv⟩ hrest)
    rw [h.refines.core, href.core]
    exact hab.log_suffix

/-- A sleeper is woken by a clock interrupt at which `jiffies` has reached its wake-up time, and by
the last one before `jiffies` wraps at the latest. -/
theorem run_sleeper {idle t : τ} (hne : t ≠ idle) {ops : List (Op ℓ)} {s s' : Kernel τ ℓ} {a : Sched τ ℓ}
    (h : Holds (Sched.Coherent idle) s a) (hmem : some t ∈ a.task_table)
    (ht : t ∈ a.queue .sleep_list) (hrun : run ok ops s = some s') :
    (Woken t s.log s'.log ∧ ∃ m < ops.count .clock, (a.task t).ticks.toNat ≤ a.jiffies.toNat + m) ∨
      ¬ Woken t s.log s'.log ∧ (s'.task t).state = .TASK_SLEEPING ∧
        a.jiffies.toNat + ops.count .clock < 2 ^ 32 := by
  induction ops generalizing s a with
  | nil =>
    obtain rfl : s = s' := Option.some.inj hrun
    refine .inr ⟨fun hwoken => by simpa using hwoken.of_append [] rfl, ?_,
      by simpa using a.jiffies.toNat_lt⟩
    have hfits := (h.inv.agrees.settled t hmem hne).1
    rw [h.refines.core]
    rcases hfits.of_mem ht fun l hl => h.refines.represents.disjoint _ _ t hl ht with hstate | hstate
    · exact hstate.1
    · exact hstate.2.elim
  | cons op ops ih =>
    rw [run] at hrun
    split_ifs at hrun
    obtain ⟨s₁, hstep, hrest⟩ := Option.bind_eq_some_iff.mp hrun
    obtain ⟨hwf, b, hab, href, hwf'⟩ := h.step task_search_sound hstep
    have htc : t ≠ a.current := by
      rintro rfl
      exact h.inv.agrees.free hmem hne _ ht
    have hb : Holds (Sched.Coherent idle) s₁ b := ⟨href, hwf', hab.coherent hwf h.inv⟩
    have hgrow : s.log <:+ s₁.log := by
      rw [h.refines.core, href.core]
      exact hab.log_suffix
    rw [woken_iff hgrow (run_log_suffix hb hrest)]
    rcases hab.sleeper hwf ht htc with ⟨rfl, hdue, hwoken⟩ | ⟨hasleep, ht', hticks, hwoken⟩
    · rw [← h.refines.core, ← href.core] at hwoken
      refine .inl ⟨.inl hwoken, 0, by simp, ?_⟩
      simpa using UInt32.le_iff_toNat_le.mp (Sched.ticks_le_of_mem_due hdue)
    · rw [← h.refines.core, ← href.core] at hwoken
      -- the clock interrupt at the last value of `jiffies` leaves nobody asleep
      have hjiffies : b.jiffies.toNat = a.jiffies.toNat + [op].count .clock := by
        rw [hab.jiffies]
        split_ifs with hop
        · subst hop
          have hlt := Sched.jiffies_lt_of_mem_asleep (hasleep rfl)
          rw [UInt32.toNat_add]
          simp only [UInt32.toNat_one, List.count_singleton_self]
          omega
        · simp [hop]
      have hcount : (op :: ops).count .clock = [op].count .clock + ops.count .clock := by
        rw [← List.count_append, List.singleton_append]
      rw [hcount, ← Nat.add_assoc, ← hjiffies]
      obtain ⟨hlater, m, hm, hle⟩ | ⟨hlater, hstate, hlt⟩ := ih hb (hab.frame.1 ▸ hmem) ht' hrest
      · left
        rw [hticks] at hle
        exact ⟨.inr hlater, [op].count .clock + m, by omega, by omega⟩
      · right
        exact ⟨fun h => h.elim hwoken hlater, hstate, hlt⟩

/-- The least number of clock interrupts that `task_sleep(ms)` asks for. -/
theorem sleep_ticks_toNat (ms : u32) : (sleep_ticks ms).toNat = max 1 (ms / jiffy).toNat := by
  rw [sleep_ticks]
  split_ifs with h
  · have hpos := UInt32.lt_iff_toNat_lt.mp h
    rw [UInt32.toNat_zero] at hpos
    omega
  · have hzero : ¬ 0 < (ms / jiffy).toNat := fun hpos => h (UInt32.lt_iff_toNat_lt.mpr hpos)
    rw [UInt32.toNat_one]
    omega

/-- A sleep ends early exactly when its wake-up time leaves the range of `jiffies`. Otherwise it
lasts for as many clock interrupts as it should, in every run that goes on from there. -/
theorem sleep_early_iff {idle : τ} {s s' : Kernel τ ℓ} (hlawful : Lawful idle s)
    (hne : s.current ≠ idle) {ms : u32} {ops : List (Op ℓ)}
    (hrun : run (fun _ _ => true) (.call (.sleep ms) :: ops) s = some s') :
    (s.jiffies.toNat + max 1 (ms / jiffy).toNat < 2 ^ 32 → ops.count .clock ≤ max 1 (ms / jiffy).toNat →
        ¬ Woken s.current s.log s'.log ∧ (s'.task s.current).state = .TASK_SLEEPING) ∧
      (ops.count .clock = max 1 (ms / jiffy).toNat →
        (¬ Woken s.current s.log s'.log ↔ s.jiffies.toNat + max 1 (ms / jiffy).toNat < 2 ^ 32)) := by
  rw [← sleep_ticks_toNat]
  obtain ⟨a, h⟩ := hlawful
  rw [run, if_pos rfl] at hrun
  obtain ⟨s₁, hstep, hrest⟩ := Option.bind_eq_some_iff.mp hrun
  obtain ⟨hwf, b, hab, href, hwf'⟩ := h.step task_search_sound hstep
  have hcore := h.refines.core
  rw [hcore] at hne ⊢
  obtain ⟨hmem, hwoken, hticks⟩ := hab.sleep h.inv hne
  have hb : Holds (Sched.Coherent idle) s₁ b := ⟨href, hwf', hab.coherent hwf h.inv⟩
  have hgrow : a.log <:+ s₁.log := by
    rw [href.core]
    exact hab.log_suffix
  have hsleeper := run_sleeper hne hb (hab.member hwf hmem) hmem hrest
  rw [(by simpa using hab.jiffies : b.jiffies = a.jiffies)] at hsleeper
  rw [← href.core] at hwoken
  rw [woken_iff hgrow (run_log_suffix hb hrest), or_iff_right hwoken]
  have hpos := Sched.sleep_ticks_pos ms
  have hin : a.jiffies.toNat + (sleep_ticks ms).toNat < 2 ^ 32 → ops.count .clock ≤ (sleep_ticks ms).toNat →
      ¬ Woken a.current s₁.log s'.log ∧ (s'.task a.current).state = .TASK_SLEEPING := by
    intro hrange hcount
    have hwake : (a.wake_time ms).toNat = a.jiffies.toNat + (sleep_ticks ms).toNat := by
      rw [Core.wake_time, UInt32.toNat_add, Nat.mod_eq_of_lt hrange]
    have hzero : a.wake_time ms ≠ 0 := fun hzero => by
      rw [hzero, UInt32.toNat_zero] at hwake
      omega
    rw [hticks hzero, hwake] at hsleeper
    rcases hsleeper with ⟨-, m, hm, hle⟩ | ⟨hno, hstate, -⟩
    · omega
    · exact ⟨hno, hstate⟩
  refine ⟨hin, fun hcount => ⟨fun hno => ?_, fun hrange => (hin hrange hcount.le).1⟩⟩
  rw [← hcount]
  exact (hsleeper.resolve_left fun h => hno h.1).2.2

/-- The shipped kernel in the init task, up for as long as `jiffies` can count. -/
theorem exists_old_kernel (check : Kernel Nat Nat → Bool)
    (hcheck : (run idle_yields [enable, .clock] shipped_kernel).any (fun s =>
      check { s with jiffies := 4294967295 }) = true) :
    ∃ s, Lawful 1 s ∧ s.jiffies = 4294967295 ∧ check s = true := by
  obtain ⟨s, hreach, hcheck⟩ := exists_reachable boots_shipped_kernel idle_yields_unrestricted _ _ hcheck
  exact ⟨_, (lawful_of_reachable hreach).set_jiffies _, rfl, hcheck⟩

/-- A sleep of twenty milliseconds that starts at the last value of `jiffies` ends with the first
clock interrupt, not behind the second. -/
theorem sleep_ends_early : ∃ s s' : Kernel Nat Nat, Lawful 1 s ∧ s.current ≠ 1 ∧
    run (fun _ _ => true) [.call (.sleep 20), enable, .clock] s = some s' ∧
      [enable (ℓ := Nat), .clock].count .clock < max 1 ((20 : u32) / jiffy).toNat ∧
        Woken s.current s.log s'.log := by
  obtain ⟨s, hlawful, -, hcheck⟩ := exists_old_kernel (fun s => s.current = 2 ∧
    (s.log.any fun e => match e with | .wake 2 => true | _ => false) = false ∧
    (run (fun _ _ => true) [.call (.sleep 20), enable, .clock] s).any fun s' =>
      s'.log.any fun e => match e with | .wake 2 => true | _ => false) (by decide +kernel)
  obtain ⟨hcurrent, hbefore, hrun⟩ := of_decide_eq_true hcheck
  obtain ⟨s', hrun, hbehind⟩ := Option.any_eq_true _ _ |>.mp hrun
  refine ⟨s, s', hlawful, by rw [hcurrent]; decide, hrun, by decide, ?_⟩
  obtain ⟨a, h⟩ := hlawful
  obtain ⟨es, hlog⟩ := run_log_suffix h hrun
  refine ⟨es, hlog.symm, ?_⟩
  rw [← hlog, List.any_append, hbefore, Bool.or_false] at hbehind
  obtain ⟨e, he, hwake⟩ := List.any_eq_true.mp hbehind
  split at hwake
  · exact hcurrent ▸ he
  · exact absurd hwake (by simp)

/-- Both parts at a sleep of twenty milliseconds and two clock interrupts. -/
theorem sleep_early_iff_shipped : ∃ s s' : Kernel Nat Nat, Lawful 1 s ∧ s.current ≠ 1 ∧
    s.jiffies.toNat + max 1 ((20 : u32) / jiffy).toNat < 2 ^ 32 ∧
    run (fun _ _ => true) [.call (.sleep 20), enable, .clock, .resume, .clock] s = some s' ∧
      ¬ Woken s.current s.log s'.log := by
  obtain ⟨s, hreach, hcheck⟩ := exists_reachable boots_shipped_kernel idle_yields_unrestricted [enable, .clock]
    (fun s => s.current = 2 ∧ s.jiffies = 1 ∧
      (run (fun _ _ => true) [.call (.sleep 20), enable, .clock, .resume, .clock] s).isSome)
    (by decide +kernel)
  obtain ⟨hcurrent, hjiffies, hrun⟩ := of_decide_eq_true hcheck
  obtain ⟨s', hrun⟩ := Option.isSome_iff_exists.mp hrun
  have hne : s.current ≠ 1 := by
    rw [hcurrent]
    decide
  have hrange : s.jiffies.toNat + max 1 ((20 : u32) / jiffy).toNat < 2 ^ 32 := by
    rw [hjiffies]
    decide
  have hlawful := lawful_of_reachable hreach
  exact ⟨s, s', hlawful, hne, hrange, hrun,
    ((sleep_early_iff hlawful hne hrun).2 (by decide)).mpr hrange⟩

end onix
