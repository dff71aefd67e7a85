import Mathlib.Data.List.TakeWhile
import Onix.Library.TimerQueue
import Onix.Sched.Shipped

open DoublyLinked TimerQueue

namespace onix

variable {τ ℓ : Type}

/-- The tasks whose sleep has not ended, with the wake-up times that their calls of `task_sleep`
recorded, in the order of these calls. -/
def sleepers [DecidableEq τ] : List (Event τ ℓ) → List (τ × Nat)
  | [] => []
  | .sleep t ticks :: log => sleepers log ++ [(t, ticks.toNat)]
  | .wake t :: log => (sleepers log).filter (·.1 ≠ t)
  | _ :: log => sleepers log

section Log

variable [DecidableEq τ] {log : List (Event τ ℓ)}

theorem sleepers_append_lock {u : τ} {es : List (Event τ ℓ)} (hes : ∀ e ∈ es, e.OfLock u) :
    sleepers (es ++ log) = sleepers log := by
  induction es with
  | nil => rfl
  | cons e es ih =>
    have he := hes e (by simp)
    have ih := ih fun f hf => hes f (by simp [hf])
    cases e <;> first | exact he.elim | simpa [sleepers] using ih

theorem sleepers_wakes (ts : List τ) :
    sleepers ((ts.map Event.wake).reverse ++ log) = (sleepers log).filter (·.1 ∉ ts) := by
  induction ts generalizing log with
  | nil => simp
  | cons t ts ih =>
    simp only [List.map_cons, List.reverse_cons, List.append_assoc, List.singleton_append, ih, sleepers,
      List.filter_filter, List.mem_cons, not_or]
    refine List.filter_congr fun e _ => ?_
    by_cases ht : e.1 = t <;> by_cases hts : e.1 ∈ ts <;> simp [ht, hts]

end Log

namespace Sched

/-- The sleep list with the wake-up times that the tasks hold in their `ticks`. -/
def alarms (a : Sched τ ℓ) : List (τ × Nat) :=
  (a.queue .sleep_list).map fun t => (t, (a.task t).ticks.toNat)

variable {a b : Sched τ ℓ} {t : τ}

theorem mem_alarms {w : Nat} : (t, w) ∈ a.alarms ↔ t ∈ a.queue .sleep_list ∧ (a.task t).ticks.toNat = w := by
  rw [alarms, List.mem_map]
  constructor
  · rintro ⟨u, hu, heq⟩
    obtain ⟨rfl, rfl⟩ := Prod.mk.inj heq
    exact ⟨hu, rfl⟩
  · rintro ⟨ht, rfl⟩
    exact ⟨t, ht, rfl⟩

/-- The tasks that stay asleep are those whose alarm is behind the due ones. -/
theorem map_asleep (a : Sched τ ℓ) :
    (a.asleep.map fun t => (t, (a.task t).ticks.toNat)) = a.alarms.dropWhile (·.2 ≤ a.jiffies.toNat) := by
  rw [alarms, List.dropWhile_map]
  rfl

/-- A due task has reached its wake-up time, also on a sleep list in disorder. -/
theorem ticks_le_of_mem_due (ht : t ∈ a.due) : (a.task t).ticks ≤ a.jiffies := by
  simpa using List.mem_takeWhile_imp ht

variable [DecidableEq τ]

/-- What holds of the sleep list while no wake-up time leaves the range of `jiffies`. -/
structure OnTime (a : Sched τ ℓ) : Prop where
  in_order : InOrder a.alarms (sleepers a.log)
  ahead : ∀ t ∈ a.queue .sleep_list, a.jiffies ≤ (a.task t).ticks ∧ (a.task t).ticks ≠ 0

/-- On a sleep list in order all tasks that have reached their wake-up time are due. -/
theorem OnTime.mem_due (h : a.OnTime) :
    t ∈ a.due ↔ t ∈ a.queue .sleep_list ∧ (a.task t).ticks ≤ a.jiffies := by
  refine ⟨fun ht => ⟨due_subset a ht, ticks_le_of_mem_due ht⟩, fun ⟨ht, hticks⟩ => ?_⟩
  rw [← due_append_asleep, List.mem_append] at ht
  refine ht.resolve_right fun hasleep => ?_
  have hmem : (t, (a.task t).ticks.toNat) ∈ a.alarms.dropWhile (·.2 ≤ a.jiffies.toNat) := by
    rw [← map_asleep]
    exact List.mem_map_of_mem hasleep
  rw [dropWhile_eq_filter h.in_order.sorted, List.mem_filter] at hmem
  have hlt : a.jiffies.toNat < (a.task t).ticks.toNat := by simpa using hmem.2
  have hle := UInt32.le_iff_toNat_le.mp hticks
  omega

/-- A dispatch only refills a used up slice, and no wake-up time of a sleeper is zero. -/
theorem OnTime.dispatch (h : b.OnTime) {next : τ} : OnTime ⟨b.dispatch next, b.queue⟩ := by
  have hticks : ∀ t ∈ b.queue .sleep_list, ((b.dispatch next).task t).ticks = (b.task t).ticks := by
    intro t ht
    simp [(h.ahead t ht).2]
  have halarms : alarms ⟨b.dispatch next, b.queue⟩ = b.alarms :=
    List.map_congr_left fun t ht => by rw [hticks t ht]
  refine ⟨?_, fun t ht => ?_⟩
  · rw [halarms]
    simpa [sleepers] using h.in_order
  · rw [hticks t ht]
    simpa using h.ahead t ht

theorem sleep_ticks_pos (ms : u32) : 0 < (sleep_ticks ms).toNat := by
  rw [sleep_ticks]
  split_ifs with h
  · simpa using UInt32.lt_iff_toNat_lt.mp h
  · decide

/-- `task_sleep` puts the running task behind the sleepers that wake no later. -/
theorem OnTime.doze (h : a.OnTime) {ms : u32}
    (hrange : a.jiffies.toNat + (sleep_ticks ms).toNat < 2 ^ 32)
    (hcurrent : a.current ∉ a.queue .sleep_list) {queue : ListPtr ℓ → List τ}
    (hqueue : queue .sleep_list = a.insert_sleeper a.current (a.wake_time ms)) :
    OnTime ⟨a.gate.doze ms, queue⟩ := by
  have hpos := sleep_ticks_pos ms
  have hwake : (a.wake_time ms).toNat = a.jiffies.toNat + (sleep_ticks ms).toNat := by
    rw [Core.wake_time, UInt32.toNat_add, Nat.mod_eq_of_lt hrange]
  have hself : ((a.gate.doze ms).task a.current).ticks = a.wake_time ms := by
    simp [Core.doze, Core.wake_time]
  have hticks : ∀ t ∈ a.queue .sleep_list, ((a.gate.doze ms).task t).ticks = (a.task t).ticks := by
    intro t ht
    have hne : t ≠ a.current := fun heq => hcurrent (heq ▸ ht)
    simp [Core.doze, hne]
  refine ⟨?_, fun t ht => ?_⟩
  · have halarms : alarms ⟨a.gate.doze ms, queue⟩ =
        insert a.alarms (a.current, (a.wake_time ms).toNat) := by
      have hmap : ∀ ts ⊆ a.queue .sleep_list, (ts.map fun t => (t, ((a.gate.doze ms).task t).ticks.toNat)) =
          ts.map fun t => (t, (a.task t).ticks.toNat) := fun ts hts =>
        List.map_congr_left fun t ht => by rw [hticks t (hts ht)]
      simp only [alarms, hqueue, insert_sleeper, List.map_append, List.map_cons, hself,
        hmap _ (List.takeWhile_subset _), hmap _ (List.dropWhile_sublist _).subset, TimerQueue.insert,
        List.takeWhile_map, List.dropWhile_map]
      rfl
    rw [halarms]
    exact h.in_order.insert _
  · simp only [hqueue, insert_sleeper, List.mem_append, List.mem_cons] at ht
    rcases ht with ht | rfl | ht
    · have ht := List.takeWhile_subset _ ht
      rw [hticks t ht]
      exact h.ahead t ht
    · rw [hself]
      refine ⟨UInt32.le_iff_toNat_le.mpr (by simp [hwake, Core.doze]), fun hzero => ?_⟩
      rw [hzero] at hwake
      simp only [UInt32.toNat_zero] at hwake
      omega
    · have ht := (List.dropWhile_sublist _).subset ht
      rw [hticks t ht]
      exact h.ahead t ht

variable [DecidableEq ℓ]

/-- A clock interrupt ends the sleeps whose wake-up time `jiffies` has reached. -/
theorem OnTime.sleepers_clock (h : a.OnTime) :
    sleepers a.clock.log = (sleepers a.log).filter (a.jiffies.toNat < ·.2) := by
  have hlog : sleepers a.clock.log = sleepers ((a.due.map Event.wake).reverse ++ a.log) := by
    rw [clock_log]
    rfl
  rw [hlog, sleepers_wakes]
  refine List.filter_congr fun ⟨t, w⟩ he => ?_
  obtain ⟨ht, rfl⟩ := mem_alarms.mp ((h.in_order.mem_iff _).mpr he)
  rw [decide_eq_decide, h.mem_due]
  simp [ht, UInt32.le_iff_toNat_le]

theorem OnTime.clock (h : a.OnTime) (hwf : a.WF) (hcurrent : a.current ∉ a.queue .sleep_list) :
    a.clock.OnTime := by
  have hticks : ∀ t ∈ a.asleep, (a.clock.task t).ticks = (a.task t).ticks := by
    intro t ht
    have hdue := ((mem_asleep hwf).mp ht).2
    have hne : t ≠ a.current := fun heq => hcurrent (heq ▸ asleep_subset a ht)
    simp [hdue, hne]
  have halarms : a.clock.alarms = a.alarms.dropWhile (·.2 ≤ a.jiffies.toNat) := by
    rw [← map_asleep, alarms, a.clock_frame.2.2.2.2.2.2.2.2, Function.update_self]
    exact List.map_congr_left fun t ht => by rw [hticks t ht]
  refine ⟨?_, fun t ht => ?_⟩
  · rw [halarms, h.sleepers_clock]
    exact h.in_order.expire _
  · have ht : t ∈ a.asleep := by simpa using ht
    obtain ⟨hmem, hdue⟩ := (mem_asleep hwf).mp ht
    rw [hticks t ht]
    refine ⟨?_, (h.ahead t hmem).2⟩
    have hlater : a.jiffies < (a.task t).ticks :=
      UInt32.not_le.mp fun hle => hdue (h.mem_due.mpr ⟨hmem, hle⟩)
    have hlt := UInt32.lt_iff_toNat_lt.mp hlater
    rw [a.clock_frame.2.2.2.2.1, UInt32.le_iff_toNat_le, UInt32.toNat_add]
    have := (a.task t).ticks.toNat_lt
    simp only [UInt32.toNat_one]
    omega

variable {op : Op ℓ} {calls : Bool}

omit [DecidableEq ℓ] in
theorem Timeless.on_time (htime : Timeless a b calls) (hcurrent : a.current ∉ a.queue .sleep_list)
    (h : a.OnTime) : b.OnTime := by
  obtain ⟨⟨es, hlog, hes⟩, hqueue, hjiffies, hticks⟩ := htime
  have hsame : ∀ t ∈ a.queue .sleep_list, (b.task t).ticks = (a.task t).ticks := by
    intro t ht
    have hne : t ≠ a.current := fun heq => hcurrent (heq ▸ ht)
    exact hticks.elim (fun h => h t) fun h => h.2.2 t hne
  have halarms : b.alarms = a.alarms := by
    rw [alarms, hqueue]
    exact List.map_congr_left fun t ht => by rw [hsame t ht]
  refine ⟨?_, fun t ht => ?_⟩
  · rw [halarms, hlog, sleepers_append_lock hes]
    exact h.in_order
  · rw [hqueue] at ht
    rw [hsame t ht, hjiffies]
    exact h.ahead t ht

theorem Act.on_time (hact : a.Act op calls b) (hwf : a.WF)
    (hrange : ∀ ms, op = .call (.sleep ms) → a.jiffies.toNat + (sleep_ticks ms).toNat < 2 ^ 32)
    (hcurrent : a.current ∉ a.queue .sleep_list) (h : a.OnTime) : b.OnTime := by
  rcases hact.time_cases with ⟨-, rfl⟩ | ⟨ms, hop, -, -, -, rfl⟩ | htime
  · exact h.clock hwf hcurrent
  · exact h.doze (hrange ms hop) hcurrent (by simp)
  · exact htime.on_time hcurrent h

/-- Only a call of `task_sleep` puts a task on the sleep list. -/
theorem Act.sleep_list_mem (hact : a.Act op calls b) (ht : t ∈ b.queue .sleep_list) :
    t ∈ a.queue .sleep_list ∨ t = a.current ∧ ∃ ms, op = .call (.sleep ms) := by
  rcases hact.time_cases with ⟨-, rfl⟩ | ⟨ms, hop, -, -, -, rfl⟩ | ⟨-, hqueue, -, -⟩
  · exact .inl (asleep_subset a (by simpa using ht))
  · simp only [Function.update_self, insert_sleeper, List.mem_append, List.mem_cons] at ht
    rcases ht with ht | ht | ht
    · exact .inl (List.takeWhile_subset _ ht)
    · exact .inr ⟨ht, ms, hop⟩
    · exact .inl ((List.dropWhile_sublist _).subset ht)
  · exact .inl (hqueue ▸ ht)

/-- Only a call of `task_sleep` makes a task sleep. -/
theorem Act.sleeping (hact : a.Act op calls b) (hstate : (b.task t).state = .TASK_SLEEPING) :
    (a.task t).state = .TASK_SLEEPING ∨ t = a.current ∧ ∃ ms, op = .call (.sleep ms) := by
  cases hact with
  | tick hIF hticks =>
    refine .inl ?_
    by_cases hdue : t ∈ a.due <;> simp_all
  | expire hIF hticks =>
    refine .inl ?_
    by_cases hdue : t ∈ a.due <;> simp_all
  | @sleep ms hthread hfree =>
    by_cases ht : t = a.current
    · exact .inr ⟨ht, ms, rfl⟩
    · exact .inl (by simpa [Core.doze, ht] using hstate)
  | test_block hthread hgate hfree =>
    refine .inl ?_
    by_cases ht : t = a.current <;> simp_all
  | @test_wake u hthread hgate =>
    refine .inl ?_
    by_cases ht : t = u <;> simp_all
  | take hentry hvalue => exact .inl (by simpa [Core.take_mutex, hentry.frame] using hstate)
  | wait hentry hvalue hfree =>
    refine .inl ?_
    by_cases ht : t = a.current <;> simp_all [Core.wait_mutex, hentry.frame]
  | wait_refused hentry hvalue hlinked => exact .inl (by simpa [hentry.frame] using hstate)
  | release_refused hentry hvalue => exact .inl (by simpa [hentry.frame] using hstate)
  | release hentry hvalue hempty =>
    exact .inl (by simpa [Core.free_mutex, hentry.frame] using hstate)
  | @handoff _ m _ _ _ u hentry hvalue hlast =>
    refine .inl ?_
    by_cases ht : t = u <;> simp_all [Core.free_mutex, hentry.frame]
  | _ => exact .inl (by simpa using hstate)

end Sched

/-- The kernel runs with its own search, the idle task does not sleep, and no wake-up time leaves
the range of `jiffies`. -/
structure InRange [DecidableEq τ] (c : Core τ ℓ) (search : Core τ ℓ → Option τ) (op : Op ℓ) : Prop where
  search_eq : search = task_search .TASK_READY
  idle : c.idel_task = some c.current → ∀ ms, op ≠ .call (.sleep ms)
  range : ∀ ms, op = .call (.sleep ms) → c.jiffies.toNat + (sleep_ticks ms).toNat < 2 ^ 32

namespace Sched

variable [DecidableEq τ]

/-- The states and lists of all tasks agree but for an idle task that does not sleep, and the sleep
list is on time. -/
structure Restful (idle : τ) (a : Sched τ ℓ) : Prop where
  idel_task : a.idel_task = some idle
  member : ∀ l t, t ∈ a.queue l → some t ∈ a.task_table
  agrees : a.Agrees (· = idle)
  awake : idle ∉ a.queue .sleep_list ∧ (a.task idle).state ≠ .TASK_SLEEPING
  on_time : a.OnTime

variable {a b : Sched τ ℓ} {idle : τ}

theorem Restful.current_notMem (h : a.Restful idle) : a.current ∉ a.queue .sleep_list := by
  intro hmem
  by_cases hidle : a.current = idle
  · exact h.awake.1 (hidle ▸ hmem)
  · exact h.agrees.free (h.member _ _ hmem) hidle _ hmem

variable [DecidableEq ℓ] {op : Op ℓ}

theorem Step.restful {search : Core τ ℓ → Option τ} (hstep : a.Step search op b) (hwf : a.WF)
    (hallowed : InRange a.toCore search op) (h : a.Restful idle) : b.Restful idle := by
  obtain ⟨rfl, hidle, hrange⟩ := hallowed
  have hcurrent := h.current_notMem
  have hact' : ∀ {c : Sched τ ℓ} {calls}, a.Act op calls c →
      (idle ∉ c.queue .sleep_list ∧ (c.task idle).state ≠ .TASK_SLEEPING) ∧ c.OnTime := by
    intro c calls hact
    have hno : ∀ ms, idle = a.current → op ≠ .call (.sleep ms) := fun ms heq =>
      hidle (heq ▸ h.idel_task) ms
    refine ⟨⟨fun hmem => ?_, fun hstate => ?_⟩, hact.on_time hwf hrange hcurrent h.on_time⟩
    · rcases hact.sleep_list_mem hmem with hmem | ⟨heq, ms, hop⟩
      · exact h.awake.1 hmem
      · exact hno ms heq hop
    · rcases hact.sleeping hstate with hstate | ⟨heq, ms, hop⟩
      · exact h.awake.2 hstate
      · exact hno ms heq hop
  obtain ⟨hawake, hon⟩ : (idle ∉ b.queue .sleep_list ∧ (b.task idle).state ≠ .TASK_SLEEPING) ∧
      b.OnTime := by
    cases hstep with
    | stay hact => exact hact' hact
    | @switch b next hact hsearch =>
      obtain ⟨hawake, hon⟩ := hact' hact
      refine ⟨⟨hawake.1, ?_⟩, hon.dispatch⟩
      simp only [Core.dispatch_fields]
      split_ifs <;> simp [hawake.2]
  exact ⟨hstep.frame.2.trans h.idel_task, fun l t ht => hstep.member hwf ht,
    hstep.agrees_but_idle hwf h.idel_task h.agrees, hawake, hon⟩

omit [DecidableEq ℓ] in
theorem Booted.restful {tasks : List (τ × u32)} (h : a.Booted idle tasks) : a.Restful idle := by
  refine ⟨h.idel_task, h.regular.member, h.regular.agrees.mono fun t ht => ht.elim, ⟨by simp [h.queue], ?_⟩, ?_, ?_⟩
  · rw [h.task idle 1 (by simp)]
    simp [created]
  · simpa [alarms, h.queue, h.log, sleepers] using InOrder.nil
  · simp [h.queue]

end Sched

end onix
