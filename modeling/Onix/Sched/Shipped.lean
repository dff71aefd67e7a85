import Onix.Sched.Discipline

namespace onix

variable {τ ℓ : Type} [DecidableEq τ] [DecidableEq ℓ]

/-- The kernel's own scheduler run through a list of operations, each of which must pass a test. -/
def run (ok : Core τ ℓ → Op ℓ → Bool) : List (Op ℓ) → Kernel τ ℓ → Option (Kernel τ ℓ)
  | [], s => some s
  | op :: ops, s =>
    if ok s.toCore op then (step (task_search .TASK_READY) op s).bind (run ok ops) else none

/-- A run whose operations pass a test that allows them ends in a reachable state. -/
theorem reachable_run {idle : τ} {tasks : List (τ × u32)} {allowed : Allowed τ ℓ}
    {ok : Core τ ℓ → Op ℓ → Bool}
    (hok : ∀ c op, ok c op = true → allowed c (task_search .TASK_READY) op) {ops : List (Op ℓ)}
    {s s' : Kernel τ ℓ} (hreach : Reachable idle tasks allowed s) (hrun : run ok ops s = some s') :
    Reachable idle tasks allowed s' := by
  induction ops generalizing s with
  | nil =>
    obtain rfl : s = s' := Option.some.inj hrun
    exact hreach
  | cons op ops ih =>
    rw [run] at hrun
    split_ifs at hrun with hop
    obtain ⟨s₁, hstep, hrest⟩ := Option.bind_eq_some_iff.mp hrun
    exact ih (.step hreach ⟨_, op, hok _ _ hop, hstep⟩) hrest

/-- A kernel behind `task_init`: a table of 64 tasks with the idle task 1 and these further tasks, on
the stack of the boot code 0. -/
def booted_kernel (tasks : List (Nat × u32)) : Kernel Nat Nat :=
  run_kernel (task_init 1 tasks)
    (cold 64 0 (fun _ => ⟨.TASK_INIT, 0, 0, 0, 0⟩) fun _ => ⟨none, none⟩)

theorem boots_booted_kernel {tasks : List (Nat × u32)} (hnodup : (0 :: 1 :: tasks.map Prod.fst).Nodup)
    (hslots : tasks.length < 64) : boots 1 tasks (booted_kernel tasks) := by
  refine ⟨64, 0, fun _ => ⟨.TASK_INIT, 0, 0, 0, 0⟩, fun _ => ⟨none, none⟩, hnodup, hslots, ?_⟩
  obtain ⟨s, hrun, -, -⟩ := task_init_run (ℓ := Nat) (fun _ => ⟨.TASK_INIT, 0, 0, 0, 0⟩)
    (fun _ => ⟨none, none⟩) hnodup hslots
  rw [booted_kernel, run_kernel_of_ok hrun]
  exact hrun

/-- The shipped kernel, with the init task 2 and the test task 3. -/
abbrev shipped_kernel : Kernel Nat Nat := booted_kernel (shipped_tasks 2 3)

theorem boots_shipped_kernel : boots 1 (shipped_tasks 2 3) shipped_kernel :=
  boots_booted_kernel (by decide) (by decide)

/-- `set_interrupt_state(true)` in the code of a thread. -/
abbrev enable : Op ℓ := .call (.set_interrupt_state true)

/-- A state that a run of allowed operations behind `task_init` ends in. -/
theorem exists_reachable {tasks : List (Nat × u32)} {allowed : Allowed Nat Nat}
    {ok : Core Nat Nat → Op Nat → Bool} (hboots : boots 1 tasks (booted_kernel tasks))
    (hok : ∀ c op, ok c op = true → allowed c (task_search .TASK_READY) op) (ops : List (Op Nat))
    (check : Kernel Nat Nat → Bool) (hrun : (run ok ops (booted_kernel tasks)).any check = true) :
    ∃ s, Reachable 1 tasks allowed s ∧ check s = true := by
  obtain ⟨s, hs, hcheck⟩ := Option.any_eq_true _ _ |>.mp hrun
  exact ⟨s, reachable_run hok (.init hboots) hs, hcheck⟩

instance (op : Op ℓ) : Decidable (IdleOp op) :=
  match op with
  | .clock => .isTrue trivial
  | .resume => .isTrue trivial
  | .call .yield => .isTrue trivial
  | .call (.set_interrupt_state true) => .isTrue trivial
  | .call (.set_interrupt_state false) => .isFalse id
  | .call (.sleep _) => .isFalse id
  | .call .test => .isFalse id
  | .call (.mutex_lock _) => .isFalse id
  | .call (.mutex_unlock _) => .isFalse id
  | .call (.spin_lock _) => .isFalse id
  | .call (.spin_unlock _) => .isFalse id

/-- The test of an idle task that only yields. -/
def idle_yields (c : Core τ ℓ) (op : Op ℓ) : Bool := c.idel_task = some c.current → IdleOp op

omit [DecidableEq ℓ] in
theorem idle_yields_shipped (c : Core τ ℓ) (op : Op ℓ) (hok : idle_yields c op = true) :
    Shipped c (task_search .TASK_READY) op :=
  ⟨rfl, of_decide_eq_true hok⟩

omit [DecidableEq ℓ] in
theorem idle_yields_disciplined (c : Core τ ℓ) (op : Op ℓ) (hok : idle_yields c op = true) :
    Disciplined c (task_search .TASK_READY) op :=
  (idle_yields_shipped c op hok).disciplined

omit [DecidableEq ℓ] in
theorem idle_yields_unrestricted (c : Core τ ℓ) (op : Op ℓ) (_ : idle_yields c op = true) :
    Unrestricted c (task_search .TASK_READY) op :=
  rfl

end onix
