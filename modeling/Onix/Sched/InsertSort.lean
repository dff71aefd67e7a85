import Onix.Sched.Runs

open DoublyLinked

namespace onix

variable {τ ℓ : Type}

section Keys

/-- `element_node_key(ptr, element_node_offset(task_t, node, ticks))`: the `ticks` of the task that the node is in, as an
`int`. The loop of
`list_insert_sort` reads no key behind a sentinel. -/
def node_ticks (c : Core τ ℓ) (wild : Int32) : NodePtr τ ℓ → Int32
  | .node t => (c.task t).ticks.toInt32
  | _ => wild

theorem toInt32_toInt (x : u32) :
    x.toInt32.toInt = if x.toNat < 2 ^ 31 then (x.toNat : Int) else (x.toNat : Int) - 2 ^ 32 := by
  rw [Int32.toInt, UInt32.toBitVec_toInt32, BitVec.toInt_eq_toNat_cond]
  have hx : x.toBitVec.toNat = x.toNat := rfl
  rw [hx]
  split_ifs <;> first | rfl | omega

/-- The order of the keys is that of the ticks within each half of the range, and puts the upper half first. -/
theorem toInt32_gt_iff (x k : u32) :
    x.toInt32 > k.toInt32 ↔
      x.toNat < 2 ^ 31 ∧ (2 ^ 31 ≤ k.toNat ∨ k.toNat < x.toNat) ∨ 2 ^ 31 ≤ k.toNat ∧ k.toNat < x.toNat := by
  have hx := x.toNat_lt
  have hk := k.toNat_lt
  rw [gt_iff_lt, Int32.lt_iff_toInt_lt, toInt32_toInt, toInt32_toInt]
  split_ifs <;> omega

end Keys

section Split

variable {α : Type} {l₁ l₂ : List α}

/-- The elements up to a place of a list are those that a search passes. -/
theorem takeWhile_append_iff (p : α → Bool) :
    (l₁ ++ l₂).takeWhile p = l₁ ↔ (∀ u ∈ l₁, p u = true) ∧ ∀ u ∈ l₂.head?, p u = false := by
  constructor
  · intro heq
    have hpass := List.all_takeWhile (p := p) (l := l₁ ++ l₂)
    rw [heq, List.all_eq_true] at hpass
    refine ⟨hpass, fun u hu => ?_⟩
    cases l₂ with
    | nil => cases hu
    | cons v l₂ =>
      obtain rfl : v = u := Option.some.inj hu
      rw [List.takeWhile_append_of_pos hpass] at heq
      by_contra hv
      rw [Bool.not_eq_false] at hv
      rw [List.takeWhile_cons_of_pos hv] at heq
      simpa using congrArg List.length heq
  · rintro ⟨hpass, hstop⟩
    rw [List.takeWhile_append_of_pos hpass]
    cases l₂ with
    | nil => rw [List.takeWhile_nil, List.append_nil]
    | cons v l₂ =>
      have hv := hstop v rfl
      rw [List.takeWhile_cons_of_neg (by rw [hv]; exact Bool.false_ne_true), List.append_nil]

/-- Where signed keys stop a search at the place where unsigned keys do. -/
def SignsAgree (ticks : α → u32) (ts : List α) (k : u32) : Prop :=
  (k.toNat < 2 ^ 31 ∧
    ((∀ u ∈ ts, (ticks u).toNat < 2 ^ 31) ∨ ∃ u ∈ ts, k.toNat < (ticks u).toNat ∧ (ticks u).toNat < 2 ^ 31)) ∨
  (2 ^ 31 ≤ k.toNat ∧ ∀ u ∈ ts, 2 ^ 31 ≤ (ticks u).toNat)

theorem takeWhile_signed_iff {ticks : α → u32} {k : u32}
    (hsorted : (l₁ ++ l₂).Pairwise fun u v => ticks u ≤ ticks v) (hle : ∀ u ∈ l₁, ticks u ≤ k)
    (hgt : ∀ u ∈ l₂, k < ticks u) :
    (l₁ ++ l₂).takeWhile (fun u => ¬(ticks u).toInt32 > k.toInt32) = l₁ ↔ SignsAgree ticks (l₁ ++ l₂) k := by
  have hle' : ∀ u ∈ l₁, (ticks u).toNat ≤ k.toNat := fun u hu => UInt32.le_iff_toNat_le.mp (hle u hu)
  have hgt' : ∀ u ∈ l₂, k.toNat < (ticks u).toNat := fun u hu => UInt32.lt_iff_toNat_lt.mp (hgt u hu)
  simp only [takeWhile_append_iff, decide_eq_true_eq, decide_eq_false_iff_not, not_not, toInt32_gt_iff]
  unfold SignsAgree
  constructor
  · rintro ⟨hpass, hstop⟩
    by_cases hk : k.toNat < 2 ^ 31
    · refine Or.inl ⟨hk, ?_⟩
      cases l₂ with
      | nil =>
        left
        intro u hu
        rw [List.append_nil] at hu
        exact Nat.lt_of_le_of_lt (hle' u hu) hk
      | cons v l₂ =>
        right
        have hv := hstop v rfl
        have hkv := hgt' v (List.mem_cons_self ..)
        exact ⟨v, by simp, hkv, by omega⟩
    · refine Or.inr ⟨by omega, fun u hu => ?_⟩
      obtain hu | hu := List.mem_append.mp hu
      · have hu' := hpass u hu
        omega
      · have hu' := hgt' u hu
        omega
  · intro hagree
    constructor
    · intro u hu
      have hu' := hle' u hu
      obtain ⟨hk, -⟩ | ⟨hk, hall⟩ := hagree
      · omega
      · have hhigh := hall u (List.mem_append_left _ hu)
        omega
    · intro v hv
      have hmem := List.mem_of_head? hv
      have hkv := hgt' v hmem
      obtain ⟨hk, hlow | ⟨u, hu, hku, hu'⟩⟩ | ⟨hk, hall⟩ := hagree
      · have hv' := hlow v (List.mem_append_right _ hmem)
        omega
      · -- the first greater one is not greater than the one below 2^31
        have hvu : (ticks v).toNat ≤ (ticks u).toNat := by
          obtain hu | hu := List.mem_append.mp hu
          · have hle := hle' u hu
            omega
          · have hpair := (List.pairwise_append.mp hsorted).2.1
            cases l₂ with
            | nil => cases hv
            | cons w l₂ =>
              obtain rfl : w = v := Option.some.inj hv
              obtain rfl | hu := List.mem_cons.mp hu
              · exact le_rfl
              · exact UInt32.le_iff_toNat_le.mp ((List.pairwise_cons.mp hpair).1 u hu)
        omega
      · omega

theorem lt_of_mem_dropWhile (ticks : α → u32) {k : u32} {ts : List α} {u : α}
    (hsorted : ts.Pairwise fun u v => ticks u ≤ ticks v) (hu : u ∈ ts.dropWhile fun u => ticks u ≤ k) :
    k < ticks u := by
  induction ts with
  | nil => cases hu
  | cons v ts ih =>
    obtain ⟨hfirst, hrest⟩ := List.pairwise_cons.mp hsorted
    by_cases hv : ticks v ≤ k
    · rw [List.dropWhile_cons_of_pos (by simpa using hv)] at hu
      exact ih hrest hu
    · rw [List.dropWhile_cons_of_neg (by simpa using hv)] at hu
      have hkv := UInt32.not_le.mp hv
      obtain rfl | hu := List.mem_cons.mp hu
      · exact hkv
      · exact UInt32.lt_of_lt_of_le hkv (hfirst u hu)

end Split

section Insert

variable [DecidableEq τ] [DecidableEq ℓ]

/-- The sort of sleep_list with the `ticks` of the tasks as keys. -/
def sort_insert (wild : Int32) (t : τ) : KernelM τ ℓ Unit := do
  let s ← get
  on_nodes (list_insert_sort (node_ticks s.toCore wild) s.fuel (ListPtr.sleep_list).list (.node t))

variable {c : Core τ ℓ} {tasks : Set τ} {node : NodeHeap (NodePtr τ ℓ)} {queue : ListPtr ℓ → List τ} {t : τ}

/-- `t` directly before the first task that wakes later, and behind all others. -/
def Inserted (c : Core τ ℓ) (ts : List τ) (t : τ) (ts' : List τ) : Prop :=
  ∃ l₁ l₂, ts = l₁ ++ l₂ ∧ ts' = l₁ ++ t :: l₂ ∧ (∀ u ∈ l₁, (c.task u).ticks ≤ (c.task t).ticks) ∧
    ∀ u ∈ l₂, (c.task t).ticks < (c.task u).ticks

theorem sort_insert_eq (h : Represents tasks node queue) (ht : t ∈ tasks) (hfree : ∀ l, t ∉ queue l)
    (hfuel : (queue .sleep_list).length < c.fuel) (wild : Int32) :
    (sort_insert wild t).run ⟨c, node⟩ = (on_nodes (list_insert_before
      (front .sleep_list
        ((queue .sleep_list).dropWhile fun u => ¬(c.task u).ticks.toInt32 > (c.task t).ticks.toInt32))
      (.node t))).run ⟨c, node⟩ := by
  obtain ⟨anchor, hanchor, hloop⟩ := list_insert_sort_loop_run (ListPtr.sleep_list).list (node_ticks c wild)
    (node_ticks c wild (.node t)) [] (h.deque .sleep_list) (by rwa [List.length_map])
    (head?_eq_front .sleep_list (queue .sleep_list))
  rw [List.dropWhile_map] at hanchor
  obtain rfl := Option.some.inj (hanchor.symm.trans (head?_eq_front .sleep_list _))
  have hnode := h.free t ht hfree
  have hhead : (get_next (ListPtr.sleep_list (ℓ := ℓ)).list.head).run node =
      .ok (some (front .sleep_list (queue .sleep_list))) node := congrArg (EStateM.Result.ok · node) (h.head_next _)
  have hnext : (get_next (NodePtr.node (ℓ := ℓ) t)).run node = .ok none node := by rw [get_next_run, hnode]
  have hprev : (get_prev (NodePtr.node (ℓ := ℓ) t)).run node = .ok none node := by rw [get_prev_run, hnode]
  have hsort : (list_insert_sort (node_ticks c wild) c.fuel (ListPtr.sleep_list).list (.node t)).run node =
      (list_insert_before (front .sleep_list ((queue .sleep_list).dropWhile
        fun u => ¬(c.task u).ticks.toInt32 > (c.task t).ticks.toInt32)) (.node t)).run node := by
    unfold list_insert_sort
    simp only
    rw [Outcome.bind_of_ok hhead, Outcome.bind_of_ok hloop, Outcome.bind_of_ok hnext, assert_bind_run,
      Option.isNone_none, if_pos rfl, Outcome.bind_of_ok hprev, assert_bind_run, Option.isNone_none, if_pos rfl]
    rfl
  unfold sort_insert
  rw [Outcome.get_bind_run]
  exact Outcome.zoom_congr (fun s : Kernel τ ℓ => s.node) hsort

/-- Both insertions make the same list of the same nodes, that of `Inserted`. -/
def SortsAgree (c : Core τ ℓ) (tasks : Set τ) (node : NodeHeap (NodePtr τ ℓ)) (queue : ListPtr ℓ → List τ) (t : τ)
    (wild : Int32) : Prop :=
  ∃ node' ts', Inserted c (queue .sleep_list) t ts' ∧
    Represents tasks node' (Function.update queue .sleep_list ts') ∧
    (sleep_insert t).run ⟨c, node⟩ = .ok () ⟨c, node'⟩ ∧ (sort_insert wild t).run ⟨c, node⟩ = .ok () ⟨c, node'⟩

/-- Insertions that agree do so by the order of the keys. -/
theorem SortsAgree.signs {wild : Int32} (h : Represents tasks node queue) (ht : t ∈ tasks) (hfree : ∀ l, t ∉ queue l)
    (hsorted : (queue .sleep_list).Pairwise fun u v => (c.task u).ticks ≤ (c.task v).ticks)
    (hfuel : (queue .sleep_list).length < c.fuel) (hagree : SortsAgree c tasks node queue t wild) :
    SignsAgree (fun u => (c.task u).ticks) (queue .sleep_list) (c.task t).ticks := by
  have hsort := sort_insert_eq h ht hfree hfuel wild
  obtain ⟨node', ts', ⟨l₁, l₂, hsplit, rfl, hle, hgt⟩, hrep, -, hrun⟩ := hagree
  obtain ⟨node₂, hinsert, hrep₂⟩ := h.list_insert_before (l := .sleep_list)
    (List.takeWhile_append_dropWhile (p := fun u => ¬(c.task u).ticks.toInt32 > (c.task t).ticks.toInt32)).symm
    hfree
  obtain rfl : node' = node₂ := by
    rw [hsort, on_nodes_run hinsert] at hrun
    cases hrun
    rfl
  have hdeque := (hrep.deque .sleep_list).unique (hrep₂.deque .sleep_list)
  rw [Function.update_self, Function.update_self] at hdeque
  have hnodes : Function.Injective (NodePtr.node (τ := τ) (ℓ := ℓ)) := fun _ _ => NodePtr.node.inj
  have hqueue := List.map_injective_iff.mpr hnodes hdeque
  have hout : t ∉ l₁ ++ l₂ := by
    rw [← hsplit]
    exact hfree .sleep_list
  rw [List.mem_append, not_or] at hout
  obtain ⟨htake, -⟩ := (List.append_cons_inj_of_notMem hout.1 hout.2).mp hqueue
  rw [hsplit] at hsorted htake ⊢
  exact (takeWhile_signed_iff hsorted hle hgt).mp htake.symm

/-- The two insertion sorts agree on a sorted list exactly where the order of the signed keys puts the task at the
same place. -/
theorem insertion_sorts_agree_iff (h : Represents tasks node queue) (ht : t ∈ tasks) (hfree : ∀ l, t ∉ queue l)
    (hsorted : (queue .sleep_list).Pairwise fun u v => (c.task u).ticks ≤ (c.task v).ticks)
    (hfuel : (queue .sleep_list).length < c.fuel) (wild : Int32) :
    SortsAgree c tasks node queue t wild ↔
      SignsAgree (fun u => (c.task u).ticks) (queue .sleep_list) (c.task t).ticks := by
  have hsleep := sleep_insert_run h ht hfree hfuel (p := fun u => (c.task u).ticks ≤ (c.task t).ticks) fun _ _ => rfl
  have hsort := sort_insert_eq h ht hfree hfuel wild
  constructor
  · exact fun hagree => hagree.signs h ht hfree hsorted hfuel
  · intro hagree
    have hsplit := List.takeWhile_append_dropWhile (p := fun u => (c.task u).ticks ≤ (c.task t).ticks)
      (l := queue .sleep_list)
    have hle : ∀ u ∈ (queue .sleep_list).takeWhile fun u => (c.task u).ticks ≤ (c.task t).ticks,
        (c.task u).ticks ≤ (c.task t).ticks := by
      intro u hu
      exact of_decide_eq_true (List.all_eq_true.mp List.all_takeWhile u hu)
    have hgt : ∀ u ∈ (queue .sleep_list).dropWhile fun u => (c.task u).ticks ≤ (c.task t).ticks,
        (c.task t).ticks < (c.task u).ticks := fun u hu =>
      lt_of_mem_dropWhile (fun u => (c.task u).ticks) hsorted hu
    obtain ⟨node', hinsert, hrep⟩ := h.list_insert_before (l := .sleep_list) hsplit.symm hfree
    refine ⟨node', _, ⟨_, _, hsplit.symm, rfl, hle, hgt⟩, hrep, ?_, ?_⟩
    · rw [hsleep]
      exact on_nodes_run hinsert
    · have htake : (queue .sleep_list).takeWhile (fun u => ¬(c.task u).ticks.toInt32 > (c.task t).ticks.toInt32) =
          (queue .sleep_list).takeWhile fun u => (c.task u).ticks ≤ (c.task t).ticks := by
        rw [← hsplit] at hsorted hagree
        have hiff := (takeWhile_signed_iff hsorted hle hgt).mpr hagree
        rwa [hsplit] at hiff
      have hdrop := List.takeWhile_append_dropWhile (l := queue .sleep_list)
        (p := fun u => ¬(c.task u).ticks.toInt32 > (c.task t).ticks.toInt32)
      rw [htake] at hdrop
      rw [hsort, List.append_cancel_left (hdrop.trans hsplit.symm)]
      exact on_nodes_run hinsert

/-- Three tasks, one of which wakes soon and two around the middle of the range of the ticks. -/
def three_tasks : Core (Fin 3) Empty where
  task_table := [some 0, some 1, some 2]
  idel_task := none
  task := fun t => { state := .TASK_READY, priority := 5, ticks := ![5, 0x7fffffff, 0x80000000] t, jiffies := 0,
                     magic := ONIX_MAGIC }
  lock := fun _ => { holder := none, mutex := { value := false }, «repeat» := 0 }
  gate_task := none
  jiffies := 0
  current := 0
  IF := false
  stack := fun _ => []
  log := []

/-- All lists are empty, and the nodes of all tasks are null. -/
def empty_nodes : NodeHeap (NodePtr τ ℓ)
  | .node _ => ⟨none, none⟩
  | .head l => ⟨none, some (.tail l)⟩
  | .tail l => ⟨some (.head l), none⟩

/-- One task sleeps, and the others are in no list. -/
theorem one_sleeper (u : Fin 3) : ∃ node : NodeHeap (NodePtr (Fin 3) Empty),
    Represents Set.univ node (Function.update (fun _ => []) .sleep_list [u]) := by
  have hempty : Represents Set.univ (empty_nodes (τ := Fin 3) (ℓ := Empty)) fun _ => [] :=
    ⟨fun l => Deque.nil (by simp) rfl rfl, by simp, fun _ _ _ => rfl⟩
  have hsplit : (fun _ => [] : ListPtr Empty → List (Fin 3)) .sleep_list = [] ++ [] := rfl
  obtain ⟨node', -, hrep⟩ := hempty.list_insert_before (t := u) hsplit (by simp)
  exact ⟨node', hrep⟩

theorem one_sleeper_free {t u : Fin 3} (hne : t ≠ u) (l : ListPtr Empty) :
    t ∉ Function.update (fun _ => []) .sleep_list [u] l := by
  by_cases hl : l = .sleep_list
  · subst hl
    rw [Function.update_self, List.mem_singleton]
    exact hne
  · rw [Function.update_of_ne hl]
    exact List.not_mem_nil

/-- Behind a sleeper of the lower half, a task of the lower half is put by both. -/
theorem insertion_sorts_agree_low : ∃ node, SortsAgree three_tasks Set.univ node
    (Function.update (fun _ => []) .sleep_list [0]) 1 0 := by
  obtain ⟨node, hrep⟩ := one_sleeper 0
  refine ⟨node, (insertion_sorts_agree_iff hrep (Set.mem_univ 1) (one_sleeper_free (by decide)) ?_ ?_ 0).mpr ?_⟩
  · rw [Function.update_self]
    exact List.pairwise_singleton _ _
  · rw [Function.update_self]
    decide
  · rw [Function.update_self]
    left
    refine ⟨by decide, Or.inl fun u hu => ?_⟩
    obtain rfl := List.mem_singleton.mp hu
    decide

/-- A task that wakes at 2^31 goes behind one that wakes a tick earlier, but `list_insert_sort` puts it in front. -/
theorem insertion_sorts_differ : ∃ node : NodeHeap (NodePtr (Fin 3) Empty),
    Represents Set.univ node (Function.update (fun _ => []) .sleep_list [1]) ∧
      ¬SortsAgree three_tasks Set.univ node (Function.update (fun _ => []) .sleep_list [1]) 2 0 := by
  obtain ⟨node, hrep⟩ := one_sleeper 1
  refine ⟨node, hrep, fun hagree => ?_⟩
  have hsigns := hagree.signs hrep (Set.mem_univ 2) (one_sleeper_free (by decide))
    (by rw [Function.update_self]; exact List.pairwise_singleton _ _) (by rw [Function.update_self]; decide)
  rw [Function.update_self] at hsigns
  obtain ⟨hlow, -⟩ | ⟨-, hhigh⟩ := hsigns
  · exact absurd hlow (by decide)
  · exact absurd (hhigh 1 (List.mem_singleton_self 1)) (by decide)

end Insert

end onix
