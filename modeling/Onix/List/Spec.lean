import Onix.List.Ops

open DoublyLinked

namespace onix

section Cells

variable {α : Type}

@[simp] theorem deref_some_run (a : α) (h : NodeHeap α) : (deref (some a)).run h = .ok a h := rfl

@[simp] theorem deref_none_run (h : NodeHeap α) :
    (deref (none : Option α)).run h = .error .null_pointer h := rfl

@[simp] theorem get_prev_run (node : α) (h : NodeHeap α) :
    (get_prev node).run h = .ok (h node).prev h := rfl

@[simp] theorem get_next_run (node : α) (h : NodeHeap α) :
    (get_next node).run h = .ok (h node).next h := rfl

variable [DecidableEq α]

@[simp] theorem set_prev_run (node : α) (ptr : Option α) (h : NodeHeap α) :
    (set_prev node ptr).run h = .ok () (Function.update h node { h node with prev := ptr }) := rfl

@[simp] theorem set_next_run (node : α) (ptr : Option α) (h : NodeHeap α) :
    (set_next node ptr).run h = .ok () (Function.update h node { h node with next := ptr }) := rfl

end Cells

variable {α : Type} [DecidableEq α]

/-- Inserting before an anchor splices the node between the anchor and its predecessor. -/
theorem list_insert_before_run {h : NodeHeap α} {p node anchor : α}
    (hprev : (h anchor).prev = some p) (hp : node ≠ p) (hanchor : node ≠ anchor) (hne : p ≠ anchor) :
    (list_insert_before anchor node).run h = .ok () (splice h p node anchor) := by
  simp only [list_insert_before, EStateM.run_bind, get_prev_run, set_prev_run, set_next_run,
    Function.update_of_ne hanchor.symm, hprev, deref_some_run]
  congr 1
  funext a
  by_cases h₁ : a = node
  · subst h₁
    simp [splice, hanchor, hp]
  · by_cases h₂ : a = anchor
    · subst h₂
      simp [splice, h₁, Ne.symm hne]
    · by_cases h₃ : a = p
      · subst h₃
        simp [splice, h₁, h₂]
      · simp [splice, h₁, h₂, h₃]

/-- Inserting after an anchor splices the node between the anchor and its successor. -/
theorem list_insert_after_run {h : NodeHeap α} {node anchor n : α}
    (hnext : (h anchor).next = some n) (hanchor : node ≠ anchor) (hn : node ≠ n) (hne : anchor ≠ n) :
    (list_insert_after anchor node).run h = .ok () (splice h anchor node n) := by
  simp only [list_insert_after, EStateM.run_bind, get_next_run, set_prev_run, set_next_run,
    Function.update_of_ne hanchor.symm, hnext, deref_some_run]
  congr 1
  funext a
  by_cases h₁ : a = node
  · subst h₁
    simp [splice, hanchor, hn]
  · by_cases h₂ : a = anchor
    · subst h₂
      simp [splice, h₁, hne]
    · by_cases h₃ : a = n
      · subst h₃
        simp [splice, h₁, h₂]
      · simp [splice, h₁, h₂, h₃]

/-- Removing a node links its two neighbours and clears the node. -/
theorem list_remove_run {h : NodeHeap α} {p node n : α}
    (hprev : (h node).prev = some p) (hnext : (h node).next = some n)
    (hp : node ≠ p) (hn : node ≠ n) (hne : p ≠ n) :
    (list_remove node).run h = .ok () (unsplice h p node n) := by
  simp only [list_remove, EStateM.run_bind, get_next_run, get_prev_run, set_prev_run, set_next_run,
    hprev, hnext, Option.isSome_some, assert_true, deref_some_run, Function.update_of_ne hp]
  congr 1
  funext a
  by_cases h₁ : a = node
  · subst h₁
    simp
  · by_cases h₂ : a = p
    · subst h₂
      simp [unsplice, h₁, hne]
    · by_cases h₃ : a = n
      · subst h₃
        simp [unsplice, h₁, h₂]
      · simp [unsplice, h₁, h₂, h₃]

omit [DecidableEq α] in
/-- A loop that stands at a member goes on with the rest of the list. -/
theorem list_next {h : NodeHeap α} {list : list_t α} {done rest : List α} {x : α}
    (d : Deque h list.head list.tail (done ++ x :: rest)) :
    x ≠ list.tail ∧ ∃ n, (rest ++ [list.tail]).head? = some n ∧ (get_next x).run h = .ok (some n) h := by
  constructor
  · have hnodup := (List.nodup_cons.mp d.nodup).2
    rintro rfl
    simp [List.nodup_append] at hnodup
  · obtain ⟨n, hn⟩ : ∃ n, (rest ++ [list.tail]).head? = some n := by cases rest <;> simp
    refine ⟨n, hn, ?_⟩
    rw [get_next_run, d.cell, hn]

/-- On a well-formed list the search loop ends, and tells membership of the rest of the list. -/
theorem list_search_loop_run {h : NodeHeap α} {list : list_t α} (done : List α) {rest : List α}
    (d : Deque h list.head list.tail (done ++ rest)) (node : α)
    {fuel : Nat} (hfuel : rest.length < fuel) {next : α}
    (hnext : (rest ++ [list.tail]).head? = some next) :
    (list_search_loop list node fuel (some next)).run h = .ok (decide (node ∈ rest)) h := by
  induction rest generalizing done fuel next with
  | nil =>
    obtain ⟨fuel, rfl⟩ := Nat.exists_eq_succ_of_ne_zero (by omega : fuel ≠ 0)
    obtain rfl : list.tail = next := by simpa using hnext
    simp [list_search_loop]
  | cons x rest ih =>
    obtain ⟨fuel, rfl⟩ := Nat.exists_eq_succ_of_ne_zero (by omega : fuel ≠ 0)
    obtain rfl : x = next := by simpa using hnext
    obtain ⟨hxtail, n, hn, hxn⟩ := list_next d
    unfold list_search_loop
    rw [if_neg fun heq => hxtail (Option.some.inj heq)]
    by_cases hx : x = node
    · subst hx
      rw [if_pos rfl, decide_eq_true (List.mem_cons_self ..)]
      rfl
    · have hfound : decide (node ∈ x :: rest) = decide (node ∈ rest) := by simp [Ne.symm hx]
      rw [if_neg fun heq => hx (Option.some.inj heq), Outcome.bind_of_ok (deref_some_run x h),
        Outcome.bind_of_ok hxn, hfound]
      exact ih (done ++ [x]) (by simpa using d) (Nat.lt_of_succ_lt_succ hfuel) hn

/-- On a well-formed list `list_search` returns, and answers membership. -/
theorem list_search_run {h : NodeHeap α} {list : list_t α} {ns : List α}
    (d : Deque h list.head list.tail ns) (node : α)
    {fuel : Nat} (hfuel : ns.length < fuel) :
    (list_search fuel list node).run h = .ok (decide (node ∈ ns)) h := by
  obtain ⟨p, n, hp, hn, hlinked⟩ := Deque.gap (show Deque h list.head list.tail ([] ++ ns) from d)
  obtain rfl : list.head = p := by simpa using hp
  simp only [list_search, EStateM.run_bind, get_next_run, hlinked.1]
  exact list_search_loop_run [] d node hfuel hn

/-- On a well-formed list the loop of `list_size` ends, and counts the rest of the list. -/
theorem list_size_loop_run {h : NodeHeap α} {list : list_t α} (done : List α) {rest : List α}
    (d : Deque h list.head list.tail (done ++ rest)) {fuel : Nat} (hfuel : rest.length < fuel) (size : UInt32)
    {next : α} (hnext : (rest ++ [list.tail]).head? = some next) :
    (list_size_loop list fuel size (some next)).run h = .ok (size + UInt32.ofNat rest.length) h := by
  induction rest generalizing done fuel size next with
  | nil =>
    obtain ⟨fuel, rfl⟩ := Nat.exists_eq_succ_of_ne_zero (by omega : fuel ≠ 0)
    obtain rfl : list.tail = next := by simpa using hnext
    simp [list_size_loop]
  | cons x rest ih =>
    obtain ⟨fuel, rfl⟩ := Nat.exists_eq_succ_of_ne_zero (by omega : fuel ≠ 0)
    obtain rfl : x = next := by simpa using hnext
    obtain ⟨hxtail, n, hn, hxn⟩ := list_next d
    have hrest := ih (done ++ [x]) (by simpa using d) (Nat.lt_of_succ_lt_succ hfuel) (size + 1) hn
    have hsum : size + 1 + UInt32.ofNat rest.length = size + UInt32.ofNat (rest.length + 1) := by
      rw [UInt32.ofNat_add]
      ac_rfl
    rw [hsum] at hrest
    unfold list_size_loop
    rw [if_neg fun heq => hxtail (Option.some.inj heq), Outcome.bind_of_ok (deref_some_run x h),
      Outcome.bind_of_ok hxn]
    exact hrest

theorem list_size_run {h : NodeHeap α} {list : list_t α} {ns : List α} (d : Deque h list.head list.tail ns)
    {fuel : Nat} (hfuel : ns.length < fuel) : (list_size fuel list).run h = .ok (UInt32.ofNat ns.length) h := by
  obtain ⟨p, n, hp, hn, hlinked⟩ := Deque.gap (show Deque h list.head list.tail ([] ++ ns) from d)
  obtain rfl : list.head = p := by simpa using hp
  have hloop := list_size_loop_run [] d hfuel 0 hn
  rw [UInt32.zero_add] at hloop
  simp only [list_size, EStateM.run_bind, get_next_run, hlinked.1]
  exact hloop

/-- On a well-formed list the loop of `list_insert_sort` ends, at the first node of a greater key. -/
theorem list_insert_sort_loop_run {h : NodeHeap α} (list : list_t α) (element_node_key : α → Int32) (key : Int32)
    (done : List α) {rest : List α} (d : Deque h list.head list.tail (done ++ rest)) {fuel : Nat}
    (hfuel : rest.length < fuel) {next : α} (hnext : (rest ++ [list.tail]).head? = some next) :
    ∃ anchor, (rest.dropWhile (fun u => ¬element_node_key u > key) ++ [list.tail]).head? = some anchor ∧
      (list_insert_sort_loop element_node_key list key fuel (some next)).run h = .ok anchor h := by
  induction rest generalizing done fuel next with
  | nil =>
    obtain ⟨fuel, rfl⟩ := Nat.exists_eq_succ_of_ne_zero (by omega : fuel ≠ 0)
    obtain rfl : list.tail = next := by simpa using hnext
    exact ⟨list.tail, rfl, by simp [list_insert_sort_loop]⟩
  | cons x rest ih =>
    obtain ⟨fuel, rfl⟩ := Nat.exists_eq_succ_of_ne_zero (by omega : fuel ≠ 0)
    obtain rfl : x = next := by simpa using hnext
    obtain ⟨hxtail, n, hn, hxn⟩ := list_next d
    unfold list_insert_sort_loop
    rw [if_neg fun heq => hxtail (Option.some.inj heq), Outcome.bind_of_ok (deref_some_run x h)]
    by_cases hgt : element_node_key x > key
    · rw [List.dropWhile_cons_of_neg (by simpa using hgt)]
      simp only [if_pos hgt]
      exact ⟨x, rfl, rfl⟩
    · rw [List.dropWhile_cons_of_pos (by simpa using hgt)]
      obtain ⟨anchor, hanchor, hrest⟩ := ih (done ++ [x]) (by simpa using d) (Nat.lt_of_succ_lt_succ hfuel) hn
      refine ⟨anchor, hanchor, ?_⟩
      simp only [if_neg hgt]
      rw [Outcome.bind_of_ok hxn]
      exact hrest

/-- Pushing a node that is in no cell of the list splices it in behind the head sentinel. -/
theorem list_push_run {h : NodeHeap α} {list : list_t α} {ns : List α}
    (d : Deque h list.head list.tail ns) {node : α}
    (hnode : node ∉ list.head :: (ns ++ [list.tail])) {fuel : Nat} (hfuel : ns.length < fuel) :
    ∃ n, (ns ++ [list.tail]).head? = some n ∧
      (list_push fuel list node).run h = .ok () (splice h list.head node n) := by
  obtain ⟨p, n, hp, hn, hlinked⟩ := Deque.gap (show Deque h list.head list.tail ([] ++ ns) from d)
  obtain rfl : list.head = p := by simpa using hp
  simp only [List.mem_cons, List.mem_append, not_or] at hnode
  obtain ⟨hhead, hns, htail, -⟩ := hnode
  have hmem : n ∈ ns ++ [list.tail] := List.mem_of_head? hn
  have hnn : node ≠ n := by
    rintro rfl
    rcases List.mem_append.mp hmem with hmem | hmem
    · exact hns hmem
    · exact htail (List.mem_singleton.mp hmem)
  have hheadn : list.head ≠ n := fun heq => (List.nodup_cons.mp d.nodup).1 (heq ▸ hmem)
  refine ⟨n, hn, ?_⟩
  rw [list_push, Outcome.bind_of_ok (list_search_run d node hfuel)]
  simp only [hns, decide_false, Bool.not_false, EStateM.run_bind, assert_true]
  exact list_insert_after_run hlinked.1 hhead hnn hheadn

theorem list_empty_run {h : NodeHeap α} {list : list_t α} {ns : List α}
    (d : Deque h list.head list.tail ns) :
    (list_empty list).run h = .ok (decide (ns = [])) h := by
  simp only [list_empty, EStateM.run_bind, get_next_run, d.next_eq_tail_iff]
  rfl

end onix
