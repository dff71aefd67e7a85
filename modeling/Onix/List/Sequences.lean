import Onix.List.Spec

open DoublyLinked

namespace onix

variable {α ι : Type}

/-- The nodes of a list with its sentinels. -/
def list_t.cells (list : list_t α) (ns : List α) : List α := list.head :: (ns ++ [list.tail])

/-- Every list of the heap denotes its sequence, and no node is in two of them. -/
structure Lists (h : NodeHeap α) (lists : ι → list_t α) (seq : ι → List α) : Prop where
  deque : ∀ i, Deque h (lists i).head (lists i).tail (seq i)
  apart : ∀ i j, i ≠ j → ∀ a ∈ (lists i).cells (seq i), a ∉ (lists j).cells (seq j)

/-- The node is in no list, and is the sentinel of none. -/
def Loose (lists : ι → list_t α) (seq : ι → List α) (node : α) : Prop :=
  ∀ i, node ∉ (lists i).cells (seq i)

variable {h h' : NodeHeap α} {lists : ι → list_t α} {seq : ι → List α} {i : ι}

section Cells

variable {list : list_t α} {ns l₁ l₂ : List α} {p x n a : α}

theorem list_t.mem_cells : a ∈ list.cells ns ↔ a = list.head ∨ a ∈ ns ∨ a = list.tail := by
  unfold list_t.cells
  rw [List.mem_cons, List.mem_append, List.mem_singleton]

/-- The cells around a place of a list are cells of the list. -/
theorem list_t.gap_mem_cells (hp : (list.head :: l₁).getLast? = some p) (hn : (l₂ ++ [list.tail]).head? = some n) :
    p ∈ list.cells (l₁ ++ l₂) ∧ n ∈ list.cells (l₁ ++ l₂) := by
  have hpmem := List.mem_of_getLast? hp
  have hnmem := List.mem_of_head? hn
  rw [List.mem_cons] at hpmem
  rw [List.mem_append, List.mem_singleton] at hnmem
  rw [list_t.mem_cells, list_t.mem_cells, List.mem_append, List.mem_append]
  exact ⟨hpmem.imp_right fun hmem => Or.inl (Or.inl hmem), Or.inr (hnmem.imp_left Or.inr)⟩

end Cells

namespace Lists

/-- One list gets another sequence, of its own nodes and of loose ones. -/
theorem update [DecidableEq ι] (hl : Lists h lists seq) {ns : List α}
    (d : Deque h' (lists i).head (lists i).tail ns)
    (hcells : ∀ a ∈ (lists i).cells ns, a ∈ (lists i).cells (seq i) ∨ Loose lists seq a)
    (hframe : ∀ j, j ≠ i → ∀ a ∈ (lists j).cells (seq j), h' a = h a) :
    Lists h' lists (Function.update seq i ns) := by
  have hold : ∀ j, ∀ a ∈ (lists j).cells (Function.update seq i ns j),
      a ∈ (lists j).cells (seq j) ∨ j = i ∧ Loose lists seq a := by
    intro j a ha
    by_cases hj : j = i
    · subst hj
      rw [Function.update_self] at ha
      exact (hcells a ha).imp_right fun hloose => ⟨rfl, hloose⟩
    · rw [Function.update_of_ne hj] at ha
      exact Or.inl ha
  constructor
  · intro j
    by_cases hj : j = i
    · subst hj
      rwa [Function.update_self]
    · rw [Function.update_of_ne hj]
      exact (hl.deque j).congr (hframe j hj)
  · intro j k hjk a ha hk
    obtain hja | ⟨hj, hloose⟩ := hold j a ha
    · obtain hka | ⟨-, hloose⟩ := hold k a hk
      · exact hl.apart j k hjk a hja hka
      · exact hloose j hja
    · obtain hka | ⟨hk', -⟩ := hold k a hk
      · exact hloose k hka
      · exact hjk (hj.trans hk'.symm)

variable [DecidableEq α] [DecidableEq ι] {l₁ l₂ : List α} {p x n : α}

theorem splice (hl : Lists h lists seq) (hseq : seq i = l₁ ++ l₂) (hx : Loose lists seq x)
    (hp : ((lists i).head :: l₁).getLast? = some p) (hn : (l₂ ++ [(lists i).tail]).head? = some n) :
    Lists (splice h p x n) lists (Function.update seq i (l₁ ++ x :: l₂)) := by
  have d := hl.deque i
  have hxi := hx i
  obtain ⟨hpmem, hnmem⟩ := (lists i).gap_mem_cells hp hn
  rw [hseq] at d hxi
  rw [← hseq] at hpmem hnmem
  refine hl.update (d.splice hp hn hxi) (fun a ha => ?_) fun j hj a ha => ?_
  · rw [list_t.mem_cells, List.mem_append, List.mem_cons] at ha
    rw [list_t.mem_cells, hseq, List.mem_append]
    by_cases hax : a = x
    · exact Or.inr (by rwa [hax])
    · left
      obtain hhead | (hmem | rfl | hmem) | htail := ha
      · exact Or.inl hhead
      · exact Or.inr (Or.inl (Or.inl hmem))
      · exact absurd rfl hax
      · exact Or.inr (Or.inl (Or.inr hmem))
      · exact Or.inr (Or.inr htail)
  · have hout := hl.apart j i hj a ha
    refine splice_of_ne h ?_ ?_ ?_
    · rintro rfl
      exact hout hpmem
    · rintro rfl
      exact hx j ha
    · rintro rfl
      exact hout hnmem

theorem unsplice (hl : Lists h lists seq) (hseq : seq i = l₁ ++ x :: l₂)
    (hp : ((lists i).head :: l₁).getLast? = some p) (hn : (l₂ ++ [(lists i).tail]).head? = some n) :
    Lists (unsplice h p x n) lists (Function.update seq i (l₁ ++ l₂)) := by
  have d := hl.deque i
  obtain ⟨hpmem, hnmem⟩ := (lists i).gap_mem_cells hp hn
  have hsub : ∀ a ∈ (lists i).cells (l₁ ++ l₂), a ∈ (lists i).cells (seq i) := by
    intro a ha
    rw [list_t.mem_cells, List.mem_append] at ha
    rw [list_t.mem_cells, hseq, List.mem_append, List.mem_cons]
    obtain hhead | (hmem | hmem) | htail := ha
    · exact Or.inl hhead
    · exact Or.inr (Or.inl (Or.inl hmem))
    · exact Or.inr (Or.inl (Or.inr (Or.inr hmem)))
    · exact Or.inr (Or.inr htail)
  have hxmem : x ∈ (lists i).cells (seq i) := by
    rw [list_t.mem_cells, hseq, List.mem_append, List.mem_cons]
    exact Or.inr (Or.inl (Or.inr (Or.inl rfl)))
  rw [hseq] at d
  refine hl.update (d.unsplice hp hn) (fun a ha => Or.inl (hsub a ha)) fun j hj a ha => ?_
  have hout := hl.apart j i hj a ha
  refine unsplice_of_ne h ?_ ?_ ?_
  · rintro rfl
    exact hout (hsub _ hpmem)
  · rintro rfl
    exact hout hxmem
  · rintro rfl
    exact hout (hsub _ hnmem)

/-- Inserting a loose node before a member, or before the tail. -/
theorem insert_before (hl : Lists h lists seq) (hseq : seq i = l₁ ++ l₂) (hx : Loose lists seq x)
    (hn : (l₂ ++ [(lists i).tail]).head? = some n) :
    ∃ h', (list_insert_before n x).run h = .ok () h' ∧ Lists h' lists (Function.update seq i (l₁ ++ x :: l₂)) := by
  have d := hl.deque i
  have hxi := hx i
  rw [hseq] at d hxi
  obtain ⟨p, n', hp, hn', hlinked⟩ := d.gap
  obtain rfl : n = n' := Option.some.inj (hn.symm.trans hn')
  obtain ⟨hpmem, hnmem⟩ := (lists i).gap_mem_cells hp hn
  refine ⟨_, list_insert_before_run hlinked.2 ?_ ?_ (d.gap_ne hp hn), hl.splice hseq hx hp hn⟩
  · rintro rfl
    exact hxi hpmem
  · rintro rfl
    exact hxi hnmem

/-- Inserting a loose node after a member, or after the head. -/
theorem insert_after (hl : Lists h lists seq) (hseq : seq i = l₁ ++ l₂) (hx : Loose lists seq x)
    (hp : ((lists i).head :: l₁).getLast? = some p) :
    ∃ h', (list_insert_after p x).run h = .ok () h' ∧ Lists h' lists (Function.update seq i (l₁ ++ x :: l₂)) := by
  have d := hl.deque i
  have hxi := hx i
  rw [hseq] at d hxi
  obtain ⟨p', n, hp', hn, hlinked⟩ := d.gap
  obtain rfl : p = p' := Option.some.inj (hp.symm.trans hp')
  obtain ⟨hpmem, hnmem⟩ := (lists i).gap_mem_cells hp hn
  refine ⟨_, list_insert_after_run hlinked.1 ?_ ?_ (d.gap_ne hp hn), hl.splice hseq hx hp hn⟩
  · rintro rfl
    exact hxi hpmem
  · rintro rfl
    exact hxi hnmem

/-- Removing a member clears its links. -/
theorem remove (hl : Lists h lists seq) (hseq : seq i = l₁ ++ x :: l₂) :
    ∃ h', (list_remove x).run h = .ok () h' ∧ h' x = ⟨none, none⟩ ∧
      Lists h' lists (Function.update seq i (l₁ ++ l₂)) := by
  have d := hl.deque i
  rw [hseq] at d
  obtain ⟨p, -, hp, -, -⟩ := d.gap
  obtain ⟨n, hn⟩ : ∃ n, (l₂ ++ [(lists i).tail]).head? = some n := by cases l₂ <;> simp
  obtain ⟨hpx, hxn⟩ := d.neighbours hp hn
  obtain ⟨hxp, hxn', hpn⟩ := d.neighbours_ne hp hn
  exact ⟨_, list_remove_run hpx.2 hxn.1 hxp hxn' hpn, unsplice_self h p x n, hl.unsplice hseq hp hn⟩

omit [DecidableEq ι] in
theorem search (hl : Lists h lists seq) (node : α) {fuel : Nat} (hfuel : (seq i).length < fuel) :
    (list_search fuel (lists i) node).run h = .ok (decide (node ∈ seq i)) h :=
  list_search_run (hl.deque i) node hfuel

omit [DecidableEq α] [DecidableEq ι] in
theorem not_mem_of_loose (hx : Loose lists seq x) (i : ι) : x ∉ seq i := fun hmem =>
  hx i (list_t.mem_cells.mpr (Or.inr (Or.inl hmem)))

theorem push (hl : Lists h lists seq) (hx : Loose lists seq x) {fuel : Nat} (hfuel : (seq i).length < fuel) :
    ∃ h', (list_push fuel (lists i) x).run h = .ok () h' ∧ Lists h' lists (Function.update seq i (x :: seq i)) := by
  obtain ⟨h', hrun, hl'⟩ := hl.insert_after (show seq i = [] ++ seq i from rfl) hx List.getLast?_singleton
  refine ⟨h', ?_, hl'⟩
  unfold list_push
  rw [Outcome.bind_of_ok (hl.search x hfuel), decide_eq_false (not_mem_of_loose hx i)]
  exact hrun

theorem pushback (hl : Lists h lists seq) (hx : Loose lists seq x) {fuel : Nat} (hfuel : (seq i).length < fuel) :
    ∃ h', (list_pushback fuel (lists i) x).run h = .ok () h' ∧
      Lists h' lists (Function.update seq i (seq i ++ [x])) := by
  obtain ⟨h', hrun, hl'⟩ := hl.insert_before (show seq i = seq i ++ [] from (List.append_nil _).symm) hx rfl
  refine ⟨h', ?_, hl'⟩
  unfold list_pushback
  rw [Outcome.bind_of_ok (hl.search x hfuel), decide_eq_false (not_mem_of_loose hx i)]
  exact hrun

omit [DecidableEq ι] in
theorem empty (hl : Lists h lists seq) (i : ι) : (list_empty (lists i)).run h = .ok (decide (seq i = [])) h :=
  list_empty_run (hl.deque i)

theorem pop {ns : List α} (hl : Lists h lists seq) (hseq : seq i = x :: ns) :
    ∃ h', (list_pop (lists i)).run h = .ok x h' ∧ h' x = ⟨none, none⟩ ∧ Lists h' lists (Function.update seq i ns) := by
  obtain ⟨h', hrun, hcleared, hl'⟩ := hl.remove (show seq i = [] ++ x :: ns from hseq)
  have d : Deque h (lists i).head (lists i).tail ([] ++ x :: ns) := hseq ▸ hl.deque i
  obtain ⟨p, n, hp, hn, hlinked⟩ := d.gap
  obtain rfl : (lists i).head = p := Option.some.inj hp
  obtain rfl : x = n := Option.some.inj hn
  refine ⟨h', ?_, hcleared, hl'⟩
  have hempty := hl.empty i
  rw [hseq, decide_eq_false (List.cons_ne_nil x ns)] at hempty
  have hnext : (get_next (lists i).head).run h = .ok (some x) h := by rw [get_next_run, hlinked.1]
  unfold list_pop
  rw [Outcome.bind_of_ok hempty, assert_bind_run, Bool.not_false, if_pos rfl, Outcome.bind_of_ok hnext,
    Outcome.bind_of_ok (deref_some_run x h), Outcome.bind_of_ok hrun]
  rfl

theorem popback {ns : List α} (hl : Lists h lists seq) (hseq : seq i = ns ++ [x]) :
    ∃ h', (list_popback (lists i)).run h = .ok x h' ∧ h' x = ⟨none, none⟩ ∧
      Lists h' lists (Function.update seq i ns) := by
  obtain ⟨h', hrun, hcleared, hl'⟩ := hl.remove hseq
  rw [List.append_nil] at hl'
  have d := hl.deque i
  rw [hseq] at d
  obtain ⟨p, -, hp, -, -⟩ := d.gap
  obtain ⟨-, hlinked⟩ := d.neighbours hp rfl
  refine ⟨h', ?_, hcleared, hl'⟩
  have hempty := hl.empty i
  rw [hseq, decide_eq_false (by simp)] at hempty
  have hprev : (get_prev (lists i).tail).run h = .ok (some x) h := by rw [get_prev_run, hlinked.2]
  unfold list_popback
  rw [Outcome.bind_of_ok hempty, assert_bind_run, Bool.not_false, if_pos rfl, Outcome.bind_of_ok hprev,
    Outcome.bind_of_ok (deref_some_run x h), Outcome.bind_of_ok hrun]
  rfl

omit [DecidableEq ι] in
/-- The nodes have different addresses, so there are fewer of them than `list_size` can count. -/
theorem size (hl : Lists h lists seq) (address : α ↪ UInt32) {fuel : Nat} (hfuel : (seq i).length < fuel) :
    ∃ n, (list_size fuel (lists i)).run h = .ok n h ∧ n.toNat = (seq i).length := by
  have hlt : (seq i).length < 2 ^ 32 := by
    have hinj : Function.Injective fun a => (address a).toNat := fun a b heq =>
      address.injective (UInt32.toNat_inj.mp heq)
    have hsub : (((lists i).cells (seq i)).map fun a => (address a).toNat).toFinset ⊆ Finset.range (2 ^ 32) := by
      intro k hk
      obtain ⟨a, -, rfl⟩ := List.mem_map.mp (List.mem_toFinset.mp hk)
      exact Finset.mem_range.mpr (address a).toNat_lt
    have hcard := Finset.card_le_card hsub
    have hlength : ((lists i).cells (seq i)).length = (seq i).length + 2 := by simp [list_t.cells]
    have hnodup : ((lists i).cells (seq i)).Nodup := (hl.deque i).nodup
    rw [List.toFinset_card_of_nodup (hnodup.map hinj), List.length_map, Finset.card_range, hlength] at hcard
    omega
  exact ⟨_, list_size_run (hl.deque i) hfuel, UInt32.toNat_ofNat_of_lt' hlt⟩

end Lists

section Implements

variable [DecidableEq α] [DecidableEq ι]

/-- The list functions do to the sequence of one list what they are for, and leave those of the others. -/
structure Implements (h : NodeHeap α) (lists : ι → list_t α) (seq : ι → List α) (i : ι) (fuel : Nat) : Prop where
  push : ∀ node, Loose lists seq node → ∃ h', (list_push fuel (lists i) node).run h = .ok () h' ∧
    Lists h' lists (Function.update seq i (node :: seq i))
  pushback : ∀ node, Loose lists seq node → ∃ h', (list_pushback fuel (lists i) node).run h = .ok () h' ∧
    Lists h' lists (Function.update seq i (seq i ++ [node]))
  insert_before : ∀ before behind anchor node, seq i = before ++ behind →
    (behind ++ [(lists i).tail]).head? = some anchor → Loose lists seq node →
    ∃ h', (list_insert_before anchor node).run h = .ok () h' ∧
      Lists h' lists (Function.update seq i (before ++ node :: behind))
  insert_after : ∀ before behind anchor node, seq i = before ++ behind →
    ((lists i).head :: before).getLast? = some anchor → Loose lists seq node →
    ∃ h', (list_insert_after anchor node).run h = .ok () h' ∧
      Lists h' lists (Function.update seq i (before ++ node :: behind))
  pop : ∀ node behind, seq i = node :: behind → ∃ h', (list_pop (lists i)).run h = .ok node h' ∧
    h' node = ⟨none, none⟩ ∧ Lists h' lists (Function.update seq i behind)
  popback : ∀ before node, seq i = before ++ [node] → ∃ h', (list_popback (lists i)).run h = .ok node h' ∧
    h' node = ⟨none, none⟩ ∧ Lists h' lists (Function.update seq i before)
  remove : ∀ before node behind, seq i = before ++ node :: behind → ∃ h', (list_remove node).run h = .ok () h' ∧
    h' node = ⟨none, none⟩ ∧ Lists h' lists (Function.update seq i (before ++ behind))
  search : ∀ node, (list_search fuel (lists i) node).run h = .ok (decide (node ∈ seq i)) h
  size : ∃ n, (list_size fuel (lists i)).run h = .ok n h ∧ n.toNat = (seq i).length
  empty : (list_empty (lists i)).run h = .ok (decide (seq i = [])) h

/-- The intrusive lists are finite sequences: in a heap of any number of lists that share no node, every
function of list.c does what its name says. -/
theorem lists_implement_sequences (address : α ↪ UInt32) (hl : Lists h lists seq) (i : ι) {fuel : Nat}
    (hfuel : (seq i).length < fuel) : Implements h lists seq i fuel where
  push := fun _ hx => hl.push hx hfuel
  pushback := fun _ hx => hl.pushback hx hfuel
  insert_before := fun _ _ _ _ hseq hn hx => hl.insert_before hseq hx hn
  insert_after := fun _ _ _ _ hseq hp hx => hl.insert_after hseq hx hp
  pop := fun _ _ hseq => hl.pop hseq
  popback := fun _ _ hseq => hl.popback hseq
  remove := fun _ _ _ hseq => hl.remove hseq
  search := fun node => hl.search node hfuel
  size := hl.size address hfuel
  empty := hl.empty i

/-- Two lists, one of the node 2 and one without nodes, and the loose node 5. -/
def two_lists_heap : NodeHeap (Fin 6) :=
  ![⟨none, some 2⟩, ⟨some 2, none⟩, ⟨some 0, some 1⟩, ⟨none, some 4⟩, ⟨some 3, none⟩, ⟨none, none⟩]

def two_lists : Bool → list_t (Fin 6)
  | false => { head := 0, tail := 1 }
  | true => { head := 3, tail := 4 }

def two_sequences : Bool → List (Fin 6)
  | false => [2]
  | true => []

theorem two_lists_heap_lists : Lists two_lists_heap two_lists two_sequences := by
  constructor
  · intro i
    cases i with
    | false =>
      have hpath : Path two_lists_heap [0, 2, 1] :=
        List.isChain_cons_cons.mpr ⟨⟨rfl, rfl⟩, List.isChain_cons_cons.mpr ⟨⟨rfl, rfl⟩, List.isChain_singleton 1⟩⟩
      exact ⟨rfl, rfl, by decide, hpath⟩
    | true => exact Deque.nil (by decide) rfl rfl
  · intro i j hij a
    cases i <;> cases j <;> revert a <;> first | exact absurd rfl hij | decide

/-- Pushing node 5 to the second list leaves the first. -/
theorem two_lists_push : ∃ h', (list_push 1 (two_lists true) 5).run two_lists_heap = .ok () h' ∧
    Lists h' two_lists (Function.update two_sequences true [5]) := by
  have hloose : Loose two_lists two_sequences 5 := by
    intro i
    cases i <;> decide
  let address : Fin 6 ↪ UInt32 := ⟨fun a => UInt32.ofNat a.val, by decide⟩
  exact (lists_implement_sequences address two_lists_heap_lists true (by decide)).push 5 hloose

end Implements

end onix
