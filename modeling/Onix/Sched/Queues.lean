import Onix.List.Spec
import Onix.Kernel.State

open DoublyLinked

namespace onix

variable {τ ℓ : Type}

/-- The node heap holds one well-formed list for each list of the kernel, no task node is in two
of them, and the node of a task in no list is null on both sides. -/
structure Represents (tasks : Set τ) (node : NodeHeap (NodePtr τ ℓ)) (queue : ListPtr ℓ → List τ) :
    Prop where
  deque : ∀ l, Deque node (.head l) (.tail l) ((queue l).map .node)
  disjoint : ∀ l l' t, t ∈ queue l → t ∈ queue l' → l = l'
  free : ∀ t ∈ tasks, (∀ l, t ∉ queue l) → node (.node t) = ⟨none, none⟩

/-- The addresses that make up a list of task nodes, with its sentinels. -/
def cells (l : ListPtr ℓ) (ts : List τ) : List (NodePtr τ ℓ) :=
  .head l :: (ts.map NodePtr.node ++ [.tail l])

/-- The first cell of the rest of a list: a task node, or the tail sentinel. -/
def front (l : ListPtr ℓ) : List τ → NodePtr τ ℓ
  | [] => .tail l
  | t :: _ => .node t

@[simp] theorem front_nil (l : ListPtr ℓ) : front l ([] : List τ) = .tail l := rfl

@[simp] theorem front_cons (l : ListPtr ℓ) (t : τ) (ts : List τ) : front l (t :: ts) = .node t := rfl

theorem head?_eq_front (l : ListPtr ℓ) (ts : List τ) :
    (ts.map NodePtr.node ++ [NodePtr.tail l]).head? = some (front l ts) := by
  cases ts <;> rfl

/-- The cells in front of a place of the list, and the cells behind it. -/
theorem cells_append (l : ListPtr ℓ) (l₁ l₂ : List τ) :
    cells l (l₁ ++ l₂) = (.head l :: l₁.map NodePtr.node) ++ (l₂.map NodePtr.node ++ [.tail l]) := by
  simp [cells]

@[simp] theorem node_mem_cells {l : ListPtr ℓ} {ts : List τ} {t : τ} :
    NodePtr.node t ∈ cells l ts ↔ t ∈ ts := by
  simp [cells]

theorem mem_cells_iff {l : ListPtr ℓ} {ts : List τ} {a : NodePtr τ ℓ} :
    a ∈ cells l ts ↔ a = .head l ∨ (∃ t ∈ ts, a = .node t) ∨ a = .tail l := by
  simp [cells, eq_comm]

namespace Represents

variable {tasks : Set τ} {node : NodeHeap (NodePtr τ ℓ)} {queue : ListPtr ℓ → List τ}

theorem nodup (h : Represents tasks node queue) (l : ListPtr ℓ) : (queue l).Nodup := by
  have hcells := (List.nodup_append.mp (List.nodup_cons.mp (h.deque l).nodup).2).1
  exact hcells.of_map _

/-- The cells around a place of a queue. -/
theorem gap (h : Represents tasks node queue) {l : ListPtr ℓ} {l₁ l₂ : List τ} (hl : queue l = l₁ ++ l₂) :
    ∃ p n, (NodePtr.head l :: l₁.map NodePtr.node).getLast? = some p ∧
      (l₂.map NodePtr.node ++ [NodePtr.tail l]).head? = some n ∧ Linked node p n := by
  have hdeque := h.deque l
  rw [hl, List.map_append] at hdeque
  exact hdeque.gap

/-- The node of a queued task has both its links. -/
theorem linked (h : Represents tasks node queue) {l : ListPtr ℓ} {t : τ} (ht : t ∈ queue l) :
    ∃ p n, node (.node t) = ⟨some p, some n⟩ := by
  obtain ⟨l₁, l₂, hl⟩ := List.append_of_mem ht
  have hdeque := h.deque l
  rw [hl, List.map_append, List.map_cons] at hdeque
  obtain ⟨p, -, hp, -, -⟩ := h.gap hl
  obtain ⟨-, n, -, hn, -⟩ := h.gap (show queue l = (l₁ ++ [t]) ++ l₂ by simp [hl])
  obtain ⟨hpt, htn⟩ := hdeque.neighbours hp hn
  exact ⟨p, n, by rw [← hpt.2, ← htn.1]⟩

/-- The node of a task that is in some list is not null. -/
theorem next_isNone_of_linked (h : Represents tasks node queue) {t : τ}
    (hlinked : ¬ ∀ l, t ∉ queue l) : (node (.node t)).next.isNone = false := by
  obtain ⟨l, hl⟩ : ∃ l, t ∈ queue l := by simpa using hlinked
  obtain ⟨p, n, heq⟩ := h.linked hl
  simp [heq]

theorem head_next (h : Represents tasks node queue) (l : ListPtr ℓ) :
    (node (.head l)).next = some (front l (queue l)) := by
  obtain ⟨p, n, hp, hn, hlinked⟩ := h.gap (show queue l = [] ++ queue l from rfl)
  obtain rfl : NodePtr.head l = p := by simpa using hp
  rw [hlinked.1, ← hn, head?_eq_front]

/-- The pointer behind a queued task is the next task, or the tail sentinel. -/
theorem node_next (h : Represents tasks node queue) {l : ListPtr ℓ} {l₁ l₂ : List τ} {t : τ}
    (hl : queue l = l₁ ++ t :: l₂) :
    (node (.node t)).next = some (front l l₂) := by
  obtain ⟨p, n, hp, hn, hlinked⟩ := h.gap (show queue l = (l₁ ++ [t]) ++ l₂ by simp [hl])
  obtain rfl : NodePtr.node t = p := by simpa [List.getLast?_cons] using hp
  rw [hlinked.1, ← hn, head?_eq_front]

theorem tail_prev (h : Represents tasks node queue) {l : ListPtr ℓ} {l₁ : List τ} {t : τ}
    (hl : queue l = l₁ ++ [t]) : (node (.tail l)).prev = some (.node t) := by
  obtain ⟨p, n, hp, hn, hlinked⟩ := h.gap (show queue l = (l₁ ++ [t]) ++ [] by simp [hl])
  obtain rfl : NodePtr.node t = p := by simpa [List.getLast?_cons] using hp
  obtain rfl : NodePtr.tail l = n := by simpa using hn
  exact hlinked.2

theorem cells_disjoint (h : Represents tasks node queue) {l l' : ListPtr ℓ} (hne : l ≠ l')
    {a : NodePtr τ ℓ} (ha : a ∈ cells l (queue l)) : a ∉ cells l' (queue l') := by
  intro ha'
  rw [mem_cells_iff] at ha ha'
  rcases ha with rfl | ⟨t, ht, rfl⟩ | rfl
  · simp [hne] at ha'
  · obtain ⟨t', ht', heq⟩ : ∃ t' ∈ queue l', NodePtr.node t = NodePtr.node (ℓ := ℓ) t' := by
      simpa using ha'
    obtain rfl : t = t' := NodePtr.node.inj heq
    exact hne (h.disjoint l l' t ht ht')
  · simp [hne] at ha'

variable [DecidableEq τ] [DecidableEq ℓ]

/-- Splicing a free task into a place of one queue inserts it there and keeps all other queues. -/
theorem splice (h : Represents tasks node queue) {l : ListPtr ℓ} {l₁ l₂ : List τ} {t : τ}
    (hl : queue l = l₁ ++ l₂) (ht : ∀ l', t ∉ queue l') {p n : NodePtr τ ℓ}
    (hp : (NodePtr.head l :: l₁.map NodePtr.node).getLast? = some p)
    (hn : (l₂.map NodePtr.node ++ [NodePtr.tail l]).head? = some n) :
    Represents tasks (splice node p (.node t) n) (Function.update queue l (l₁ ++ t :: l₂)) := by
  have hdeque := h.deque l
  have hpcell : p ∈ cells l (queue l) := by
    rw [hl, cells_append]
    exact List.mem_append_left _ (List.mem_of_getLast? hp)
  have hncell : n ∈ cells l (queue l) := by
    rw [hl, cells_append]
    exact List.mem_append_right _ (List.mem_of_head? hn)
  refine ⟨?_, ?_, ?_⟩
  · intro l'
    by_cases hne : l' = l
    · subst hne
      rw [hl, List.map_append] at hdeque
      simp only [Function.update_self, List.map_append, List.map_cons]
      refine hdeque.splice hp hn ?_
      rw [← List.map_append, ← hl]
      exact fun hcell => ht l' (node_mem_cells.mp hcell)
    · rw [Function.update_of_ne hne]
      refine (h.deque l').congr fun a ha => ?_
      have hap : a ≠ p := fun heq => h.cells_disjoint (Ne.symm hne) hpcell (heq ▸ ha)
      have han : a ≠ n := fun heq => h.cells_disjoint (Ne.symm hne) hncell (heq ▸ ha)
      have hat : a ≠ .node t := fun heq => ht l' (node_mem_cells.mp (heq ▸ ha))
      exact splice_of_ne node hap hat han
  · intro la lb u hua hub
    by_cases hu : u = t
    · subst hu
      have hin : ∀ l', u ∈ Function.update queue l (l₁ ++ u :: l₂) l' → l' = l := by
        intro l' hmem
        by_contra hne
        rw [Function.update_of_ne hne] at hmem
        exact ht l' hmem
      exact (hin la hua).trans (hin lb hub).symm
    · have hout : ∀ l', u ∈ Function.update queue l (l₁ ++ t :: l₂) l' → u ∈ queue l' := by
        intro l' hmem
        by_cases hne : l' = l
        · subst hne
          rw [hl]
          simpa [hu] using hmem
        · rwa [Function.update_of_ne hne] at hmem
      exact h.disjoint la lb u (hout la hua) (hout lb hub)
  · intro u hmem hu
    have hut : u ≠ t := by
      rintro rfl
      exact hu l (by simp)
    have hold : ∀ l', u ∉ queue l' := by
      intro l' hold
      refine hu l' ?_
      by_cases hne : l' = l
      · subst hne
        rw [hl] at hold
        simp only [Function.update_self, List.mem_append, List.mem_cons] at hold ⊢
        tauto
      · rwa [Function.update_of_ne hne]
    have hup : NodePtr.node u ≠ p := fun heq => hold l (node_mem_cells.mp (heq ▸ hpcell))
    have hun : NodePtr.node u ≠ n := fun heq => hold l (node_mem_cells.mp (heq ▸ hncell))
    rw [splice_of_ne node hup (by simpa using hut) hun]
    exact h.free u hmem hold

/-- Taking a task out of its queue clears its node and keeps all other queues. -/
theorem unsplice (h : Represents tasks node queue) {l : ListPtr ℓ} {l₁ l₂ : List τ} {t : τ}
    (hl : queue l = l₁ ++ t :: l₂) {p n : NodePtr τ ℓ}
    (hp : (NodePtr.head l :: l₁.map NodePtr.node).getLast? = some p)
    (hn : (l₂.map NodePtr.node ++ [NodePtr.tail l]).head? = some n) :
    Represents tasks (unsplice node p (.node t) n) (Function.update queue l (l₁ ++ l₂)) := by
  have hdeque := h.deque l
  have hnodup := h.nodup l
  have hmem : ∀ u, u ∈ l₁ ++ l₂ ↔ u ∈ queue l ∧ u ≠ t := by
    intro u
    rw [hl] at hnodup ⊢
    have hperm := (@List.perm_middle _ t l₁ l₂).nodup_iff.mp hnodup
    have hnot := (List.nodup_cons.mp hperm).1
    simp only [List.mem_append, List.mem_cons] at hnot ⊢
    constructor
    · intro hu
      exact ⟨by tauto, fun heq => hnot (heq ▸ hu)⟩
    · tauto
  have htl : t ∈ queue l := by simp [hl]
  have hpcell : p ∈ cells l (queue l) := by
    rw [hl, cells_append]
    exact List.mem_append_left _ (List.mem_of_getLast? hp)
  have hncell : n ∈ cells l (queue l) := by
    rw [hl, List.append_cons, cells_append]
    exact List.mem_append_right _ (List.mem_of_head? hn)
  refine ⟨?_, ?_, ?_⟩
  · intro l'
    by_cases hne : l' = l
    · subst hne
      rw [hl, List.map_append, List.map_cons] at hdeque
      simp only [Function.update_self, List.map_append]
      exact hdeque.unsplice hp hn
    · rw [Function.update_of_ne hne]
      refine (h.deque l').congr fun a ha => ?_
      have hap : a ≠ p := fun heq => h.cells_disjoint (Ne.symm hne) hpcell (heq ▸ ha)
      have han : a ≠ n := fun heq => h.cells_disjoint (Ne.symm hne) hncell (heq ▸ ha)
      have hat : a ≠ .node t := fun heq =>
        hne (h.disjoint l' l t (node_mem_cells.mp (heq ▸ ha)) htl)
      exact unsplice_of_ne node hap hat han
  · intro la lb u hua hub
    have hout : ∀ l', u ∈ Function.update queue l (l₁ ++ l₂) l' → u ∈ queue l' := by
      intro l' hu
      by_cases hne : l' = l
      · subst hne
        rw [Function.update_self, hmem] at hu
        exact hu.1
      · rwa [Function.update_of_ne hne] at hu
    exact h.disjoint la lb u (hout la hua) (hout lb hub)
  · intro u htask hu
    by_cases hut : u = t
    · subst hut
      exact unsplice_self node p (.node u) n
    · have hold : ∀ l', u ∉ queue l' := by
        intro l' hmem'
        refine hu l' ?_
        by_cases hne : l' = l
        · subst hne
          rw [Function.update_self, hmem]
          exact ⟨hmem', hut⟩
        · rwa [Function.update_of_ne hne]
      have hup : NodePtr.node u ≠ p := fun heq => hold l (node_mem_cells.mp (heq ▸ hpcell))
      have hun : NodePtr.node u ≠ n := fun heq => hold l (node_mem_cells.mp (heq ▸ hncell))
      rw [unsplice_of_ne node hup (by simpa using hut) hun]
      exact h.free u htask hold

section Operations

/-- `list_remove` on a queued task. -/
theorem list_remove (h : Represents tasks node queue) {l : ListPtr ℓ} {l₁ l₂ : List τ} {t : τ}
    (hl : queue l = l₁ ++ t :: l₂) :
    ∃ node', (list_remove (.node t)).run node = .ok () node' ∧ node' (.node t) = ⟨none, none⟩ ∧
      Represents tasks node' (Function.update queue l (l₁ ++ l₂)) := by
  have hdeque := h.deque l
  rw [hl, List.map_append, List.map_cons] at hdeque
  obtain ⟨p, -, hp, -, -⟩ := h.gap hl
  obtain ⟨-, n, -, hn, -⟩ := h.gap (show queue l = (l₁ ++ [t]) ++ l₂ by simp [hl])
  obtain ⟨hpt, htn⟩ := hdeque.neighbours hp hn
  obtain ⟨htp, htn', hpn⟩ := hdeque.neighbours_ne hp hn
  exact ⟨_, list_remove_run hpt.2 htn.1 htp htn' hpn, unsplice_self node p (.node t) n,
    h.unsplice hl hp hn⟩

/-- `list_insert_before` on a task in no queue, in front of the cell behind a place. -/
theorem list_insert_before (h : Represents tasks node queue) {l : ListPtr ℓ} {l₁ l₂ : List τ} {t : τ}
    (hl : queue l = l₁ ++ l₂) (ht : ∀ l', t ∉ queue l') :
    ∃ node', (list_insert_before (front l l₂) (.node t)).run node = .ok () node' ∧
      Represents tasks node' (Function.update queue l (l₁ ++ t :: l₂)) := by
  have hn := head?_eq_front l l₂
  set n := front l l₂
  have hdeque := h.deque l
  rw [hl, List.map_append] at hdeque
  obtain ⟨p, n', hp, hn', hlinked⟩ := h.gap hl
  obtain rfl : n = n' := by simpa using hn.symm.trans hn'
  have hpcell : p ∈ cells l (queue l) := by
    rw [hl, cells_append]
    exact List.mem_append_left _ (List.mem_of_getLast? hp)
  have hncell : n ∈ cells l (queue l) := by
    rw [hl, cells_append]
    exact List.mem_append_right _ (List.mem_of_head? hn)
  have htp : NodePtr.node t ≠ p := fun heq => ht l (node_mem_cells.mp (heq ▸ hpcell))
  have htn : NodePtr.node t ≠ n := fun heq => ht l (node_mem_cells.mp (heq ▸ hncell))
  exact ⟨_, list_insert_before_run hlinked.2 htp htn (hdeque.gap_ne hp hn), h.splice hl ht hp hn⟩

/-- `list_push` on a task in no queue. -/
theorem list_push (h : Represents tasks node queue) (l : ListPtr ℓ) {t : τ} (ht : ∀ l', t ∉ queue l')
    {fuel : Nat} (hfuel : (queue l).length < fuel) :
    ∃ node', (list_push fuel l.list (.node t)).run node = .ok () node' ∧
      Represents tasks node' (Function.update queue l (t :: queue l)) := by
  have hout : NodePtr.node t ∉ l.list.head :: ((queue l).map .node ++ [l.list.tail]) := by
    simpa [ListPtr.list] using ht l
  obtain ⟨n, hn, hrun⟩ := list_push_run (h.deque l) hout (by simpa using hfuel)
  exact ⟨_, hrun, h.splice (show queue l = [] ++ queue l from rfl) ht rfl hn⟩

theorem list_empty (h : Represents tasks node queue) (l : ListPtr ℓ) :
    (list_empty l.list).run node = .ok (decide (queue l = [])) node := by
  rw [list_empty_run (show Deque node l.list.head l.list.tail _ from h.deque l)]
  simp

end Operations

end Represents

end onix
