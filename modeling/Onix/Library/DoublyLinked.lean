import Mathlib.Data.List.Chain
import Mathlib.Data.List.Nodup
import Mathlib.Tactic

/-! Doubly linked lists between two sentinel cells, in a heap of prev/next links.

The heap is a total function from addresses to links, so separation between two lists is
disjointness of their cells. Both list surgeries, `splice` and `unsplice`, are stated for an
arbitrary place in the list; head and tail operations are the instances at the two ends. -/

namespace DoublyLinked

/-- The two link fields of a cell; `none` is the null pointer. -/
structure Link (α : Type) where
  prev : Option α
  next : Option α
  deriving DecidableEq

variable {α : Type}

/-- Two cells that point at each other. -/
def Linked (h : α → Link α) (a b : α) : Prop :=
  (h a).next = some b ∧ (h b).prev = some a

/-- Consecutive cells of the list point at each other. -/
def Path (h : α → Link α) (cells : List α) : Prop :=
  cells.IsChain (Linked h)

/-- The cells between the sentinels `head` and `tail` are exactly `ns`, in this order. -/
structure Deque (h : α → Link α) (head tail : α) (ns : List α) : Prop where
  first : (h head).prev = none
  last : (h tail).next = none
  nodup : (head :: (ns ++ [tail])).Nodup
  path : Path h (head :: (ns ++ [tail]))

/-- A path only reads the next field of every cell but the last one, and the
prev field of every cell but the first one. -/
theorem Path.congr {h h' : α → Link α} (cells : List α) (hpath : Path h cells)
    (hnext : ∀ a ∈ cells.dropLast, (h' a).next = (h a).next)
    (hprev : ∀ a ∈ cells.tail, (h' a).prev = (h a).prev) : Path h' cells := by
  rw [Path, List.isChain_iff_forall_rel_of_append_cons_cons] at hpath ⊢
  intro a b l₁ l₂ hcells
  obtain ⟨hab, hba⟩ := hpath hcells
  have ha : a ∈ cells.dropLast := by
    rw [hcells, List.dropLast_append_cons, List.dropLast_cons_cons]
    simp
  have hb : b ∈ cells.tail := by
    rw [hcells]
    cases l₁ <;> simp
  exact ⟨by rw [hnext a ha, hab], by rw [hprev b hb, hba]⟩

/-- Cells outside the list may change freely. -/
theorem Deque.congr {h h' : α → Link α} {head tail : α} {ns : List α} (d : Deque h head tail ns)
    (hcells : ∀ a ∈ head :: (ns ++ [tail]), h' a = h a) : Deque h' head tail ns where
  first := by rw [hcells head (by simp), d.first]
  last := by rw [hcells tail (by simp), d.last]
  nodup := d.nodup
  path := d.path.congr _ (fun a ha => by rw [hcells a (List.mem_of_mem_dropLast ha)])
    (fun a ha => by rw [hcells a (List.mem_of_mem_tail ha)])

/-- A list whose sentinels point at each other is empty. -/
theorem Deque.nil {h : α → Link α} {head tail : α} (hne : head ≠ tail)
    (hhead : h head = ⟨none, some tail⟩) (htail : h tail = ⟨some head, none⟩) :
    Deque h head tail [] where
  first := by rw [hhead]
  last := by rw [htail]
  nodup := by simp [hne]
  path := by
    have hlinked : Linked h head tail := ⟨by rw [hhead], by rw [htail]⟩
    simpa [Path] using hlinked

/-- Every place in a list lies between two linked cells, possibly sentinels. -/
theorem Deque.gap {h : α → Link α} {head tail : α} {l₁ l₂ : List α}
    (d : Deque h head tail (l₁ ++ l₂)) :
    ∃ p n, (head :: l₁).getLast? = some p ∧ (l₂ ++ [tail]).head? = some n ∧ Linked h p n := by
  obtain ⟨left, p, hleft⟩ := List.eq_nil_or_concat (head :: l₁) |>.resolve_left (by simp)
  obtain ⟨n, right, hright⟩ := List.exists_cons_of_ne_nil (l := l₂ ++ [tail]) (by simp)
  have hcells : head :: (l₁ ++ l₂ ++ [tail]) = left ++ p :: n :: right := by
    rw [List.append_assoc, hright, ← List.cons_append, hleft]
    simp
  have hpath := d.path
  rw [Path, hcells] at hpath
  exact ⟨p, n, by simp [hleft], by simp [hright], (List.isChain_append_cons_cons.mp hpath).2.1⟩

/-- Between the sentinels is nothing exactly when they are linked. -/
theorem Deque.next_eq_tail_iff {h : α → Link α} {head tail : α} {ns : List α} (d : Deque h head tail ns) :
    (h head).next = some tail ↔ ns = [] := by
  obtain ⟨p, n, hp, hn, hlinked⟩ := Deque.gap (show Deque h head tail ([] ++ ns) from d)
  obtain rfl : head = p := by simpa using hp
  rw [hlinked.1]
  cases ns with
  | nil => simpa using hn.symm
  | cons x ns =>
    obtain rfl : x = n := by simpa using hn
    have hnodup := (List.nodup_cons.mp d.nodup).2
    simp only [Option.some.injEq, reduceCtorEq, iff_false]
    rintro rfl
    simp [List.nodup_append] at hnodup

/-- The cells of a list split at a place, with the neighbours of the place exposed. -/
theorem cells_split {head tail p n : α} {l₁ l₂ : List α} (mid : List α)
    (hp : (head :: l₁).getLast? = some p) (hn : (l₂ ++ [tail]).head? = some n) :
    ∃ left right, head :: l₁ = left ++ [p] ∧ l₂ ++ [tail] = n :: right ∧
      head :: (l₁ ++ (mid ++ l₂) ++ [tail]) = left ++ p :: (mid ++ n :: right) := by
  obtain ⟨left, hleft⟩ := List.getLast?_eq_some_iff.mp hp
  obtain ⟨right, hright⟩ := List.head?_eq_some_iff.mp hn
  refine ⟨left, right, hleft, hright, ?_⟩
  calc head :: (l₁ ++ (mid ++ l₂) ++ [tail]) = (head :: l₁) ++ mid ++ (l₂ ++ [tail]) := by simp
    _ = left ++ p :: (mid ++ n :: right) := by rw [hleft, hright]; simp

/-- A member of the list points at its two neighbours. -/
theorem Deque.neighbours {h : α → Link α} {head tail p x n : α} {l₁ l₂ : List α}
    (d : Deque h head tail (l₁ ++ x :: l₂))
    (hp : (head :: l₁).getLast? = some p) (hn : (l₂ ++ [tail]).head? = some n) :
    Linked h p x ∧ Linked h x n := by
  obtain ⟨left, right, -, -, hcells⟩ := cells_split [x] hp hn
  simp only [List.singleton_append] at hcells
  have hpath := d.path
  rw [hcells] at hpath
  obtain ⟨-, hpx, htail⟩ := List.isChain_append_cons_cons.mp hpath
  exact ⟨hpx, (List.isChain_cons_cons.mp htail).1⟩

/-- A member of the list and its two neighbours are three cells. -/
theorem Deque.neighbours_ne {h : α → Link α} {head tail p x n : α} {l₁ l₂ : List α}
    (d : Deque h head tail (l₁ ++ x :: l₂))
    (hp : (head :: l₁).getLast? = some p) (hn : (l₂ ++ [tail]).head? = some n) :
    x ≠ p ∧ x ≠ n ∧ p ≠ n := by
  obtain ⟨left, right, -, -, hcells⟩ := cells_split [x] hp hn
  simp only [List.singleton_append] at hcells
  have hnodup := d.nodup
  rw [hcells] at hnodup
  simp only [List.nodup_append, List.nodup_cons, List.mem_cons, not_or] at hnodup
  obtain ⟨-, ⟨⟨hpx, hpn, -⟩, ⟨hxn, -⟩, -⟩, -⟩ := hnodup
  exact ⟨Ne.symm hpx, hxn, hpn⟩

/-- The two cells around a place of the list differ. -/
theorem Deque.gap_ne {h : α → Link α} {head tail p n : α} {l₁ l₂ : List α}
    (d : Deque h head tail (l₁ ++ l₂))
    (hp : (head :: l₁).getLast? = some p) (hn : (l₂ ++ [tail]).head? = some n) : p ≠ n := by
  obtain ⟨left, right, -, -, hcells⟩ := cells_split [] hp hn
  simp only [List.nil_append] at hcells
  have hnodup := d.nodup
  rw [hcells] at hnodup
  simp only [List.nodup_append, List.nodup_cons, List.mem_cons, not_or] at hnodup
  exact hnodup.2.1.1.1

/-- The cell of a member of the list points at its neighbours. -/
theorem Deque.cell {h : α → Link α} {head tail x : α} {l₁ l₂ : List α}
    (d : Deque h head tail (l₁ ++ x :: l₂)) :
    h x = ⟨(head :: l₁).getLast?, (l₂ ++ [tail]).head?⟩ := by
  obtain ⟨p, hp⟩ : ∃ p, (head :: l₁).getLast? = some p := by
    simp [List.getLast?_cons]
  obtain ⟨n, hn⟩ : ∃ n, (l₂ ++ [tail]).head? = some n := by
    cases l₂ <;> simp
  obtain ⟨hpx, hxn⟩ := d.neighbours hp hn
  rw [hp, hn, ← hpx.2, ← hxn.1]

/-- The links of a list determine its cells. -/
theorem Deque.unique {h : α → Link α} {head tail : α} {ns ns' : List α} (d : Deque h head tail ns)
    (d' : Deque h head tail ns') : ns = ns' := by
  have hwalk : ∀ (l l' : List α) (a : α), tail ∉ l → tail ∉ l' → Path h (a :: (l ++ [tail])) →
      Path h (a :: (l' ++ [tail])) → l = l' := by
    intro l
    induction l with
    | nil =>
      intro l' a _ hl' hpath hpath'
      cases l' with
      | nil => rfl
      | cons y l' =>
        have heq := (List.isChain_cons_cons.mp hpath).1.1.symm.trans (List.isChain_cons_cons.mp hpath').1.1
        exact absurd (List.mem_cons.mpr (Or.inl (Option.some.inj heq))) hl'
    | cons x l ih =>
      intro l' a hl hl' hpath hpath'
      obtain ⟨hx, hrest⟩ := List.isChain_cons_cons.mp hpath
      cases l' with
      | nil =>
        have heq := hx.1.symm.trans (List.isChain_cons_cons.mp hpath').1.1
        exact absurd (List.mem_cons.mpr (Or.inl (Option.some.inj heq).symm)) hl
      | cons y l' =>
        obtain ⟨hy, hrest'⟩ := List.isChain_cons_cons.mp hpath'
        obtain rfl := Option.some.inj (hx.1.symm.trans hy.1)
        rw [ih l' x (fun hmem => hl (List.mem_cons_of_mem x hmem)) (fun hmem => hl' (List.mem_cons_of_mem x hmem))
          hrest hrest']
  have htail : ∀ {l : List α}, Deque h head tail l → tail ∉ l := by
    intro l dl hmem
    have hnodup := (List.nodup_cons.mp dl.nodup).2
    exact (List.nodup_append.mp hnodup).2.2 tail hmem tail (List.mem_singleton_self tail) rfl
  exact hwalk ns ns' head (htail d) (htail d') d.path d'.path

theorem Deque.cell_eq {h h' : α → Link α} {head tail x : α} {ns : List α} (d : Deque h head tail ns)
    (d' : Deque h' head tail ns) (hx : x ∈ ns) : h' x = h x := by
  obtain ⟨l₁, l₂, rfl⟩ := List.append_of_mem hx
  rw [d.cell, d'.cell]

/-- Taking cells off the front of a list only changes the `prev` of the first cell that stays. -/
theorem Deque.cell_of_suffix {h h' : α → Link α} {head tail x : α} {ns₁ ns₂ : List α}
    (d : Deque h head tail (ns₁ ++ ns₂)) (d' : Deque h' head tail ns₂) (hx : x ∈ ns₂) :
    h' x = h x ∨ ns₂.head? = some x ∧ h' x = { h x with prev := some head } := by
  obtain ⟨l₁, l₂, rfl⟩ := List.append_of_mem hx
  have hcell := d'.cell
  rw [← List.append_assoc] at d
  rw [d.cell, hcell]
  cases l₁ with
  | nil => exact .inr (by simp)
  | cons y l₁ => exact .inl (by simp [List.getLast?_cons])

section Surgery

variable [DecidableEq α]

/-- Link `x` in between `p` and `n`. -/
def splice (h : α → Link α) (p x n : α) : α → Link α := fun a =>
  { prev := if a = n then some x else if a = x then some p else (h a).prev
    next := if a = p then some x else if a = x then some n else (h a).next }

/-- Link `p` and `n` directly and clear the links of `x`. -/
def unsplice (h : α → Link α) (p x n : α) : α → Link α := fun a =>
  { prev := if a = x then none else if a = n then some p else (h a).prev
    next := if a = x then none else if a = p then some n else (h a).next }

theorem splice_of_ne (h : α → Link α) {p x n a : α} (hp : a ≠ p) (hx : a ≠ x) (hn : a ≠ n) :
    splice h p x n a = h a := by
  simp [splice, hp, hx, hn]

theorem unsplice_of_ne (h : α → Link α) {p x n a : α} (hp : a ≠ p) (hx : a ≠ x) (hn : a ≠ n) :
    unsplice h p x n a = h a := by
  simp [unsplice, hp, hx, hn]

@[simp] theorem unsplice_self (h : α → Link α) (p x n : α) : unsplice h p x n x = ⟨none, none⟩ := by
  simp [unsplice]

theorem Path.splice {h : α → Link α} {l₁ l₂ : List α} {p x n : α}
    (hpath : Path h (l₁ ++ p :: n :: l₂)) (hnodup : (l₁ ++ p :: n :: l₂).Nodup)
    (hx : x ∉ l₁ ++ p :: n :: l₂) : Path (splice h p x n) (l₁ ++ p :: x :: n :: l₂) := by
  obtain ⟨hleft, -, hright⟩ := List.isChain_append_cons_cons.mp hpath
  obtain ⟨-, hnodup₂, hdisj⟩ := List.nodup_append.mp hnodup
  obtain ⟨hp, hnodup₃⟩ := List.nodup_cons.mp hnodup₂
  obtain ⟨hn, -⟩ := List.nodup_cons.mp hnodup₃
  simp only [List.mem_append, List.mem_cons, not_or] at hx hp
  obtain ⟨hx₁, hxp, hxn, hx₂⟩ := hx
  refine List.isChain_append_cons_cons.mpr ⟨?_, ?_, List.isChain_cons_cons.mpr ⟨?_, ?_⟩⟩
  · refine Path.congr (l₁ ++ [p]) hleft ?_ ?_
    · intro a ha
      have ha₁ : a ∈ l₁ := by simpa using ha
      have hap : a ≠ p := hdisj a ha₁ p (by simp)
      have hax : a ≠ x := fun heq => hx₁ (heq ▸ ha₁)
      simp [DoublyLinked.splice, hap, hax]
    · intro a ha
      have hne : a ≠ n ∧ a ≠ x := by
        rcases List.mem_append.mp (List.mem_of_mem_tail ha) with hmem | hmem
        · exact ⟨hdisj a hmem n (by simp), fun heq => hx₁ (heq ▸ hmem)⟩
        · rw [List.mem_singleton.mp hmem]
          exact ⟨hp.1, Ne.symm hxp⟩
      simp [DoublyLinked.splice, hne.1, hne.2]
  · constructor
    · simp [DoublyLinked.splice]
    · simp [DoublyLinked.splice, hxn]
  · constructor
    · simp [DoublyLinked.splice, hxp]
    · simp [DoublyLinked.splice]
  · refine Path.congr (n :: l₂) hright ?_ ?_
    · intro a ha
      have ha₂ : a ∈ n :: l₂ := List.mem_of_mem_dropLast ha
      have hne : a ≠ p ∧ a ≠ x := by
        rcases List.mem_cons.mp ha₂ with heq | hmem
        · rw [heq]
          exact ⟨Ne.symm hp.1, Ne.symm hxn⟩
        · exact ⟨fun heq => hp.2 (heq ▸ hmem), fun heq => hx₂ (heq ▸ hmem)⟩
      simp [DoublyLinked.splice, hne.1, hne.2]
    · intro a ha
      have ha₂ : a ∈ l₂ := by simpa using ha
      have han : a ≠ n := fun heq => hn (heq ▸ ha₂)
      have hax : a ≠ x := fun heq => hx₂ (heq ▸ ha₂)
      simp [DoublyLinked.splice, han, hax]

theorem Path.unsplice {h : α → Link α} {l₁ l₂ : List α} {p x n : α}
    (hpath : Path h (l₁ ++ p :: x :: n :: l₂)) (hnodup : (l₁ ++ p :: x :: n :: l₂).Nodup) :
    Path (unsplice h p x n) (l₁ ++ p :: n :: l₂) := by
  obtain ⟨hleft, -, htail⟩ := List.isChain_append_cons_cons.mp hpath
  have hright := (List.isChain_cons_cons.mp htail).2
  obtain ⟨-, hnodup₂, hdisj⟩ := List.nodup_append.mp hnodup
  obtain ⟨hp, hnodup₃⟩ := List.nodup_cons.mp hnodup₂
  obtain ⟨hx, hnodup₄⟩ := List.nodup_cons.mp hnodup₃
  obtain ⟨hn, -⟩ := List.nodup_cons.mp hnodup₄
  simp only [List.mem_cons, not_or] at hp hx
  refine List.isChain_append_cons_cons.mpr ⟨?_, ?_, ?_⟩
  · refine Path.congr (l₁ ++ [p]) hleft ?_ ?_
    · intro a ha
      have ha₁ : a ∈ l₁ := by simpa using ha
      have hap : a ≠ p := hdisj a ha₁ p (by simp)
      have hax : a ≠ x := hdisj a ha₁ x (by simp)
      simp [DoublyLinked.unsplice, hap, hax]
    · intro a ha
      have hne : a ≠ n ∧ a ≠ x := by
        rcases List.mem_append.mp (List.mem_of_mem_tail ha) with hmem | hmem
        · exact ⟨hdisj a hmem n (by simp), hdisj a hmem x (by simp)⟩
        · rw [List.mem_singleton.mp hmem]
          exact ⟨hp.2.1, hp.1⟩
      simp [DoublyLinked.unsplice, hne.1, hne.2]
  · constructor
    · simp [DoublyLinked.unsplice, hp.1]
    · simp [DoublyLinked.unsplice, Ne.symm hx.1]
  · refine Path.congr (n :: l₂) hright ?_ ?_
    · intro a ha
      have ha₂ : a ∈ n :: l₂ := List.mem_of_mem_dropLast ha
      have hap : a ≠ p := by
        rintro rfl
        rcases List.mem_cons.mp ha₂ with heq | hmem
        · exact hp.2.1 heq
        · exact hp.2.2 hmem
      have hax : a ≠ x := by
        rintro rfl
        rcases List.mem_cons.mp ha₂ with heq | hmem
        · exact hx.1 heq
        · exact hx.2 hmem
      simp [DoublyLinked.unsplice, hap, hax]
    · intro a ha
      have ha₂ : a ∈ l₂ := by simpa using ha
      have han : a ≠ n := fun heq => hn (heq ▸ ha₂)
      have hax : a ≠ x := fun heq => hx.2 (heq ▸ ha₂)
      simp [DoublyLinked.unsplice, han, hax]

/-- Splicing a fresh cell into a place of the list inserts it there. -/
theorem Deque.splice {h : α → Link α} {head tail p x n : α} {l₁ l₂ : List α}
    (d : Deque h head tail (l₁ ++ l₂))
    (hp : (head :: l₁).getLast? = some p) (hn : (l₂ ++ [tail]).head? = some n)
    (hx : x ∉ head :: (l₁ ++ l₂ ++ [tail])) :
    Deque (splice h p x n) head tail (l₁ ++ x :: l₂) := by
  obtain ⟨left, right, hleft, hright, hold⟩ := cells_split [] hp hn
  obtain ⟨left', right', hleft', hright', hnew⟩ := cells_split [x] hp hn
  obtain rfl : left' = left := by simpa using hleft'.symm.trans hleft
  obtain rfl : right' = right := by simpa using hright'.symm.trans hright
  simp only [List.nil_append, List.singleton_append] at hold hnew
  have hnodup := d.nodup
  have hpath := d.path
  rw [hold] at hnodup hpath hx
  have hpn : Linked h p n := (List.isChain_append_cons_cons.mp hpath).2.1
  obtain ⟨hxhead, hxtail⟩ : x ≠ head ∧ x ≠ tail := by
    rw [← hold] at hx
    simp only [List.mem_cons, List.mem_append, not_or] at hx
    exact ⟨hx.1, hx.2.2.1⟩
  -- the sentinels keep their null ends: `n` is never the head, `p` never the tail
  have hheadn : head ≠ n := by
    rintro rfl
    exact absurd (d.first.symm.trans hpn.2) (by simp)
  have htailp : tail ≠ p := by
    rintro rfl
    exact absurd (d.last.symm.trans hpn.1) (by simp)
  refine ⟨?_, ?_, ?_, ?_⟩
  · simp [DoublyLinked.splice, hheadn, Ne.symm hxhead, d.first]
  · simp [DoublyLinked.splice, htailp, Ne.symm hxtail, d.last]
  · rw [hnew]
    have hperm : (left' ++ p :: x :: n :: right').Perm (x :: (left' ++ p :: n :: right')) := by
      simpa using @List.perm_middle _ x (left' ++ [p]) (n :: right')
    exact hperm.nodup_iff.mpr (List.nodup_cons.mpr ⟨hx, hnodup⟩)
  · rw [hnew]
    exact hpath.splice hnodup hx

/-- Taking a member out of the list leaves the rest in order. -/
theorem Deque.unsplice {h : α → Link α} {head tail p x n : α} {l₁ l₂ : List α}
    (d : Deque h head tail (l₁ ++ x :: l₂))
    (hp : (head :: l₁).getLast? = some p) (hn : (l₂ ++ [tail]).head? = some n) :
    Deque (unsplice h p x n) head tail (l₁ ++ l₂) := by
  obtain ⟨hpx, hxn⟩ := d.neighbours hp hn
  obtain ⟨left, right, hleft, hright, hold⟩ := cells_split [x] hp hn
  obtain ⟨left', right', hleft', hright', hnew⟩ := cells_split [] hp hn
  obtain rfl : left' = left := by simpa using hleft'.symm.trans hleft
  obtain rfl : right' = right := by simpa using hright'.symm.trans hright
  simp only [List.nil_append, List.singleton_append] at hold hnew
  have hnodup := d.nodup
  have hpath := d.path
  rw [hold] at hnodup hpath
  have hheadn : head ≠ n := by
    rintro rfl
    exact absurd (d.first.symm.trans hxn.2) (by simp)
  have hheadx : head ≠ x := by
    rintro rfl
    exact absurd (d.first.symm.trans hpx.2) (by simp)
  have htailp : tail ≠ p := by
    rintro rfl
    exact absurd (d.last.symm.trans hpx.1) (by simp)
  have htailx : tail ≠ x := by
    rintro rfl
    exact absurd (d.last.symm.trans hxn.1) (by simp)
  refine ⟨?_, ?_, ?_, ?_⟩
  · simp [DoublyLinked.unsplice, hheadn, hheadx, d.first]
  · simp [DoublyLinked.unsplice, htailp, htailx, d.last]
  · rw [hnew]
    have hperm : (left' ++ p :: x :: n :: right').Perm (x :: (left' ++ p :: n :: right')) := by
      simpa using @List.perm_middle _ x (left' ++ [p]) (n :: right')
    exact (List.nodup_cons.mp (hperm.nodup_iff.mp hnodup)).2
  · rw [hnew]
    exact hpath.unsplice hnodup

end Surgery

end DoublyLinked
