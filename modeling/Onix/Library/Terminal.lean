import Mathlib.Tactic

/-! Character terminals that leave a full line only when the next character comes. -/

namespace Terminal

variable {α β : Type}

/-- A grid of cells, found by line and column, the cursor, and how many lines have left the grid at
the top. -/
structure Screen (α : Type) where
  cell : Nat → Nat → α
  x : Nat
  y : Nat
  scrolled : Nat

/-- What a terminal can be told. -/
inductive Key (α : Type) where
  | put (a : α)
  | newline
  | feed
  | home
  | back
  | delete
  | ignore

/-- What a cell is erased to, and the line that scrolling brings in at the bottom. -/
structure Blanks (α : Type) where
  erased : α
  bottom : Nat → α

def Key.map (f : α → β) : Key α → Key β
  | .put a => .put (f a)
  | .newline => .newline
  | .feed => .feed
  | .home => .home
  | .back => .back
  | .delete => .delete
  | .ignore => .ignore

def Blanks.map (f : α → β) (b : Blanks α) : Blanks β where
  erased := f b.erased
  bottom column := f (b.bottom column)

namespace Screen

def map (f : α → β) (s : Screen α) : Screen β where
  cell line column := f (s.cell line column)
  x := s.x
  y := s.y
  scrolled := s.scrolled

def set (s : Screen α) (line column : Nat) (a : α) : Screen α :=
  { s with cell := fun l c => if l = line ∧ c = column then a else s.cell l c }

/-- Nothing but erased cells, and the cursor in the first of them. -/
def blank (a : α) : Screen α where
  cell _ _ := a
  x := 0
  y := 0
  scrolled := 0

variable (width height : Nat) (b : Blanks α)

/-- One line down; below the last line all lines move up instead. -/
def line_feed (s : Screen α) : Screen α :=
  if s.y + 1 < height then { s with y := s.y + 1 }
  else
    { s with
      cell := fun line column => if line + 1 < height then s.cell (line + 1) column else b.bottom column
      scrolled := s.scrolled + 1 }

/-- A full line is left for the start of the next one. -/
def wrap (s : Screen α) : Screen α :=
  if width ≤ s.x then line_feed height b { s with x := 0 } else s

def advance (s : Screen α) (a : α) : Screen α := { s.set s.y s.x a with x := s.x + 1 }

def press (s : Screen α) : Key α → Screen α
  | .put a => (s.wrap width height b).advance a
  | .newline => { s.line_feed height b with x := 0 }
  | .feed => s.line_feed height b
  | .home => { s with x := 0 }
  | .back => if s.x = 0 then s else { s.set s.y (s.x - 1) b.erased with x := s.x - 1 }
  -- behind a full line the cursor is on the first cell of the next one
  | .delete => s.set (s.y + s.x / width) (s.x % width) b.erased
  | .ignore => s

/-- A terminal told one thing after the other. -/
def type (keys : List (Key α)) (s : Screen α) : Screen α := keys.foldl (press width height b) s

variable {width height b} (f : α → β) (s : Screen α)

theorem set_map (line column : Nat) (a : α) : (s.set line column a).map f = (s.map f).set line column (f a) := by
  simp only [set, map, apply_ite f]

theorem line_feed_map : (s.line_feed height b).map f = (s.map f).line_feed height (b.map f) := by
  unfold line_feed
  rw [apply_ite (map f)]
  simp only [map, Blanks.map, apply_ite f]
  rfl

theorem wrap_map : (s.wrap width height b).map f = (s.map f).wrap width height (b.map f) := by
  unfold wrap
  rw [apply_ite (map f), line_feed_map]
  rfl

theorem advance_map (a : α) : (s.advance a).map f = (s.map f).advance (f a) := by
  have h := s.set_map f s.y s.x a
  unfold advance
  rw [show (s.map f).set (s.map f).y (s.map f).x (f a) = (s.set s.y s.x a).map f from h.symm]
  rfl

/-- A terminal does the same to cells of another kind. -/
theorem press_map (k : Key α) : (s.press width height b k).map f = (s.map f).press width height (b.map f) (k.map f) := by
  cases k with
  | put a =>
    unfold press
    rw [Key.map, advance_map, wrap_map]
  | newline =>
    unfold press
    rw [Key.map]
    dsimp only
    rw [← line_feed_map]
    rfl
  | feed => exact s.line_feed_map f
  | home => rfl
  | back =>
    have h := s.set_map f s.y (s.x - 1) b.erased
    unfold press
    rw [apply_ite (map f), Key.map]
    dsimp only
    rw [show (s.map f).set (s.map f).y ((s.map f).x - 1) (b.map f).erased = (s.set s.y (s.x - 1) b.erased).map f
      from h.symm]
    rfl
  | delete => exact s.set_map f _ _ _
  | ignore => rfl

theorem type_map (keys : List (Key α)) :
    (s.type width height b keys).map f = (s.map f).type width height (b.map f) (keys.map (Key.map f)) := by
  induction keys generalizing s with
  | nil => rfl
  | cons k keys ih => rw [type, List.foldl_cons, ← type, ih, press_map, List.map_cons, type, type, List.foldl_cons]

/-- The cursor is in the grid, or behind the last cell of a line. -/
structure Inside (width height : Nat) (s : Screen α) : Prop where
  x : s.x ≤ width
  y : s.y < height

variable {s}

theorem Inside.line_feed (h : s.Inside width height) : (s.line_feed height b).Inside width height := by
  unfold Screen.line_feed
  split_ifs with hlast
  · exact ⟨h.x, hlast⟩
  · exact ⟨h.x, h.y⟩

theorem Inside.wrap (hwidth : 0 < width) (h : s.Inside width height) :
    (s.wrap width height b).Inside width height ∧ (s.wrap width height b).x < width := by
  unfold Screen.wrap
  split_ifs with hfull
  · have hstart : ({ s with x := 0 } : Screen α).Inside width height := ⟨Nat.zero_le _, h.y⟩
    refine ⟨hstart.line_feed, ?_⟩
    unfold Screen.line_feed
    split_ifs <;> exact hwidth
  · exact ⟨h, Nat.lt_of_not_le hfull⟩

end Screen

end Terminal
