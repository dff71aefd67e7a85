import Onix.Failure
import Onix.Library.DoublyLinked

open DoublyLinked

namespace onix

abbrev list_node_t (α : Type) := Link α

/-- A list is known by the addresses of its two sentinel nodes. -/
structure list_t (α : Type) where
  head : α
  tail : α
  deriving DecidableEq

/-- The memory of all list nodes, by address. -/
abbrev NodeHeap (α : Type) := α → list_node_t α

abbrev ListM (α : Type) := EStateM Failure (NodeHeap α)

variable {α : Type}

/-- The address stored in a pointer; following a null pointer faults. -/
def deref (ptr : Option α) : ListM α α :=
  match ptr with
  | some a => pure a
  | none => throw .null_pointer

def get_prev (node : α) : ListM α (Option α) := return ((← get) node).prev

def get_next (node : α) : ListM α (Option α) := return ((← get) node).next

variable [DecidableEq α]

def set_prev (node : α) (ptr : Option α) : ListM α Unit :=
  modify fun h => Function.update h node { h node with prev := ptr }

def set_next (node : α) (ptr : Option α) : ListM α Unit :=
  modify fun h => Function.update h node { h node with next := ptr }

def list_init (list : list_t α) : ListM α Unit := do
  set_prev list.head none
  set_next list.tail none
  set_next list.head (some list.tail)
  set_prev list.tail (some list.head)

def list_insert_before (anchor node : α) : ListM α Unit := do
  set_prev node (← get_prev anchor)
  set_next node (some anchor)
  set_next (← deref (← get_prev anchor)) (some node)
  set_prev anchor (some node)

def list_insert_after (anchor node : α) : ListM α Unit := do
  set_prev node (some anchor)
  set_next node (← get_next anchor)
  set_prev (← deref (← get_next anchor)) (some node)
  set_next anchor (some node)

/-- The while loop of `list_search`, for at most `fuel` tests of its condition. -/
def list_search_loop (list : list_t α) (node : α) : Nat → Option α → ListM α Bool
  | 0, _ => throw .runaway_loop
  | fuel + 1, next =>
    if next = some list.tail then pure false
    else if next = some node then pure true
    else do
      let cell ← deref next
      list_search_loop list node fuel (← get_next cell)

def list_search (fuel : Nat) (list : list_t α) (node : α) : ListM α Bool := do
  list_search_loop list node fuel (← get_next list.head)

def list_push (fuel : Nat) (list : list_t α) (node : α) : ListM α Unit := do
  assert .list_push_absent (!(← list_search fuel list node))
  list_insert_after list.head node

def list_remove (node : α) : ListM α Unit := do
  assert .list_remove_prev (← get_prev node).isSome
  assert .list_remove_next (← get_next node).isSome
  set_next (← deref (← get_prev node)) (← get_next node)
  set_prev (← deref (← get_next node)) (← get_prev node)
  set_next node none
  set_prev node none

def list_empty (list : list_t α) : ListM α Bool := return (← get_next list.head) = some list.tail

def list_pop (list : list_t α) : ListM α α := do
  assert .list_pop_empty (!(← list_empty list))
  let node ← deref (← get_next list.head)
  list_remove node
  return node

def list_pushback (fuel : Nat) (list : list_t α) (node : α) : ListM α Unit := do
  assert .list_push_absent (!(← list_search fuel list node))
  list_insert_before list.tail node

def list_popback (list : list_t α) : ListM α α := do
  assert .list_popback_empty (!(← list_empty list))
  let node ← deref (← get_prev list.tail)
  list_remove node
  return node

/-- The while loop of `list_size`, for at most `fuel` tests of its condition. -/
def list_size_loop (list : list_t α) : Nat → UInt32 → Option α → ListM α UInt32
  | 0, _, _ => throw .runaway_loop
  | fuel + 1, size, next =>
    if next = some list.tail then pure size
    else do
      let cell ← deref next
      list_size_loop list fuel (size + 1) (← get_next cell)

def list_size (fuel : Nat) (list : list_t α) : ListM α UInt32 := do
  list_size_loop list fuel 0 (← get_next list.head)

section InsertSort

/-! `element_node_key` is the `int` that the macro of that name reads behind a node, for the `offset` that
`list_insert_sort` is given. -/

variable (element_node_key : α → Int32)

/-- The loop of `list_insert_sort`, for at most `fuel` tests of its condition: the node of the first
greater key, or the tail. -/
def list_insert_sort_loop (list : list_t α) (key : Int32) : Nat → Option α → ListM α α
  | 0, _ => throw .runaway_loop
  | fuel + 1, ptr =>
    if ptr = some list.tail then pure list.tail
    else do
      let cell ← deref ptr
      let compare := element_node_key cell
      if compare > key then return cell
      list_insert_sort_loop list key fuel (← get_next cell)

def list_insert_sort (fuel : Nat) (list : list_t α) (node : α) : ListM α Unit := do
  let key := element_node_key node
  let anchor ← list_insert_sort_loop element_node_key list key fuel (← get_next list.head)
  assert .list_insert_sort_next (← get_next node).isNone
  assert .list_insert_sort_prev (← get_prev node).isNone
  list_insert_before anchor node

end InsertSort

end onix
