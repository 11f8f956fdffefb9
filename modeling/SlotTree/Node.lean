import SlotTree.Fault

/-
  Nodes — one entry of a tree together with its colour and its links.

  The two sides of a node are values of `Side`, so that what a tree does on
  one side and on the other is one definition with a side for a parameter.
-/
namespace SlotTree

/-- The colour of a node. -/
inductive Color where
  | red
  | black
  deriving DecidableEq, Repr

/-- One of the two sides of a node; keys that come before lie on the left. -/
inductive Side where
  | left
  | right
  deriving DecidableEq, Repr

namespace Side

/-- The opposite side. -/
def other : Side → Side
  | .left => .right
  | .right => .left

/-- The side on which a search goes on after comparing its key with a node's
key; nowhere if they are equal. -/
def toward : Ordering → Option Side
  | .lt => some .left
  | .gt => some .right
  | .eq => none

/-- How a key on this side of another compares with it. -/
def order : Side → Ordering
  | .left => .lt
  | .right => .gt

@[simp] theorem other_other (s : Side) : s.other.other = s := by cases s <;> rfl

theorem eq_other_of_ne {s s' : Side} (h : s' ≠ s) : s' = s.other := by
  cases s <;> cases s' <;> first | rfl | exact absurd rfl h

@[simp] theorem toward_order (s : Side) : toward s.order = some s := by cases s <;> rfl

end Side

/-- An entry, its colour and the links to the two children and the parent. -/
structure Node (K V : Type) where
  key : K
  value : V
  left : Link
  right : Link
  parent : Link
  color : Color
  deriving DecidableEq, Repr

namespace Node

variable {K V : Type}

/-- A red node without children, as it is linked in under `parent`. -/
def leaf (key : K) (value : V) (parent : Link) : Node K V :=
  ⟨key, value, none, none, parent, .red⟩

/-- The link to the child on one side. -/
def child (n : Node K V) : Side → Link
  | .left => n.left
  | .right => n.right

/-- The node with another child on one side. -/
def setChild (n : Node K V) (s : Side) (l : Link) : Node K V :=
  match s with
  | .left => { n with left := l }
  | .right => { n with right := l }

/-- The key and the value. -/
def entry (n : Node K V) : K × V := (n.key, n.value)

/-- The node with its own links and colour and the entry of another. -/
def withEntry (n : Node K V) (e : K × V) : Node K V := { n with key := e.1, value := e.2 }

@[simp] theorem child_setChild (n : Node K V) (s : Side) (l : Link) :
    (n.setChild s l).child s = l := by
  cases s <;> rfl

@[simp] theorem child_setChild_other (n : Node K V) (s : Side) (l : Link) :
    (n.setChild s l).child s.other = n.child s.other := by
  cases s <;> rfl

end Node

end SlotTree
