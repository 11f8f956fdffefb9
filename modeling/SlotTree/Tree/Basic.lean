import SlotTree.Slots
import SlotTree.Node

/-
  Trees — an ordered map kept as a red-black tree whose nodes live in slots.

  A tree is a store of nodes, a link to the root, the number of its entries
  and a revision number that every change of content moves on. It holds no
  comparison: each keyed operation takes the one it is to go by.

  There are two ways to read a node. The reading functions on links answer
  for an absent or vacant node too: it has no parent, no children and no
  entry, and it is black. `node` and the functions that write links take a
  number on trust and break off with a fault if the slot is vacant.
-/
namespace SlotTree

/-- A store of nodes, the root, the number of entries and the revision. -/
structure Tree (K V : Type) where
  slots : Slots (Node K V)
  root : Link
  size : Nat
  revision : UInt64
  deriving DecidableEq

namespace Tree

variable {K V : Type}

/-- The tree without entries. -/
def empty : Tree K V := ⟨Slots.empty, none, 0, 0⟩

/-- Whether the tree has no entries. -/
def isEmpty (t : Tree K V) : Bool := t.size == 0

/-- The tree one revision later; revision numbers start again after the
largest one. -/
def touched (t : Tree K V) : Tree K V := { t with revision := t.revision + 1 }

/-- The same entries in the same slots under a revision count of its own. -/
def copy (t : Tree K V) : Tree K V := { t with revision := 0 }

/-- Makes room for `n` more entries in cells of `width` bytes, which changes no
answer. -/
def reserve (t : Tree K V) (n width : Nat) : Except Fault (Tree K V) := do
  return { t with slots := ← t.slots.reserve n width }

/-! ## Reading through links -/

/-- The parent of a node. -/
def parentOf (t : Tree K V) (id : Link) : Link := (t.slots.get? id).bind (·.parent)

/-- The child of a node on one side. -/
def childOf (t : Tree K V) (s : Side) (id : Link) : Link := (t.slots.get? id).bind (·.child s)

/-- The colour of a node; a missing node is black. -/
def colorOf (t : Tree K V) (id : Link) : Color :=
  match t.slots.get? id with
  | some n => n.color
  | none => .black

/-- The key of a node. -/
def keyOf (t : Tree K V) (id : Link) : Option K := (t.slots.get? id).map (·.key)

/-- The entry of a node. -/
def entryOf (t : Tree K V) (id : Link) : Option (K × V) := (t.slots.get? id).map (·.entry)

/-- Gives a node a colour; a missing node stays as it is. -/
def recolor (t : Tree K V) (id : Link) (c : Color) : Tree K V :=
  { t with slots := t.slots.update id (fun n => { n with color := c }) }

/-! ## Reading and writing slots taken on trust -/

/-- The node in a slot. -/
def node (t : Tree K V) (id : Nat) : Except Fault (Node K V) := t.slots.fetch (some id)

/-- Changes the node in a slot. -/
def reviseNode (t : Tree K V) (id : Nat) (f : Node K V → Node K V) : Except Fault (Tree K V) := do
  let slots ← t.slots.revise (some id) f
  return { t with slots := slots }

/-- Links a node down to a child. -/
def setChild (t : Tree K V) (s : Side) (id : Nat) (child : Link) : Except Fault (Tree K V) :=
  t.reviseNode id (·.setChild s child)

/-- Links a node up to a parent. -/
def setParent (t : Tree K V) (id : Nat) (parent : Link) : Except Fault (Tree K V) :=
  t.reviseNode id (fun n => { n with parent := parent })

/-- Puts a value in place of a node's value. -/
def setValue (t : Tree K V) (id : Nat) (v : V) : Except Fault (Tree K V) :=
  t.reviseNode id (fun n => { n with value := v })

/-- Puts one node in place of another below `parent`, or as the root if there
is no parent. Only the link downwards changes. -/
def replaceChild (t : Tree K V) (parent : Link) (old : Nat) (new : Link) :
    Except Fault (Tree K V) :=
  match parent with
  | none => .ok { t with root := new }
  | some p => do
    let n ← t.node p
    t.setChild (if n.left = some old then .left else .right) p new

/-- The number of slots and one more: a walk along links that takes as many
steps has come twice to the same slot. -/
def horizon (t : Tree K V) : Nat := t.slots.size + 1

/-- A bound for loops that change the tree between their steps: a full walk
for every slot. -/
def patience (t : Tree K V) : Nat := t.horizon * t.horizon

end Tree

end SlotTree
