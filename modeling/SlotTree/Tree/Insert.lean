import SlotTree.Tree.Search
import SlotTree.Tree.Balance
import SlotTree.Tree.Traversal

/-
  Insertion — a value put in place of an equal key's value, or a new red node
  linked in where the search ended and the tree repaired above it.

  A key that is already there keeps its stored form and its slot; only the
  value changes. Either way the revision moves on by one.
-/
namespace SlotTree

/-- What an insertion answers: the slot that now holds the key, the value it
held before if it was there, and the tree. -/
structure Inserted (K V : Type) where
  id : Nat
  old : Option V
  tree : Tree K V

namespace Tree

variable {K V : Type}

/-- Puts a new red node below `parent` on side `s`, or at the root, without
repair. -/
def attach (t : Tree K V) (key : K) (value : V) (place : Option (Nat × Side)) :
    Except Fault (Nat × Tree K V) := do
  let (id, slots) ← t.slots.allocate (Node.leaf key value (place.map (·.1)))
  let t := { t with slots := slots, size := t.size + 1 }.touched
  match place with
  | none => return (id, { t with root := some id })
  | some (parent, s) => return (id, ← t.setChild s parent (some id))

/-- Puts a node without links into a slot and leaves the tree alone. -/
def stash (t : Tree K V) (key : K) (value : V) : Except Fault (Nat × Tree K V) := do
  let (id, slots) ← t.slots.allocate (Node.leaf key value none)
  return (id, { t with slots := slots })

/-- Puts a new red node below `parent` on side `s`, or at the root, and
repairs the tree. -/
def graft (t : Tree K V) (key : K) (value : V) (place : Option (Nat × Side)) :
    Except Fault (Inserted K V) := do
  let (id, t) ← t.attach key value place
  return ⟨id, none, ← t.mendRed (some id)⟩

/-- Puts another value in place of a node's value. -/
def overwrite (t : Tree K V) (id : Nat) (value : V) : Except Fault (Inserted K V) := do
  let old := (← t.node id).value
  return ⟨id, some old, (← t.setValue id value).touched⟩

/-- Stores a value for a key and reports the slot. -/
def insertNode (cmp : K → K → Ordering) (t : Tree K V) (key : K) (value : V) :
    Except Fault (Inserted K V) := do
  match ← t.locate cmp key with
  | .found id => t.overwrite id value
  | .below parent s => t.graft key value (some (parent, s))
  | .nowhere => t.graft key value none

/-- Stores a value for a key; answers the value it replaces. -/
def insert (cmp : K → K → Ordering) (t : Tree K V) (key : K) (value : V) :
    Except Fault (Option V × Tree K V) := do
  let done ← t.insertNode cmp key value
  return (done.old, done.tree)

/-- Stores entries one after the other. -/
def insertAll (cmp : K → K → Ordering) : Tree K V → List (K × V) → Except Fault (Tree K V)
  | t, [] => .ok t
  | t, (key, value) :: rest => do
    let (_, t) ← t.insert cmp key value
    insertAll cmp t rest

/-- The tree that holds the entries of a list; of two equal keys the first is
stored and the later value. -/
def ofList (cmp : K → K → Ordering) (es : List (K × V)) : Except Fault (Tree K V) :=
  empty.insertAll cmp es

/-- Stores all entries of another tree, in the order they have there. -/
def merge (cmp : K → K → Ordering) (t other : Tree K V) : Except Fault (Tree K V) := do
  t.insertAll cmp (← other.entriesFrom .left)

/-- Hands the value of a key out for a change. The revision moves on if the
key is there, whether or not the value changes; answers the value from
before. -/
def modify (cmp : K → K → Ordering) (t : Tree K V) (key : K) (f : V → V) :
    Except Fault (Option V × Tree K V) := do
  match ← t.find cmp key with
  | none => return (none, t)
  | some id =>
    let n ← t.node id
    return (some n.value, (← t.setValue id (f n.value)).touched)

end Tree

end SlotTree
