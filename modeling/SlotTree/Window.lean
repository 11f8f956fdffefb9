import SlotTree.Tree.Insert
import SlotTree.Tree.Erase
import SlotTree.Tree.Traversal
import SlotTree.Interval

/-
  Windows — a tree seen through an interval of its keys.

  A window holds an interval that was accepted and is given the tree by every
  operation. Reads answer as if the keys outside were not there. Insertions
  and removals of a key outside are refused before the tree is touched; all
  other changes go through to the tree.
-/
namespace SlotTree

/-- An interval that a tree is read and changed through. -/
structure Window (K : Type) where
  interval : Interval K
  deriving DecidableEq, Repr

namespace Window

variable {K V : Type}

/-- Opens a window on the keys between two bounds. -/
def ofBounds (cmp : K → K → Ordering) (bounds : Interval K) : Except Refusal (Window K) := do
  bounds.check cmp
  return ⟨bounds⟩

/-- Opens a window on the keys that lie in this one and between further
bounds. -/
def narrow (cmp : K → K → Ordering) (w : Window K) (bounds : Interval K) :
    Except Refusal (Window K) :=
  Window.mk <$> w.interval.narrow cmp bounds

/-- Whether a key lies in the window, present or not. -/
def admits (cmp : K → K → Ordering) (w : Window K) (key : K) : Bool := w.interval.contains cmp key

/-! ## Finding nodes -/

/-- A node whose key does not lie beyond the window on side `s`. -/
def keepWithin (cmp : K → K → Ordering) (t : Tree K V) (w : Window K) (s : Side) (id : Link) :
    Link :=
  match t.keyOf id with
  | some key => if w.interval.isBeyond cmp s key then none else id
  | none => none

/-- The last node of the window on side `s`. -/
def endNode (cmp : K → K → Ordering) (t : Tree K V) (w : Window K) (s : Side) :
    Except Fault Link := do
  let id ← match w.interval.bound s with
    | .included key => t.nearest cmp s.other true key
    | .excluded key => t.nearest cmp s.other false key
    | .unbounded => t.endNode s
  return w.keepWithin cmp t s.other id

/-- The node of the window that follows a key towards side `s`; after a key
that lies before the window it is the first one on the way. -/
def beyondKey (cmp : K → K → Ordering) (t : Tree K V) (w : Window K) (s : Side) (key : K) :
    Except Fault Link := do
  if w.interval.isBeyond cmp s.other key then w.endNode cmp t s.other
  else return w.keepWithin cmp t s (← t.nearest cmp s false key)

/-! ## Reading -/

/-- The key at one end. -/
def endKey (cmp : K → K → Ordering) (t : Tree K V) (w : Window K) (s : Side) :
    Except Fault (Option K) :=
  t.keyOf <$> w.endNode cmp t s

/-- The entry at one end. -/
def endEntry (cmp : K → K → Ordering) (t : Tree K V) (w : Window K) (s : Side) :
    Except Fault (Option (K × V)) :=
  t.entryOf <$> w.endNode cmp t s

/-- The value of a key that lies in the window. -/
def get? (cmp : K → K → Ordering) (t : Tree K V) (w : Window K) (key : K) :
    Except Fault (Option V) :=
  if w.admits cmp key then t.get? cmp key else .ok none

/-- Whether a key is present and lies in the window. -/
def contains (cmp : K → K → Ordering) (t : Tree K V) (w : Window K) (key : K) :
    Except Fault Bool :=
  Option.isSome <$> w.get? cmp t key

/-- The key of the window after a key. -/
def nextKey (cmp : K → K → Ordering) (t : Tree K V) (w : Window K) (key : K) :
    Except Fault (Option K) :=
  t.keyOf <$> w.beyondKey cmp t .right key

/-- The key of the window before a key. -/
def previousKey (cmp : K → K → Ordering) (t : Tree K V) (w : Window K) (key : K) :
    Except Fault (Option K) :=
  t.keyOf <$> w.beyondKey cmp t .left key

/-- The nodes of the window. -/
def span (cmp : K → K → Ordering) (t : Tree K V) (w : Window K) : Except Fault Span := do
  let first ← w.endNode cmp t .left
  let last ← w.endNode cmp t .right
  return Span.between first last

/-- The entries of the window in the order of their keys. -/
def entries (cmp : K → K → Ordering) (t : Tree K V) (w : Window K) :
    Except Fault (List (K × V)) := do
  return (← (Feed.ofSpan t).takeAll .left (← w.span cmp t)).1

/-- The number of entries, which are counted one by one. -/
def count (cmp : K → K → Ordering) (t : Tree K V) (w : Window K) : Except Fault Nat :=
  List.length <$> w.entries cmp t

/-- Whether the window has no entry. -/
def isEmpty (cmp : K → K → Ordering) (t : Tree K V) (w : Window K) : Except Fault Bool :=
  Option.isNone <$> w.endNode cmp t .left

/-! ## Changing the tree through a window -/

/-- Refuses a key outside the window. -/
def checkKey (cmp : K → K → Ordering) (w : Window K) (key : K) : Except Refusal Unit :=
  if w.admits cmp key then .ok () else .error .keyOutOfRange

/-- Stores a value for a key of the window. -/
def insert (cmp : K → K → Ordering) (t : Tree K V) (w : Window K) (key : K) (value : V) :
    Except Fault (Except Refusal (Option V × Tree K V)) :=
  match w.checkKey cmp key with
  | .error refusal => .ok (.error refusal)
  | .ok () => Except.ok <$> t.insert cmp key value

/-- Removes a key of the window. -/
def remove (cmp : K → K → Ordering) (t : Tree K V) (w : Window K) (key : K) :
    Except Fault (Except Refusal (Option V × Tree K V)) :=
  match w.checkKey cmp key with
  | .error refusal => .ok (.error refusal)
  | .ok () => Except.ok <$> t.remove cmp key

/-- Hands the value of a key of the window out for a change. -/
def modify (cmp : K → K → Ordering) (t : Tree K V) (w : Window K) (key : K) (f : V → V) :
    Except Fault (Option V × Tree K V) :=
  if w.admits cmp key then t.modify cmp key f else .ok (none, t)

/-- Removes the entry at one end of the window. -/
def pop (cmp : K → K → Ordering) (t : Tree K V) (w : Window K) (s : Side) :
    Except Fault (Option (K × V) × Tree K V) := do
  t.takeNode (← w.endNode cmp t s)

/-- Removes the entries from a link onwards up to the upper end of the
window. -/
def clearFrom (cmp : K → K → Ordering) (w : Window K) :
    Nat → Tree K V → Link → Except Fault (Tree K V)
  | 0, _, _ => .error .endless
  | steps + 1, t, current =>
    match t.keyOf current with
    | none => .ok t
    | some key =>
      if w.interval.isBeyond cmp .right key then .ok t
      else do
        match ← t.eraseNode current with
        | none => return t
        | some r => clearFrom cmp w steps r.tree r.next

/-- Removes every entry of the window. -/
def clear (cmp : K → K → Ordering) (t : Tree K V) (w : Window K) : Except Fault (Tree K V) := do
  clearFrom cmp w t.patience t (← w.endNode cmp t .left)

end Window

end SlotTree
