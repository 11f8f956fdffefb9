import SlotTree.Tree.Walk
import SlotTree.Written

/-
  Traversals — the entries of a tree taken one by one from both ends.

  A span is a stretch of nodes with both ends included; taking at one end
  hands out the node there and moves that end inward, until the two ends meet.
  A traversal of the whole tree is a span together with the number of entries
  still to come. A `Feed` is what the two have in common with a plain list:
  something to take from at either end.
-/
namespace SlotTree

variable {K V : Type}

/-! ## Spans of nodes -/

/-- A stretch of nodes between two ends, both included. -/
structure Span where
  left : Link
  right : Link
  finished : Bool
  deriving DecidableEq, Repr

namespace Span

/-- The stretch from one node to another; an absent end leaves nothing. -/
def between (left right : Link) : Span := ⟨left, right, left.isNone || right.isNone⟩

/-- The node at one end. -/
def tip (w : Span) : Side → Link
  | .left => w.left
  | .right => w.right

/-- The span with another node at one end. -/
def setTip (w : Span) (s : Side) (l : Link) : Span :=
  match s with
  | .left => { w with left := l }
  | .right => { w with right := l }

/-- Takes the node at one end. -/
def take (t : Tree K V) (s : Side) (w : Span) : Except Fault (Link × Span) :=
  if w.finished then .ok (none, w)
  else if w.left = w.right then .ok (w.tip s, { w with finished := true })
  else do
    let inward ← t.step s.other (w.tip s)
    return (w.tip s, w.setTip s inward)

/-- Takes the entry at one end. -/
def takeEntry (t : Tree K V) (s : Side) (w : Span) : Except Fault (Option (K × V) × Span) := do
  let (id, w) ← w.take t s
  return (t.entryOf id, w)

end Span

/-! ## Traversals of a whole tree -/

/-- A span and the number of entries still to come. -/
structure Traversal where
  span : Span
  remaining : Nat
  deriving DecidableEq, Repr

namespace Traversal

/-- Takes the entry at one end. -/
def take (t : Tree K V) (s : Side) (it : Traversal) :
    Except Fault (Option (K × V) × Traversal) := do
  match ← it.span.takeEntry t s with
  | (none, span) => return (none, { it with span := span })
  | (some e, span) => return (some e, ⟨span, ← countDown it.remaining⟩)

end Traversal

/-- The traversal of all entries. -/
def Tree.traverse (t : Tree K V) : Except Fault Traversal := do
  let first ← t.firstNode
  let last ← t.lastNode
  return ⟨Span.between first last, t.size⟩

/-! ## Feeds -/

/-- Something that is consumed from both ends: how to take at an end, what is
known of the number of items left, that number where it is exact, and a number
of steps after which nothing can be left. -/
structure Feed (σ α : Type) where
  take : Side → σ → Except Fault (Option α × σ)
  hint : σ → Nat × Option Nat
  length : σ → Option Nat
  bound : σ → Nat

namespace Feed

/-- What can be taken from one end in some number of steps, the last of which
finds nothing. -/
def takeWithin {σ α : Type} (f : Feed σ α) (s : Side) : Nat → σ → Except Fault (List α × σ)
  | 0, _ => .error .endless
  | steps + 1, it => do
    match ← f.take s it with
    | (none, it) => return ([], it)
    | (some a, it) =>
      let (rest, it) ← f.takeWithin s steps it
      return (a :: rest, it)

/-- All that is left, taken from one end. -/
def takeAll {σ α : Type} (f : Feed σ α) (s : Side) (it : σ) : Except Fault (List α × σ) :=
  f.takeWithin s (f.bound it + 1) it

/-- A tree's entries with their number known; a traversal that goes on after
it has counted down breaks off by itself. -/
def ofTree (t : Tree K V) : Feed Traversal (K × V) where
  take := fun s it => it.take t s
  hint := fun it => (it.remaining, some it.remaining)
  length := fun it => some it.remaining
  bound := fun it => it.remaining

/-- The entries of a span, whose number is not known. -/
def ofSpan (t : Tree K V) : Feed Span (K × V) where
  take := fun s w => w.takeEntry t s
  hint := fun _ => (0, none)
  length := fun _ => none
  bound := fun _ => t.horizon

/-- The item at one end of a list and the items left. -/
def takeFromList {α : Type} : Side → List α → Option α × List α
  | .left, items => (items.head?, items.tail)
  | .right, items => (items.getLast?, items.dropLast)

/-- The items of a list. -/
def ofList (α : Type) : Feed (List α) α where
  take := fun s items => .ok (takeFromList s items)
  hint := fun items => (items.length, some items.length)
  length := fun items => some items.length
  bound := fun items => items.length

end Feed

namespace Tree

/-- Gives slots back one after the other and hands out the entries they held;
a vacant one is passed over. -/
def releaseAll : Slots (Node K V) → List Nat → Except Fault (List (K × V))
  | _, [] => .ok []
  | slots, id :: ids => do
    match ← slots.release (some id) with
    | none => releaseAll slots ids
    | some (n, slots) => return n.entry :: (← releaseAll slots ids)

/-- All entries as a traversal from one end hands them out. -/
def entriesFrom (t : Tree K V) (s : Side) : Except Fault (List (K × V)) := do
  return (← (Feed.ofTree t).takeAll s (← t.traverse)).1

/-- The entries of a tree that is given up for them. The walk needs the links,
so all slots are found first; then each is given back and its entry handed
out. -/
def intoEntries (t : Tree K V) : Except Fault (List (K × V)) := do
  releaseAll t.slots (← t.inOrder)

/-! ## Equality and text -/

/-- Whether two traversals hand out the same entries. -/
def sameFrom [DecidableEq K] [DecidableEq V] (a b : Tree K V) :
    Nat → Traversal → Traversal → Except Fault Bool
  | 0, _, _ => .error .endless
  | steps + 1, x, y => do
    match ← x.take a .left with
    | (none, _) => return (← y.take b .left).1.isNone
    | (some e, x) =>
      match ← y.take b .left with
      | (none, _) => return false
      | (some f, y) => if e = f then sameFrom a b steps x y else return false

/-- Whether two trees hold the same entries in the same order. -/
def same [DecidableEq K] [DecidableEq V] (a b : Tree K V) : Except Fault Bool := do
  if a.size = b.size then sameFrom a b (a.size + 1) (← a.traverse) (← b.traverse)
  else return false

/-- The text of all entries between braces. -/
def text [Written K] [Written V] (t : Tree K V) : Except Fault String := do
  let es ← t.entriesFrom .left
  let texts := es.map (fun e => Written.text e.1 ++ ": " ++ Written.text e.2)
  return "\x7b" ++ commaSeparated texts ++ "\x7d"

end Tree

end SlotTree
