import SlotTree.Tree.Erase
import SlotTree.Refusal

/-
  Cursors — positions between two entries that stay valid while they are the
  only ones to change the tree.

  A cursor keeps the node on either side of its gap, the node it returned last
  and the revision it last saw; it does not keep the tree, which is given to
  every operation. A revision that has moved on without the cursor is refused
  by the next operation. What the cursor changes itself it takes note of.

  Sides are those of the gap: `.right` is where `next` goes.
-/
namespace SlotTree

/-- The nodes after and before the gap, the node returned last and the
revision last seen. -/
structure Cursor where
  next : Link
  previous : Link
  held : Link
  expected : UInt64
  deriving DecidableEq, Repr

namespace Cursor

variable {K V : Type}

/-! ## Placing a cursor -/

/-- A cursor between two nodes of a tree, with nothing in hand. -/
def between (t : Tree K V) (previous next : Link) : Cursor := ⟨next, previous, none, t.revision⟩

/-- A cursor before the first entry. -/
def front (t : Tree K V) : Except Fault Cursor := do
  return between t none (← t.firstNode)

/-- A cursor after the last entry. -/
def back (t : Tree K V) : Except Fault Cursor := do
  return between t (← t.lastNode) none

/-- A cursor before the first entry whose key is not below `key`. -/
def seek (cmp : K → K → Ordering) (t : Tree K V) (key : K) : Except Fault Cursor := do
  match ← t.nearest cmp .right true key with
  | none => return between t (← t.lastNode) none
  | some id => return between t (← t.neighbour .left id) (some id)

/-! ## Looking and stepping -/

/-- The node beside the gap on one side. -/
def beside (c : Cursor) : Side → Link
  | .right => c.next
  | .left => c.previous

/-- Whether there is an entry beside the gap on one side. -/
def hasEntry (c : Cursor) (s : Side) : Bool := (c.beside s).isSome

/-- Refuses a tree that has changed since the cursor last saw it. -/
def checkRevision (c : Cursor) (t : Tree K V) : Except Refusal Unit :=
  if t.revision = c.expected then .ok ()
  else .error (.concurrentModification c.expected t.revision)

/-- The cursor after it passed the node `id` towards side `s`, with `beyond`
as the node after that. -/
def passed (c : Cursor) (s : Side) (id : Nat) (beyond : Link) : Cursor :=
  match s with
  | .right => { c with next := beyond, previous := some id, held := some id }
  | .left => { c with next := some id, previous := beyond, held := some id }

/-- Steps over the entry on one side and returns it. -/
def step (t : Tree K V) (s : Side) (c : Cursor) :
    Except Fault (Except Refusal ((K × V) × Cursor)) :=
  match c.checkRevision t with
  | .error refusal => .ok (.error refusal)
  | .ok () =>
    match c.beside s with
    | none => .ok (.error .noSuchElement)
    | some id => do
      let beyond ← t.neighbour s id
      match t.entryOf (some id) with
      | none => return .error .noSuchElement
      | some e => return .ok (e, c.passed s id beyond)

/-! ## The entry in hand -/

/-- The node returned last, if the tree has not changed since. -/
def heldNode (c : Cursor) (t : Tree K V) (action : HeldAction) : Except Refusal Nat :=
  match c.held with
  | none => .error (.nothingHeld action)
  | some id => do
    c.checkRevision t
    return id

/-- The entry of the node returned last. -/
def heldEntry (c : Cursor) (t : Tree K V) (action : HeldAction) : Except Refusal (K × V) := do
  let id ← c.heldNode t action
  match t.entryOf (some id) with
  | none => .error .noSuchElement
  | some e => .ok e

/-- The key of the entry returned last. -/
def key (c : Cursor) (t : Tree K V) : Except Refusal K :=
  (·.1) <$> c.heldEntry t .readKey

/-- The value of the entry returned last. -/
def value (c : Cursor) (t : Tree K V) : Except Refusal V :=
  (·.2) <$> c.heldEntry t .readValue

/-- The cursor with the tree's present revision as the one last seen. -/
def synced (c : Cursor) (t : Tree K V) : Cursor := { c with expected := t.revision }

/-- Puts a value in place of the value returned last and answers that one. -/
def setValue (c : Cursor) (t : Tree K V) (value : V) : Except Refusal (V × Cursor × Tree K V) := do
  let id ← c.heldNode t .setValue
  match t.slots.get? (some id) with
  | none => .error .noSuchElement
  | some n =>
    let slots := t.slots.update (some id) (fun n => { n with value := value })
    let t := { t with slots := slots }.touched
    return (n.value, c.synced t, t)

/-- Removes the entry returned last. The gap stays where the entry was. -/
def remove (c : Cursor) (t : Tree K V) :
    Except Fault (Except Refusal ((K × V) × Cursor × Tree K V)) :=
  match c.heldNode t .remove with
  | .error refusal => .ok (.error refusal)
  | .ok id => do
    let previous ← t.neighbour .left id
    match ← t.eraseNode (some id) with
    | none => return .error .noSuchElement
    | some r => return .ok ((r.key, r.value), between r.tree previous r.next, r.tree)

/-- The cursor's four fields in words; an absent node has its number. -/
def text (c : Cursor) : String :=
  "Cursor \x7b next: " ++ toString c.next.number ++ ", previous: " ++
    toString c.previous.number ++ ", last_returned: " ++ toString c.held.number ++
    ", expected_modification_count: " ++ toString c.expected ++ " \x7d"

end Cursor

end SlotTree
