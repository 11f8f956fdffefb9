import SlotTree.Cursor
import SlotTree.Session.Reply

/-
  Operations of a session on a cursor and the tree it is given.
-/
namespace SlotTree

/-- Where a new cursor is placed. -/
inductive CursorPlace (K : Type) where
  | front
  | back
  | before (key : K)

/-- An operation on a cursor. -/
inductive CursorOp (K V : Type) where
  | hasEntry (s : Side)
  | step (s : Side)
  | key
  | value
  | setValue (value : V)
  | remove
  | reset
  | text
  /-- Steps to the end on one side and removes the entries that are meant. -/
  | sweep (s : Side) (meant : Nat → K → Bool)

variable {K V : Type}

/-- A new cursor. -/
def CursorPlace.cursor (cmp : K → K → Ordering) (t : Tree K V) :
    CursorPlace K → Except Fault Cursor
  | .front => Cursor.front t
  | .back => Cursor.back t
  | .before key => Cursor.seek cmp t key

namespace CursorOp

/-- Steps to the end on one side and removes the entries that are meant; the
first refusal ends the sweep. Answers the keys passed. -/
def runSweep (s : Side) (meant : Nat → K → Bool) :
    Nat → Tree K V → Cursor → List K → Except Fault (Except Refusal (List K) × Cursor × Tree K V)
  | 0, _, _, _ => .error .endless
  | steps + 1, t, c, seen =>
    if c.hasEntry s = false then .ok (.ok seen.reverse, c, t)
    else do
      match ← c.step t s with
      | .error refusal => return (.error refusal, c, t)
      | .ok (e, c) =>
        if meant seen.length e.1 then
          match ← c.remove t with
          | .error refusal => return (.error refusal, c, t)
          | .ok (_, c, t) => runSweep s meant steps t c (e.1 :: seen)
        else runSweep s meant steps t c (e.1 :: seen)

/-- Carries out an operation. -/
def run (t : Tree K V) (c : Cursor) : CursorOp K V → Except Fault (Reply K V × Cursor × Tree K V)
  | hasEntry s => .ok (.flag (c.hasEntry s), c, t)
  | step s => do
    match ← c.step t s with
    | .error refusal => return (.refused refusal, c, t)
    | .ok (e, c) => return (.entry e, c, t)
  | key => .ok (.result .key (c.key t), c, t)
  | value => .ok (.result .value (c.value t), c, t)
  | setValue v =>
    match c.setValue t v with
    | .error refusal => .ok (.refused refusal, c, t)
    | .ok (old, c, t) => .ok (.value old, c, t)
  | remove => do
    match ← c.remove t with
    | .error refusal => return (.refused refusal, c, t)
    | .ok (e, c, t) => return (.entry e, c, t)
  | reset => do return (.nothing, ← Cursor.front t, t)
  | text => .ok (.text c.text, c, t)
  | sweep s meant => do
    let (outcome, c, t) ← runSweep s meant t.patience t c []
    return (.result (fun keys => .list (keys.map .key)) outcome, c, t)

end CursorOp

end SlotTree
