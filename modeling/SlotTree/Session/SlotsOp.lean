import SlotTree.Slots

/-
  Operations of a session on bare slots, without a tree.
-/
namespace SlotTree

/-- An operation on slots that hold items of one type. -/
inductive SlotsOp (α : Type) where
  | allocate (a : α)
  | release (id : Link)
  | get (id : Link)
  /-- Reads a slot and puts another item in, if there is one. -/
  | modify (id : Link) (a : Option α)
  | swap (a b : Link)
  | contains (id : Link)
  /-- Reads a slot taken on trust. -/
  | index (id : Link)
  /-- Reads a slot taken on trust and puts another item in. -/
  | indexModify (id : Link) (a : α)
  /-- Makes room for items in cells of a width. -/
  | reserve (n : Nat) (width : Nat := 24)
  | copy
  | clear

/-- What an operation on slots answers. -/
inductive SlotsReply (α : Type) where
  | nothing
  | id (n : Nat)
  | item (a : Option α)
  | pair (a b : α)
  | flag (b : Bool)
  | broken (f : Fault)

namespace SlotsOp

variable {α : Type}

/-- Carries out an operation. -/
def run (s : Slots α) : SlotsOp α → Except Fault (SlotsReply α × Slots α)
  | allocate a => do
    let (id, s) ← s.allocate a
    return (.id id, s)
  | release id => do
    match ← s.release id with
    | none => return (.item none, s)
    | some (a, s) => return (.item (some a), s)
  | get id => .ok (.item (s.get? id), s)
  | modify id a => .ok (.item (s.get? id), s.update id (a.getD ·))
  | swap a b =>
    match s.updatePair a b (fun x y => (y, x)) with
    | none => .ok (.nothing, s)
    | some swapped =>
      match swapped.get? a, swapped.get? b with
      | some x, some y => .ok (.pair x y, swapped)
      | _, _ => .ok (.nothing, swapped)
  | contains id => .ok (.flag (s.contains id), s)
  | index id =>
    match s.fetch id with
    | .ok a => .ok (.item (some a), s)
    | .error f => .ok (.broken f, s)
  | indexModify id a =>
    match s.fetch id with
    | .ok old => .ok (.item (some old), s.update id (fun _ => a))
    | .error f => .ok (.broken f, s)
  | reserve n width => do return (.flag true, ← s.reserve n width)
  | copy => .ok (.nothing, s)
  | clear => .ok (.nothing, s.clear)

/-- Carries out operations one after the other, until one breaks off: their
replies, each with the slots it leaves, and the fault if there is one. -/
def runAll : Slots α → List (SlotsOp α) → List (SlotsReply α × Slots α) × Option Fault
  | _, [] => ([], none)
  | s, op :: ops =>
    match op.run s with
    | .error f => ([], some f)
    | .ok (r, s) =>
      let (rest, fault) := runAll s ops
      ((r, s) :: rest, fault)

end SlotsOp

end SlotTree
