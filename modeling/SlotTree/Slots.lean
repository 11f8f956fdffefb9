import SlotTree.Fault

/-
  Slots — numbered cells that are handed out, given back and handed out again.

  A slot's number stays the same for as long as the slot is occupied, so
  numbers can be kept as links. A slot that is given back goes on top of a
  stack of free numbers, and the next allocation takes the top of that stack
  before it opens a new slot. The occupied slots are counted beside the cells.
  Numbers from `absentNumber` on cannot be written as links: an allocation that
  comes to one breaks off.

  The small lemmas say what each operation does to `get?`.
-/
namespace SlotTree

/-- Numbered cells, the stack of vacant numbers (the one given back last comes
first) and the count of occupied cells. -/
structure Slots (α : Type) where
  cells : Array (Option α)
  free : List Nat
  live : Nat
  deriving DecidableEq, Repr

namespace Slots

variable {α : Type}

/-- No slots at all. -/
def empty : Slots α := ⟨#[], [], 0⟩

/-- The number of slots ever opened and not dropped: occupied and vacant. -/
def size (s : Slots α) : Nat := s.cells.size

/-- What the slot holds; nothing for the absent link, for a number never
handed out and for a vacant slot. -/
def get? (s : Slots α) : Link → Option α
  | none => none
  | some i => s.cells[i]?.join

/-- Whether the link names an occupied slot. -/
def contains (s : Slots α) (id : Link) : Bool := (s.get? id).isSome

/-- What the slot holds, for a link that is taken on trust. -/
def fetch (s : Slots α) (id : Link) : Except Fault α :=
  match s.get? id with
  | some a => .ok a
  | none => .error (.dangling id)

/-- Occupies a slot: the one given back last, or a new one at the end. -/
def occupy (s : Slots α) (a : α) : Nat × Slots α :=
  match s.free with
  | i :: rest => (i, ⟨s.cells.setIfInBounds i (some a), rest, s.live + 1⟩)
  | [] => (s.cells.size, ⟨s.cells.push (some a), [], s.live + 1⟩)

/-- Occupies a slot and hands out its number, if that can be written as a
link. -/
def allocate (s : Slots α) (a : α) : Except Fault (Nat × Slots α) :=
  let (i, s) := s.occupy a
  if i < absentNumber then .ok (i, s) else .error (.exhausted i)

/-- Changes what an occupied slot holds; any other link changes nothing. -/
def update (s : Slots α) (id : Link) (f : α → α) : Slots α :=
  match id with
  | none => s
  | some i => { s with cells := s.cells.modify i (Option.map f) }

/-- Changes what a slot holds, for a link that is taken on trust. -/
def revise (s : Slots α) (id : Link) (f : α → α) : Except Fault (Slots α) :=
  if s.contains id then .ok (s.update id f) else .error (.dangling id)

/-- An item in a part of the cells, with its place among all cells. -/
def placed (part : Subarray (Option α)) (i : Nat) : Option (Nat × α) :=
  part[i]?.join.map (part.start + i, ·)

/-- The items of two different occupied slots, with their places. The cells are
split at the greater number: the item with the lesser one lies in the part
below, the other one is the first of the part above. -/
def pair (s : Slots α) (a b : Link) : Option ((Nat × α) × (Nat × α)) := do
  let i ← a
  let j ← b
  if i = j ∨ s.size ≤ max i j then none
  else
    let low := s.cells.toSubarray 0 (max i j)
    let high := s.cells.toSubarray (max i j)
    let first ← placed low (min i j)
    let second ← placed high 0
    return if i < j then (first, second) else (second, first)

/-- Changes what two different occupied slots hold, each from what both held
before. -/
def updatePair (s : Slots α) (a b : Link) (f : α → α → α × α) : Option (Slots α) := do
  let (x, y) ← s.pair a b
  let (new, new') := f x.2 y.2
  return { s with
    cells := (s.cells.setIfInBounds x.1 (some new)).setIfInBounds y.1 (some new') }

/-- Gives an occupied slot back and hands out what it held; `none` if the
link names no occupied slot. -/
def release (s : Slots α) (id : Link) : Except Fault (Option (α × Slots α)) :=
  match id, s.get? id with
  | some i, some a => do
    let live ← countDown s.live
    return some (a, ⟨s.cells.setIfInBounds i none, i :: s.free, live⟩)
  | _, _ => .ok none

/-- Drops every slot: the next allocation starts again at number zero. -/
def clear (_ : Slots α) : Slots α := empty

/-- How many bytes the cells take with room for `n` more items, each cell of
`width` bytes. Vacant slots are room already. -/
def bytesFor (s : Slots α) (n width : Nat) : Nat := (s.size + (n - s.free.length)) * width

/-- Makes room for `n` more items in cells of `width` bytes, which changes no
answer. -/
def reserve (s : Slots α) (n width : Nat) : Except Fault (Slots α) :=
  if s.bytesFor n width ≤ mostBytes then .ok s else .error .capacityOverflow

/-- Whether no slot is occupied. -/
def isIdle (s : Slots α) : Bool := s.live == 0

/-! ## What each operation does to `get?` -/

@[simp] theorem get?_none (s : Slots α) : s.get? none = none := rfl

@[simp] theorem get?_empty (id : Link) : (empty : Slots α).get? id = none := by
  cases id <;> simp [empty, get?]

theorem get?_update_self (s : Slots α) (id : Link) (f : α → α) :
    (s.update id f).get? id = (s.get? id).map f := by
  cases id with
  | none => rfl
  | some i =>
    simp only [update, get?, Array.getElem?_modify, if_true]
    cases s.cells[i]? with
    | none => rfl
    | some c => cases c <;> rfl

theorem get?_update_of_ne (s : Slots α) {id other : Link} (f : α → α) (h : id ≠ other) :
    (s.update id f).get? other = s.get? other := by
  cases id with
  | none => rfl
  | some i =>
    cases other with
    | none => rfl
    | some j =>
      have hij : ¬ i = j := fun e => h (by rw [e])
      simp [update, get?, Array.getElem?_modify, hij]

end Slots

end SlotTree
