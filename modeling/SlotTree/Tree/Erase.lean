import SlotTree.Tree.Search
import SlotTree.Tree.Balance

/-
  Removal — of a node, of a key, of an end of the tree, of all that a
  predicate refuses, and of everything.

  A node with two children is not unlinked itself. It exchanges entries with
  the node that follows it, which has at most one child and is unlinked
  instead. So every entry but one keeps its slot, and the removal reports
  where the entry that follows has gone: callers that walk on while they
  remove continue there.
-/
namespace SlotTree

/-- What the removal of a node answers: the entry, the slot that now holds the
entry that followed it, and the tree. -/
structure Removed (K V : Type) where
  key : K
  value : V
  next : Link
  tree : Tree K V

namespace Tree

variable {K V : Type}

/-- Exchanges the entries of two slots; links and colours stay. -/
def swapEntries (t : Tree K V) (a b : Nat) : Tree K V :=
  let swapped := t.slots.updatePair (some a) (some b)
    (fun x y => (x.withEntry y.entry, y.withEntry x.entry))
  { t with slots := swapped.getD t.slots }

/-- Takes a node with at most one child out of the links and repairs the
tree. A childless black node stays linked while the repair runs, as a stand-in
for the subtree that will be missing. -/
def unlink (t : Tree K V) (target : Nat) : Except Fault (Tree K V) := do
  let n ← t.node target
  match n.left.or n.right with
  | some child =>
    let t ← t.setParent child n.parent
    let t ← t.replaceChild n.parent target (some child)
    if n.color = .black then t.mendBlack (some child) else return t
  | none =>
    match n.parent with
    | none => return { t with root := none }
    | some _ =>
      let t ← if n.color = .black then t.mendBlack (some target) else pure t
      match (← t.node target).parent with
      | none => return t
      | some p => t.replaceChild (some p) target none

/-- The slot to unlink for the removal of a node, with the tree prepared for
it, and the slot that holds the following entry afterwards. -/
def chooseTarget (t : Tree K V) (id : Nat) (n : Node K V) :
    Except Fault (Tree K V × Nat × Link) := do
  match n.left, n.right with
  | some _, some right =>
    let heir ← t.outermost .left right
    return (t.swapEntries id heir, heir, some id)
  | _, _ => return (t, id, ← t.neighbour .right id)

/-- Removes the node of a slot; `none` if the link names no occupied slot. -/
def eraseNode (t : Tree K V) (id : Link) : Except Fault (Option (Removed K V)) :=
  match id, t.slots.get? id with
  | some i, some n => do
    let (t, target, next) ← t.chooseTarget i n
    let t ← t.unlink target
    match ← t.slots.release (some target) with
    | none => return none
    | some (gone, slots) =>
      let size ← countDown t.size
      return some ⟨gone.key, gone.value, next, { t with slots := slots, size := size }.touched⟩
  | _, _ => .ok none

/-- Removes the node of a slot and answers its entry. -/
def takeNode (t : Tree K V) (id : Link) : Except Fault (Option (K × V) × Tree K V) := do
  match ← t.eraseNode id with
  | none => return (none, t)
  | some r => return (some (r.key, r.value), r.tree)

/-- Removes a key and answers the stored entry. -/
def removeEntry (cmp : K → K → Ordering) (t : Tree K V) (key : K) :
    Except Fault (Option (K × V) × Tree K V) := do
  t.takeNode (← t.find cmp key)

/-- Removes a key and answers its value. -/
def remove (cmp : K → K → Ordering) (t : Tree K V) (key : K) :
    Except Fault (Option V × Tree K V) := do
  let (e, t) ← t.removeEntry cmp key
  return (e.map (·.2), t)

/-- Removes the entry at one end of the tree. -/
def pop (t : Tree K V) (s : Side) : Except Fault (Option (K × V) × Tree K V) := do
  t.takeNode (← t.endNode s)

/-- Removes everything, and every slot with it. -/
def clear (t : Tree K V) : Tree K V :=
  { t with slots := t.slots.clear, root := none, size := 0 }.touched

/-- Visits the nodes from a link onwards: each value may be changed, and the
entry is removed if the visit answers `false`. -/
def retainFrom {σ : Type} (visit : σ → K → V → σ × V × Bool) :
    Nat → Tree K V → σ → Link → Except Fault (σ × Tree K V)
  | _, t, state, none => .ok (state, t)
  | 0, _, _, some _ => .error .endless
  | steps + 1, t, state, some id => do
    let n ← t.node id
    let (state, value, keep) := visit state n.key n.value
    let t ← t.setValue id value
    if keep then
      retainFrom visit steps t state (← t.neighbour .right id)
    else
      match ← t.eraseNode (some id) with
      | none => return (state, t)
      | some r => retainFrom visit steps r.tree state r.next

/-- Keeps the entries for which the visit answers `true`, in the order of the
keys; what the visit remembers is handed on from entry to entry. Changing a
value here does not move the revision on, removing an entry does. -/
def retain {σ : Type} (visit : σ → K → V → σ × V × Bool) (start : σ) (t : Tree K V) :
    Except Fault (σ × Tree K V) := do
  retainFrom visit t.patience t start (← t.firstNode)

end Tree

end SlotTree
