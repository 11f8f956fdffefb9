import SlotTree.Tree.Basic

/-
  Walks — from node to node in the order of the keys, along the links alone.

  The outermost node of a subtree is reached by going down one side; the
  neighbour of a node is the nearest node of the subtree on that side or, if
  there is none, the first ancestor that is met from its other side. The
  links of a sound tree end every walk within `horizon` steps; on a ring of
  links a walk breaks off as endless.
-/
namespace SlotTree.Tree

variable {K V : Type}

/-- Goes down one side from `id` until there is no child. -/
def slide (t : Tree K V) (s : Side) : Nat → Nat → Except Fault Nat
  | 0, _ => .error .endless
  | steps + 1, id => do
    let n ← t.node id
    match n.child s with
    | none => .ok id
    | some c => t.slide s steps c

/-- The last node on one side of the subtree below `id`. -/
def outermost (t : Tree K V) (s : Side) (id : Nat) : Except Fault Nat := t.slide s t.horizon id

/-- The last node of the whole tree on one side. -/
def endNode (t : Tree K V) (s : Side) : Except Fault Link :=
  match t.root with
  | none => .ok none
  | some id => some <$> t.outermost s id

/-- The node with the least key. -/
def firstNode (t : Tree K V) : Except Fault Link := t.endNode .left

/-- The node with the greatest key. -/
def lastNode (t : Tree K V) : Except Fault Link := t.endNode .right

/-- Goes up from `child` to the first ancestor that does not have the way
come by on side `s`. -/
def climb (t : Tree K V) (s : Side) : Nat → Nat → Link → Except Fault Link
  | _, _, none => .ok none
  | 0, _, some _ => .error .endless
  | steps + 1, child, some parent => do
    let n ← t.node parent
    if n.child s = some child then t.climb s steps parent n.parent else .ok (some parent)

/-- The node next to `id` on side `s`, in the order of the keys. -/
def neighbour (t : Tree K V) (s : Side) (id : Nat) : Except Fault Link := do
  let n ← t.node id
  match n.child s with
  | some c => some <$> t.outermost s.other c
  | none => t.climb s t.horizon id n.parent

/-- The node next to a link's node on side `s`; an absent node has none. -/
def step (t : Tree K V) (s : Side) : Link → Except Fault Link
  | none => .ok none
  | some id => t.neighbour s id

/-- The nodes from a link onwards to side `s`. -/
def nodesFrom (t : Tree K V) (s : Side) : Nat → Link → Except Fault (List Nat)
  | _, none => .ok []
  | 0, some _ => .error .endless
  | steps + 1, some id => do
    let next ← t.neighbour s id
    return id :: (← t.nodesFrom s steps next)

/-- All nodes in the order of their keys. -/
def inOrder (t : Tree K V) : Except Fault (List Nat) := do
  t.nodesFrom .right t.horizon (← t.firstNode)

/-- All entries in the order of their keys. -/
def entries (t : Tree K V) : Except Fault (List (K × V)) := do
  return (← t.inOrder).filterMap (fun id => t.entryOf (some id))

end SlotTree.Tree
