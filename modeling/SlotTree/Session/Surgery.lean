import SlotTree.Tree.Insert
import SlotTree.Tree.Erase
import SlotTree.Tree.Audit
import SlotTree.Session.Reply

/-
  Surgery — looking at single slots of a tree and changing them by hand.

  These operations work below the keys: they name nodes by their slots, and
  some of them can leave a tree unsound. They serve to examine how a tree is
  laid out and to see what an audit finds.
-/
namespace SlotTree

/-- A look at slots. -/
inductive Probe (K : Type) where
  /-- The root and all occupied slots. -/
  | store
  | find (key : K)
  | neighbour (s : Side) (id : Link)
  | outermost (s : Side) (id : Link)
  /-- The links and the colour of a node. -/
  | links (id : Link)
  | checkLinks

/-- What can be overwritten in one slot. -/
inductive NodeField (K : Type) where
  | key (k : K)
  | child (s : Side) (l : Link)
  | parent (l : Link)
  | color (c : Color)

/-- What can be overwritten in a tree. -/
inductive Overwrite (K : Type) where
  | size (n : Nat)
  | revision (n : UInt64)
  | root (l : Link)
  | node (id : Link) (field : NodeField K)

/-- A change by hand. -/
inductive Surgery (K V : Type) where
  | insertNode (key : K) (value : V)
  | eraseNode (id : Link)
  | rotate (s : Side) (pivot : Link)
  /-- Occupies a slot with a node that nothing links to. -/
  | stash (key : K) (value : V)
  | overwrite (what : Overwrite K)

variable {K V : Type}

namespace Probe

/-- The occupied slots among the first `n`. -/
def occupied (t : Tree K V) (n : Nat) : List (Nat × Node K V) :=
  (List.range n).filterMap (fun id => (t.slots.get? (some id)).map (fun node => (id, node)))

/-- Takes a look. -/
def run (cmp : K → K → Ordering) (t : Tree K V) : Probe K → Except Fault (Reply K V)
  | store => .ok (.store t.root (occupied t (t.slots.live + t.slots.free.length)))
  | find key => Reply.link <$> t.find cmp key
  | neighbour s id => Reply.link <$> t.step s id
  | outermost s id =>
    match id with
    | none => .ok (.link none)
    | some id => (fun l => .link (some l)) <$> t.outermost s id
  | links id =>
    .ok (.list
      [.link (t.childOf .left id), .link (t.childOf .right id), .link (t.parentOf id),
        .color (t.colorOf id)])
  | checkLinks =>
    match t.checkLinks with
    | .ok () => .ok .nothing
    | .error finding => .ok (.refused (.corrupted finding))

end Probe

/-- A node with one field overwritten. -/
def NodeField.apply (n : Node K V) : NodeField K → Node K V
  | .key k => { n with key := k }
  | .child s l => n.setChild s l
  | .parent l => { n with parent := l }
  | .color c => { n with color := c }

/-- A tree with one field overwritten. -/
def Overwrite.apply (t : Tree K V) : Overwrite K → Except Fault (Tree K V)
  | .size n => .ok { t with size := n }
  | .revision n => .ok { t with revision := n }
  | .root l => .ok { t with root := l }
  | .node id field => do
    let slots ← t.slots.revise id field.apply
    return { t with slots := slots }

namespace Surgery

/-- Makes a change. -/
def run (cmp : K → K → Ordering) (t : Tree K V) :
    Surgery K V → Except Fault (Reply K V × Tree K V)
  | insertNode key value => do
    let done ← t.insertNode cmp key value
    return (.list [.link (some done.id), .option .value done.old], done.tree)
  | eraseNode id => do
    match ← t.eraseNode id with
    | none => return (.nothing, t)
    | some r => return (.list [.key r.key, .value r.value, .link r.next], r.tree)
  | rotate s pivot => do return (.nothing, ← t.rotate s pivot)
  | stash key value => do
    let (id, t) ← t.stash key value
    return (.link (some id), t)
  | overwrite what => do return (.nothing, ← what.apply t)

end Surgery

end SlotTree
