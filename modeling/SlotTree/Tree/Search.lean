import SlotTree.Tree.Walk

/-
  Searches — from a key to a node, by a comparison that the caller brings.

  A search goes down from the root and turns at every node to the side its
  key lies on. `locate` ends where the key is or would be; `nearest` keeps
  the best node passed on the way and so answers for the key before or after
  a given one, with or without the key itself.
-/
namespace SlotTree

/-- Where the search for a key ends: at a node with an equal key, below a
node that has no child there, or at once because the tree is empty. -/
inductive Landing where
  | found (id : Nat)
  | below (parent : Nat) (s : Side)
  | nowhere
  deriving DecidableEq, Repr

namespace Tree

variable {K V : Type}

/-- Goes down from `id` towards a key. -/
def locateFrom (cmp : K → K → Ordering) (t : Tree K V) (key : K) : Nat → Nat → Except Fault Landing
  | 0, _ => .error .endless
  | steps + 1, id => do
    let n ← t.node id
    match Side.toward (cmp key n.key) with
    | none => .ok (.found id)
    | some s =>
      match n.child s with
      | none => .ok (.below id s)
      | some c => t.locateFrom cmp key steps c

/-- Where the search for a key ends. -/
def locate (cmp : K → K → Ordering) (t : Tree K V) (key : K) : Except Fault Landing :=
  match t.root with
  | none => .ok .nowhere
  | some id => t.locateFrom cmp key t.horizon id

/-- The node with a key equal to `key`. -/
def find (cmp : K → K → Ordering) (t : Tree K V) (key : K) : Except Fault Link := do
  match ← t.locate cmp key with
  | .found id => return some id
  | _ => return none

/-- Goes down towards a key and keeps in `best` the last node passed that
lies to side `s` of it. -/
def nearestFrom (cmp : K → K → Ordering) (t : Tree K V) (s : Side) (inclusive : Bool) (key : K) :
    Nat → Link → Link → Except Fault Link
  | _, none, best => .ok best
  | 0, some _, _ => .error .endless
  | steps + 1, some id, best => do
    let n ← t.node id
    match Side.toward (cmp key n.key) with
    | none =>
      if inclusive then .ok (some id)
      else t.nearestFrom cmp s inclusive key steps (n.child s) best
    | some turn =>
      t.nearestFrom cmp s inclusive key steps (n.child turn)
        (if turn = s.other then some id else best)

/-- The node nearest to a key on side `s` of it; with `inclusive` a node with
an equal key comes first. -/
def nearest (cmp : K → K → Ordering) (t : Tree K V) (s : Side) (inclusive : Bool) (key : K) :
    Except Fault Link :=
  t.nearestFrom cmp s inclusive key t.horizon t.root none

/-! ## Questions about keys and entries -/

/-- The stored entry whose key is equal to `key`. -/
def entry? (cmp : K → K → Ordering) (t : Tree K V) (key : K) : Except Fault (Option (K × V)) :=
  t.entryOf <$> t.find cmp key

/-- The value stored for a key. -/
def get? (cmp : K → K → Ordering) (t : Tree K V) (key : K) : Except Fault (Option V) := do
  return (← t.entry? cmp key).map (·.2)

/-- The value stored for a key that is taken to be there. -/
def get (cmp : K → K → Ordering) (t : Tree K V) (key : K) : Except Fault V := do
  match ← t.get? cmp key with
  | some v => .ok v
  | none => .error .missingKey

/-- Whether a key is there. -/
def contains (cmp : K → K → Ordering) (t : Tree K V) (key : K) : Except Fault Bool :=
  Option.isSome <$> t.find cmp key

/-- The key at one end of the tree. -/
def endKey (t : Tree K V) (s : Side) : Except Fault (Option K) := t.keyOf <$> t.endNode s

/-- The entry at one end of the tree. -/
def endEntry (t : Tree K V) (s : Side) : Except Fault (Option (K × V)) := t.entryOf <$> t.endNode s

/-- The least key not below `key`. -/
def ceilingKey (cmp : K → K → Ordering) (t : Tree K V) (key : K) : Except Fault (Option K) :=
  t.keyOf <$> t.nearest cmp .right true key

/-- The greatest key not above `key`. -/
def floorKey (cmp : K → K → Ordering) (t : Tree K V) (key : K) : Except Fault (Option K) :=
  t.keyOf <$> t.nearest cmp .left true key

/-- The least key above `key`. -/
def higherKey (cmp : K → K → Ordering) (t : Tree K V) (key : K) : Except Fault (Option K) :=
  t.keyOf <$> t.nearest cmp .right false key

/-- The greatest key below `key`. -/
def lowerKey (cmp : K → K → Ordering) (t : Tree K V) (key : K) : Except Fault (Option K) :=
  t.keyOf <$> t.nearest cmp .left false key

/-- The key that follows `key`, which need not be there itself. -/
def nextKey (cmp : K → K → Ordering) (t : Tree K V) (key : K) : Except Fault (Option K) :=
  t.higherKey cmp key

/-- The key that precedes `key`, which need not be there itself. -/
def previousKey (cmp : K → K → Ordering) (t : Tree K V) (key : K) : Except Fault (Option K) :=
  t.lowerKey cmp key

end Tree

end SlotTree
