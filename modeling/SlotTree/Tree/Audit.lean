import SlotTree.Tree.Basic
import SlotTree.Refusal
import SlotTree.Written

/-
  Audits — checks of a tree that take nothing on trust, and its measures.

  The link check walks down from the root with as many steps as there are
  occupied slots: every child must point back at the node it was reached from,
  and a walk that needs more steps has come twice to a slot. Only then do the
  order, the colours and the black counts of the subtrees mean anything; they
  are checked from the root downwards, and the two counters last.
-/
namespace SlotTree.Tree

variable {K V : Type}

/-! ## Links -/

/-- Whether a child points back at the node it was reached from. -/
def checkBack (t : Tree K V) (parent : Nat) (child : Link) : Except Corruption Unit :=
  match child with
  | none => .ok ()
  | some c => if t.parentOf child = some parent then .ok () else .error (.unmatchedLink c parent)

/-- Checks the nodes still to visit, the right child of a node before its left
one. -/
def checkPending (t : Tree K V) : Nat → List Nat → Except Corruption Unit
  | _, [] => .ok ()
  | 0, _ :: _ => .error .linkCycle
  | budget + 1, id :: rest =>
    match t.slots.get? (some id) with
    | none => .error (.danglingLink id)
    | some n => do
      t.checkBack id n.left
      t.checkBack id n.right
      t.checkPending budget (n.right.toList ++ n.left.toList ++ rest)

/-- Checks that the root has no parent and that every child below it points
back at its parent, in no more steps than there are occupied slots. -/
def checkLinks (t : Tree K V) : Except Corruption Unit :=
  match t.root with
  | none => .ok ()
  | some root =>
    if t.parentOf t.root = none then t.checkPending t.slots.live [root]
    else .error .rootHasParent

/-! ## Order, colours and black counts -/

/-- Whether a key lies strictly between two bounds, each of which may be
missing. -/
def liesWithin (cmp : K → K → Ordering) (lower upper : Option K) (key : K) : Bool :=
  lower.all (fun lo => cmp key lo == .gt) && upper.all (fun hi => cmp key hi == .lt)

/-- Checks the subtree below a link, whose keys must lie between two bounds,
and counts its nodes and the black nodes on its paths; a missing node is
black. -/
def checkSubtree (cmp : K → K → Ordering) (t : Tree K V) :
    Nat → Option K → Option K → Link → Except Fault (Except Corruption (Nat × Nat))
  | _, _, _, none => .ok (.ok (0, 1))
  | 0, _, _, some _ => .error .endless
  | depth + 1, lower, upper, some id =>
    match t.slots.get? (some id) with
    | none => .ok (.error (.danglingNode id))
    | some n =>
      if liesWithin cmp lower upper n.key = false then .ok (.error (.misplacedKey id))
      else if n.color = .red ∧ (t.colorOf n.left = .red ∨ t.colorOf n.right = .red) then
        .ok (.error (.redPair id))
      else do
        match ← t.checkSubtree cmp depth lower (some n.key) n.left with
        | .error finding => return .error finding
        | .ok (leftCount, leftBlack) =>
          match ← t.checkSubtree cmp depth (some n.key) upper n.right with
          | .error finding => return .error finding
          | .ok (rightCount, rightBlack) =>
            if leftBlack = rightBlack then
              let own := if n.color = .black then 1 else 0
              return .ok (leftCount + rightCount + 1, leftBlack + own)
            else return .error (.unevenBlack id leftBlack rightBlack)

/-- Checks everything a sound tree satisfies, in this order: links, a black
root, order, colours and black counts, the size, the count of occupied
slots. -/
def audit (cmp : K → K → Ordering) (t : Tree K V) : Except Fault (Except Corruption Unit) :=
  match t.checkLinks with
  | .error finding => .ok (.error finding)
  | .ok () =>
    if t.colorOf t.root = .red then .ok (.error .redRoot)
    else do
      match ← t.checkSubtree cmp t.horizon none none t.root with
      | .error finding => return .error finding
      | .ok (count, _) =>
        if count ≠ t.size then return .error (.wrongSize count t.size)
        else if t.slots.live ≠ t.size then return .error (.wrongLive t.slots.live t.size)
        else return .ok ()

/-- The audit as an operation that refuses an unsound tree. -/
def validate (cmp : K → K → Ordering) (t : Tree K V) : Except Fault (Except Refusal Unit) := do
  match ← t.audit cmp with
  | .ok () => return .ok ()
  | .error finding => return .error (.corrupted finding)

/-- Whether the audit passes. -/
def isSound (cmp : K → K → Ordering) (t : Tree K V) : Except Fault Bool :=
  Except.isOk <$> t.audit cmp

/-! ## Measures -/

/-- The number of nodes on the longest way down from a link. -/
def heightFrom (t : Tree K V) : Nat → Link → Except Fault Nat
  | _, none => .ok 0
  | 0, some _ => .error .endless
  | depth + 1, some id => do
    let n ← t.node id
    let left ← t.heightFrom depth n.left
    let right ← t.heightFrom depth n.right
    return 1 + max left right

/-- The number of nodes on the longest way down from the root. -/
def height (t : Tree K V) : Except Fault Nat := t.heightFrom t.horizon t.root

/-- The number of black nodes on the way down from a link that always turns
left. -/
def blackHeightFrom (t : Tree K V) : Nat → Link → Except Fault Nat
  | _, none => .ok 0
  | 0, some _ => .error .endless
  | depth + 1, some id => do
    let below ← t.blackHeightFrom depth (t.childOf .left (some id))
    return (if t.colorOf (some id) = .black then 1 else 0) + below

/-- The number of black nodes on the leftmost way down from the root. -/
def blackHeight (t : Tree K V) : Except Fault Nat := t.blackHeightFrom t.horizon t.root

/-! ## Outline -/

/-- The letter of a colour. -/
def colorLetter : Color → String
  | .red => "R"
  | .black => "B"

/-- The line of a node at some depth. -/
def outlineLine [Written K] (depth : Nat) (n : Node K V) : String :=
  String.join (List.replicate depth "  ") ++ Written.text n.key ++ " " ++ colorLetter n.color ++
    "\n"

/-- The lines of the subtree below a link. -/
def outlineFrom [Written K] (t : Tree K V) : Nat → Nat → Link → Except Fault String
  | steps, depth, id =>
    match t.slots.get? id with
    | none => .ok ""
    | some n =>
      match steps with
      | 0 => .error .endless
      | steps + 1 => do
        let left ← t.outlineFrom steps (depth + 1) n.left
        let right ← t.outlineFrom steps (depth + 1) n.right
        return outlineLine depth n ++ left ++ right

/-- The tree in lines: each node before its left and its right subtree, set in
by two blanks for every level, its key and the letter of its colour. -/
def outline [Written K] (t : Tree K V) : Except Fault String := t.outlineFrom t.horizon 0 t.root

end SlotTree.Tree
