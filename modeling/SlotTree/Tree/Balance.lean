import SlotTree.Tree.Basic

/-
  Balance — rotations and the two repairs that keep a tree red-black.

  A rotation lifts one node into its parent's place and keeps the order of
  the keys. The repair after an insertion removes a red node below a red
  parent; the repair after a removal makes up for a black node that is
  missing on the paths through one node. Both work upwards from where the
  tree was changed, and both treat the two sides alike: the side is computed
  once a pass and everything else is said relative to it.
-/
namespace SlotTree.Tree

variable {K V : Type}

/-! ## Rotation -/

/-- Lifts `riser`, the child of `pivot` away from side `s`, into the place of
`pivot`, which becomes its child on side `s`. -/
def lift (t : Tree K V) (s : Side) (pivot riser : Nat) : Except Fault (Tree K V) := do
  let inner := (← t.node riser).child s
  let t ← t.setChild s.other pivot inner
  let t ← match inner with
    | none => pure t
    | some i => t.setParent i (some pivot)
  let parent := (← t.node pivot).parent
  let t ← t.setParent riser parent
  let t ← t.replaceChild parent pivot (some riser)
  let t ← t.setChild s riser (some pivot)
  t.setParent pivot (some riser)

/-- Turns the tree at `pivot` towards side `s`: its child on the other side
takes its place. Without such a child nothing changes. -/
def rotate (t : Tree K V) (s : Side) (pivot : Link) : Except Fault (Tree K V) :=
  match pivot, t.childOf s.other pivot with
  | some p, some r => t.lift s p r
  | _, _ => .ok t

/-! ## Repair after an insertion -/

/-- Removes the red-red edge above `x`. Under a red uncle the two of them turn
black and the edge moves up to the grandparent; otherwise one or two rotations
remove it. -/
def mendRedLoop : Nat → Tree K V → Link → Except Fault (Tree K V)
  | 0, _, _ => .error .endless
  | passes + 1, t, x =>
    let parent := t.parentOf x
    if x = t.root ∨ t.colorOf parent = .black then .ok t
    else
      let grand := t.parentOf parent
      let s : Side := if parent = t.childOf .left grand then .left else .right
      let uncle := t.childOf s.other grand
      if t.colorOf uncle = .red then
        let t := ((t.recolor parent .black).recolor uncle .black).recolor grand .red
        mendRedLoop passes t grand
      else do
        -- An inner grandchild becomes an outer one first.
        let inner : Bool := x = t.childOf s.other parent
        let x := if inner then parent else x
        let t ← if inner then t.rotate s x else pure t
        let parent := t.parentOf x
        let grand := t.parentOf parent
        let t ← ((t.recolor parent .black).recolor grand .red).rotate s.other grand
        mendRedLoop passes t x

/-- Makes the tree red-black again after the red node `x` was linked in. -/
def mendRed (t : Tree K V) (x : Link) : Except Fault (Tree K V) := do
  let t ← mendRedLoop t.patience t x
  return t.recolor t.root .black

/-! ## Repair after a removal -/

/-- The sibling of `x`, which lies on side `s` of its parent, made black: a
red sibling is rotated above the parent first. -/
def blackenSibling (t : Tree K V) (s : Side) (x : Link) : Except Fault (Tree K V × Link) := do
  let parent := t.parentOf x
  let sibling := t.childOf s.other parent
  if t.colorOf sibling = .red then
    let t ← ((t.recolor sibling .black).recolor parent .red).rotate s parent
    return (t, t.childOf s.other (t.parentOf x))
  else
    return (t, sibling)

/-- Makes the child of a sibling that lies away from `x` red, when only the
near one is: the near child is rotated above the sibling. -/
def reddenFar (t : Tree K V) (s : Side) (x sibling : Link) : Except Fault (Tree K V × Link) := do
  if t.colorOf (t.childOf s.other sibling) = .black then
    let near := t.childOf s sibling
    let t ← ((t.recolor near .black).recolor sibling .red).rotate s.other sibling
    return (t, t.childOf s.other (t.parentOf x))
  else
    return (t, sibling)

/-- Rotates the sibling of `x` above their parent; it takes over the parent's
colour, and the parent and the far child turn black. -/
def absorb (t : Tree K V) (s : Side) (x sibling : Link) : Except Fault (Tree K V) :=
  let parent := t.parentOf x
  let t := (t.recolor sibling (t.colorOf parent)).recolor parent .black
  (t.recolor (t.childOf s.other sibling) .black).rotate s parent

/-- Moves the black that is missing at `x` up the tree until a red node or the
root takes it, or until a red child of a sibling makes up for it. -/
def mendBlackLoop : Nat → Tree K V → Link → Except Fault (Tree K V × Link)
  | 0, _, _ => .error .endless
  | passes + 1, t, x =>
    if x = t.root ∨ t.colorOf x = .red then .ok (t, x)
    else do
      let s : Side := if x = t.childOf .left (t.parentOf x) then .left else .right
      let (t, sibling) ← t.blackenSibling s x
      if t.colorOf (t.childOf s sibling) = .black ∧ t.colorOf (t.childOf s.other sibling) = .black
      then
        let t := t.recolor sibling .red
        mendBlackLoop passes t (t.parentOf x)
      else
        let (t, sibling) ← t.reddenFar s x sibling
        let t ← t.absorb s x sibling
        mendBlackLoop passes t t.root

/-- Makes the tree red-black again when the paths through `x` are one black
node short. -/
def mendBlack (t : Tree K V) (x : Link) : Except Fault (Tree K V) := do
  let (t, x) ← mendBlackLoop t.patience t x
  return t.recolor x .black

end SlotTree.Tree
