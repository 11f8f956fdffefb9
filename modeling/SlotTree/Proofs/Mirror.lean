import SlotTree.Tree.Erase
import SlotTree.Tree.Insert
import SlotTree.Proofs.Layout

/-
  Mirrors — a tree with left and right exchanged in every node.

  The mirror image of a tree has the same slots in the same places, the same
  root, counts, colours, entries and parents; only the two children of each node
  have changed sides (`Tree.mirror`). What reads a tree or writes one field of a
  node commutes with that, with the side exchanged where there is one. So does a
  search, if the comparison is turned round as well (`locate_mirror`).

  Each of these is an equation between runs: the operation on the mirror image
  answers what it answers on the tree, breaks off where it breaks off there, and
  leaves the mirror image of what it leaves.
-/
namespace SlotTree

variable {K V : Type}

/-! ## Runs on images -/

section Images

variable {ε α α' β β' : Type} {x : Except ε α} {f : α → α'} {g : β → β'}

theorem map_bind_map {k : α → Except ε β} {k' : α' → Except ε β'}
    (h : ∀ a, x = .ok a → k' (f a) = g <$> k a) : (f <$> x >>= k') = g <$> (x >>= k) := by
  cases x with
  | error e => rfl
  | ok a => exact h a rfl

theorem bind_map {k : α → Except ε β} {k' : α → Except ε β'}
    (h : ∀ a, x = .ok a → k' a = g <$> k a) : (x >>= k') = g <$> (x >>= k) := by
  cases x with
  | error e => rfl
  | ok a => exact h a rfl

end Images

namespace Slots

variable {α β : Type} {f : α → β}

/-- The slots with every item changed. -/
def map (f : α → β) (s : Slots α) : Slots β := ⟨s.cells.map (Option.map f), s.free, s.live⟩

@[simp] theorem get?_map (f : α → β) (s : Slots α) (l : Link) :
    (s.map f).get? l = (s.get? l).map f := by
  cases l with
  | none => rfl
  | some i =>
    simp only [get?, map, Array.getElem?_map]
    cases s.cells[i]? with
    | none => rfl
    | some cell => rfl

@[simp] theorem size_map (f : α → β) (s : Slots α) : (s.map f).size = s.size := by
  simp [size, map]

@[simp] theorem contains_map (f : α → β) (s : Slots α) (l : Link) :
    (s.map f).contains l = s.contains l := by
  simp [contains]

theorem fetch_map (f : α → β) (s : Slots α) (l : Link) :
    (s.map f).fetch l = f <$> s.fetch l := by
  unfold fetch
  rw [get?_map]
  cases s.get? l <;> rfl

theorem update_map {g : α → α} {g' : β → β} (hg : ∀ a, g' (f a) = f (g a)) (s : Slots α)
    (l : Link) : (s.map f).update l g' = (s.update l g).map f := by
  cases l with
  | none => rfl
  | some i =>
    have hcell : ∀ cell : Option α, (cell.map f).map g' = (cell.map g).map f := by
      intro cell
      cases cell with
      | none => rfl
      | some a => exact congrArg some (hg a)
    simp only [update, map, mk.injEq, and_self, and_true]
    apply Array.ext_getElem?
    intro j
    simp only [Array.getElem?_modify, Array.getElem?_map]
    split
    · cases s.cells[j]? with
      | none => rfl
      | some cell => exact congrArg some (hcell cell)
    · rfl

theorem revise_map {g : α → α} {g' : β → β} (hg : ∀ a, g' (f a) = f (g a)) (s : Slots α)
    (l : Link) : (s.map f).revise l g' = map f <$> s.revise l g := by
  unfold revise
  rw [contains_map, update_map hg]
  split <;> rfl

theorem occupy_map (f : α → β) (s : Slots α) (a : α) :
    (s.map f).occupy (f a) = Prod.map id (map f) (s.occupy a) := by
  unfold occupy
  cases hfree : s.free with
  | nil => simp [map, hfree]
  | cons i rest => simp [map, hfree]

theorem allocate_map (f : α → β) (s : Slots α) (a : α) :
    (s.map f).allocate (f a) = Prod.map id (map f) <$> s.allocate a := by
  simp only [allocate, occupy_map, Prod.map, id]
  split <;> rfl

theorem release_map (f : α → β) (s : Slots α) (l : Link) :
    (s.map f).release l = Option.map (Prod.map f (map f)) <$> s.release l := by
  cases l with
  | none => rfl
  | some i =>
    unfold release
    rw [get?_map]
    cases s.get? (some i) with
    | none => rfl
    | some a =>
      simp only [Option.map_some]
      apply bind_map
      intro live _
      simp [map]

end Slots

/-! ## Mirror images -/

namespace Node

/-- The node with its children exchanged. -/
def mirror (n : Node K V) : Node K V := { n with left := n.right, right := n.left }

@[simp] theorem parent_mirror (n : Node K V) : n.mirror.parent = n.parent := rfl

@[simp] theorem key_mirror (n : Node K V) : n.mirror.key = n.key := rfl

@[simp] theorem child_mirror (n : Node K V) (s : Side) : n.mirror.child s = n.child s.other := by
  cases s <;> rfl

@[simp] theorem mirror_of (s : Side) (c : Color) (e : K × V) (near far parent : Link) :
    (of s c e near far parent).mirror = of s.other c e near far parent := by
  cases s <;> rfl

theorem setChild_mirror (n : Node K V) (s : Side) (l : Link) :
    n.mirror.setChild s.other l = (n.setChild s l).mirror := by
  cases s <;> rfl

end Node

namespace Tree

variable {t : Tree K V} {s : Side} {i : Nat} {l : Link}

/-- The tree with the children of every node exchanged. -/
def mirror (t : Tree K V) : Tree K V := { t with slots := t.slots.map Node.mirror }

@[simp] theorem mirror_empty : (empty : Tree K V).mirror = empty := by
  simp [mirror, empty, Slots.map, Slots.empty]

@[simp] theorem clear_mirror (t : Tree K V) : t.mirror.clear = t.clear.mirror := by
  simp [mirror, clear, touched, Slots.map, Slots.clear, Slots.empty]

@[simp] theorem root_mirror (t : Tree K V) : t.mirror.root = t.root := rfl

@[simp] theorem get?_mirror (t : Tree K V) (l : Link) :
    t.mirror.slots.get? l = (t.slots.get? l).map Node.mirror := Slots.get?_map ..

@[simp] theorem horizon_mirror (t : Tree K V) : t.mirror.horizon = t.horizon := by
  simp [horizon, mirror]

@[simp] theorem patience_mirror (t : Tree K V) : t.mirror.patience = t.patience := by
  simp [patience]

/-! ## Reading -/

@[simp] theorem parentOf_mirror (t : Tree K V) (l : Link) : t.mirror.parentOf l = t.parentOf l := by
  simp only [parentOf, get?_mirror]
  cases t.slots.get? l <;> rfl

@[simp] theorem childOf_mirror (t : Tree K V) (s : Side) (l : Link) :
    t.mirror.childOf s l = t.childOf s.other l := by
  simp only [childOf, get?_mirror]
  cases t.slots.get? l with
  | none => rfl
  | some n => exact n.child_mirror s

@[simp] theorem colorOf_mirror (t : Tree K V) (l : Link) : t.mirror.colorOf l = t.colorOf l := by
  simp only [colorOf, get?_mirror]
  cases t.slots.get? l <;> rfl

@[simp] theorem node_mirror (t : Tree K V) (i : Nat) :
    t.mirror.node i = Node.mirror <$> t.node i := Slots.fetch_map ..

/-! ## Writing -/

@[simp] theorem recolor_mirror (t : Tree K V) (l : Link) (c : Color) :
    t.mirror.recolor l c = (t.recolor l c).mirror := by
  simp only [recolor, mirror, mk.injEq, and_self, and_true]
  apply Slots.update_map
  intro n
  rfl

theorem reviseNode_mirror {g g' : Node K V → Node K V} (hg : ∀ n, g' n.mirror = (g n).mirror)
    (t : Tree K V) (i : Nat) : t.mirror.reviseNode i g' = mirror <$> t.reviseNode i g := by
  unfold reviseNode
  rw [show t.mirror.slots = t.slots.map Node.mirror from rfl, Slots.revise_map hg]
  apply map_bind_map
  intro slots _
  rfl

theorem setChild_mirror (t : Tree K V) (s : Side) (i : Nat) (l : Link) :
    t.mirror.setChild s.other i l = mirror <$> t.setChild s i l :=
  reviseNode_mirror (fun n => n.setChild_mirror s l) t i

theorem setParent_mirror (t : Tree K V) (i : Nat) (l : Link) :
    t.mirror.setParent i l = mirror <$> t.setParent i l := by
  apply reviseNode_mirror
  intro n
  rfl

theorem setValue_mirror (t : Tree K V) (i : Nat) (v : V) :
    t.mirror.setValue i v = mirror <$> t.setValue i v := by
  apply reviseNode_mirror
  intro n
  rfl

/-! ## Walks and searches -/

theorem slide_mirror (t : Tree K V) (s : Side) (steps : Nat) (i : Nat) :
    t.mirror.slide s.other steps i = t.slide s steps i := by
  induction steps generalizing i with
  | zero => rfl
  | succ steps ih =>
    simp only [slide, node_mirror]
    cases t.node i with
    | error f => rfl
    | ok n =>
      simp only [map_ok, ok_bind, Node.child_mirror, Side.other_other]
      cases n.child s with
      | none => rfl
      | some c => exact ih c

theorem outermost_mirror (t : Tree K V) (s : Side) (i : Nat) :
    t.mirror.outermost s.other i = t.outermost s i := by
  rw [outermost, outermost, horizon_mirror, slide_mirror]

theorem endNode_mirror (t : Tree K V) (s : Side) : t.mirror.endNode s.other = t.endNode s := by
  simp only [endNode, root_mirror]
  cases t.root with
  | none => rfl
  | some i => simp only [outermost_mirror]

theorem climb_mirror (t : Tree K V) (s : Side) (steps child : Nat) (l : Link) :
    t.mirror.climb s.other steps child l = t.climb s steps child l := by
  induction steps generalizing child l with
  | zero => cases l <;> rfl
  | succ steps ih =>
    cases l with
    | none => rfl
    | some parent =>
      simp only [climb, node_mirror]
      cases t.node parent with
      | error f => rfl
      | ok n => simp only [map_ok, ok_bind, Node.child_mirror, Side.other_other, Node.parent_mirror, ih]

theorem neighbour_mirror (t : Tree K V) (s : Side) (i : Nat) :
    t.mirror.neighbour s.other i = t.neighbour s i := by
  simp only [neighbour, node_mirror]
  cases t.node i with
  | error f => rfl
  | ok n =>
    simp only [map_ok, ok_bind, Node.child_mirror, Side.other_other, Node.parent_mirror,
      horizon_mirror, climb_mirror]
    cases n.child s with
    | none => rfl
    | some c =>
      have hout := outermost_mirror t s.other c
      rw [Side.other_other] at hout
      exact congrArg (some <$> ·) hout

end Tree

/-- The place where the search in the mirror image ends. -/
def Landing.mirror : Landing → Landing
  | .below parent s => .below parent s.other
  | landing => landing

/-- The comparison turned round. -/
def turned (cmp : K → K → Ordering) (a b : K) : Ordering := (cmp a b).swap

theorem Side.toward_swap (o : Ordering) : Side.toward o.swap = (Side.toward o).map Side.other := by
  cases o <;> rfl

namespace Tree

theorem locateFrom_mirror (cmp : K → K → Ordering) (t : Tree K V) (key : K) (steps i : Nat) :
    t.mirror.locateFrom (turned cmp) key steps i =
      Landing.mirror <$> t.locateFrom cmp key steps i := by
  induction steps generalizing i with
  | zero => rfl
  | succ steps ih =>
    simp only [locateFrom, node_mirror]
    apply map_bind_map
    intro n _
    simp only [turned, Node.key_mirror, Side.toward_swap]
    cases Side.toward (cmp key n.key) with
    | none => rfl
    | some s =>
      simp only [Option.map_some, Node.child_mirror, Side.other_other]
      cases n.child s with
      | none => rfl
      | some c => exact ih c

/-- A search by the comparison turned round takes every turn to the other
side. -/
theorem locate_mirror (cmp : K → K → Ordering) (t : Tree K V) (key : K) :
    t.mirror.locate (turned cmp) key = Landing.mirror <$> t.locate cmp key := by
  simp only [locate, root_mirror]
  cases t.root with
  | none => rfl
  | some i =>
    simp only [horizon_mirror]
    exact locateFrom_mirror cmp t key t.horizon i

theorem find_mirror (cmp : K → K → Ordering) (t : Tree K V) (key : K) :
    t.mirror.find (turned cmp) key = t.find cmp key := by
  simp only [find, locate_mirror]
  cases t.locate cmp key with
  | error f => rfl
  | ok landing => cases landing <;> rfl

end Tree

end SlotTree
