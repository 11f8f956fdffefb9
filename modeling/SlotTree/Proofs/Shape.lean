import SlotTree.Node

/-
  Shapes — the binary trees that linked slots stand for.

  A `Shape` is a tree as a value: colour, left subtree, slot number, entry and
  right subtree. A `Trail` is what is left of a shape when a subtree is taken
  out: the nodes above the hole, the nearest first, each with its subtree on
  the other side. `Trail.fill` puts a subtree back.

  `items` lists slot numbers and entries in order. Filling a hole keeps what
  lies before and after it (`Trail.items_fill`), and every item of a shape is
  the root of the subtree below some trail (`Shape.exists_trail`).
-/
namespace SlotTree

/-- A binary tree of coloured, numbered entries. -/
inductive Shape (K V : Type) where
  | nil
  | node (color : Color) (left : Shape K V) (id : Nat) (entry : K × V) (right : Shape K V)

variable {K V : Type}

namespace Shape

/-- The link to the root. -/
def link : Shape K V → Link
  | nil => none
  | node _ _ id _ _ => some id

/-- The colour of the root; a missing node is black. -/
def color : Shape K V → Color
  | nil => .black
  | node c _ _ _ _ => c

/-- The slot numbers with their entries, in order. -/
def items : Shape K V → List (Nat × K × V)
  | nil => []
  | node _ l id e r => l.items ++ (id, e) :: r.items

/-- The slot numbers in order. -/
def ids (sh : Shape K V) : List Nat := sh.items.map (·.1)

/-- The entries in order. -/
def entries (sh : Shape K V) : List (K × V) := sh.items.map (·.2)

/-- The node whose subtree on side `s` is `near`. -/
def branch (s : Side) (c : Color) (near : Shape K V) (id : Nat) (e : K × V) (far : Shape K V) :
    Shape K V :=
  match s with
  | .left => node c near id e far
  | .right => node c far id e near

/-- The shape with its root in another colour. -/
def paint (c : Color) : Shape K V → Shape K V
  | nil => nil
  | node _ l id e r => node c l id e r

@[simp] theorem link_nil : (nil : Shape K V).link = none := rfl

@[simp] theorem link_node (c : Color) (l : Shape K V) (id : Nat) (e : K × V) (r : Shape K V) :
    (node c l id e r).link = some id := rfl

@[simp] theorem color_nil : (nil : Shape K V).color = .black := rfl

@[simp] theorem color_node (c : Color) (l : Shape K V) (id : Nat) (e : K × V) (r : Shape K V) :
    (node c l id e r).color = c := rfl

@[simp] theorem link_branch (s : Side) (c : Color) (a : Shape K V) (id : Nat) (e : K × V)
    (b : Shape K V) : (branch s c a id e b).link = some id := by
  cases s <;> rfl

@[simp] theorem color_branch (s : Side) (c : Color) (a : Shape K V) (id : Nat) (e : K × V)
    (b : Shape K V) : (branch s c a id e b).color = c := by
  cases s <;> rfl

@[simp] theorem paint_branch (s : Side) (c d : Color) (a : Shape K V) (id : Nat) (e : K × V)
    (b : Shape K V) : (branch s c a id e b).paint d = branch s d a id e b := by
  cases s <;> rfl

@[simp] theorem link_paint (c : Color) (sh : Shape K V) : (sh.paint c).link = sh.link := by
  cases sh <;> rfl

@[simp] theorem items_paint (c : Color) (sh : Shape K V) : (sh.paint c).items = sh.items := by
  cases sh <;> rfl

theorem paint_self (sh : Shape K V) : sh.paint sh.color = sh := by
  cases sh <;> rfl

@[simp] theorem ids_nil : (nil : Shape K V).ids = [] := rfl

@[simp] theorem ids_node (c : Color) (l : Shape K V) (id : Nat) (e : K × V) (r : Shape K V) :
    (node c l id e r).ids = l.ids ++ id :: r.ids := by
  simp [ids, items]

theorem branch_other (s : Side) (c : Color) (a : Shape K V) (id : Nat) (e : K × V)
    (b : Shape K V) : branch s.other c a id e b = branch s c b id e a := by
  cases s <;> rfl

theorem ids_branch_perm (s : Side) (c : Color) (a : Shape K V) (id : Nat) (e : K × V)
    (b : Shape K V) : (branch s c a id e b).ids.Perm (id :: (a.ids ++ b.ids)) := by
  cases s
  · exact (ids_node c a id e b) ▸ List.perm_middle
  · rw [branch, ids_node]
    exact List.perm_middle.trans (List.Perm.cons _ List.perm_append_comm)

theorem mem_ids_of_link {sh : Shape K V} {i : Nat} (h : sh.link = some i) : i ∈ sh.ids := by
  cases sh with
  | nil => cases h
  | node c l id e r =>
    cases h
    simp

/-- A shape with a root is a branch, seen from either side. -/
theorem eq_branch {sh : Shape K V} {i : Nat} (h : sh.link = some i) (s : Side) :
    ∃ a e b, sh = branch s sh.color a i e b := by
  cases sh with
  | nil => cases h
  | node c l id e r =>
    cases h
    cases s
    · exact ⟨l, e, r, rfl⟩
    · exact ⟨r, e, l, rfl⟩

theorem link_eq_none {sh : Shape K V} : sh.link = none ↔ sh = nil := by
  cases sh <;> simp

end Shape

/-- A node above a hole: the side of the hole, the node itself and its subtree
on the other side. -/
structure Crumb (K V : Type) where
  side : Side
  color : Color
  id : Nat
  entry : K × V
  other : Shape K V

/-- The node with a subtree in its hole. -/
def Crumb.fill (f : Crumb K V) (sh : Shape K V) : Shape K V :=
  .branch f.side f.color sh f.id f.entry f.other

@[simp] theorem Crumb.link_fill (f : Crumb K V) (sh : Shape K V) :
    (f.fill sh).link = some f.id := Shape.link_branch ..

@[simp] theorem Crumb.color_fill (f : Crumb K V) (sh : Shape K V) :
    (f.fill sh).color = f.color := Shape.color_branch ..

/-- The nodes above a hole, the nearest first. -/
inductive Trail (K V : Type) where
  | top
  | under (f : Crumb K V) (up : Trail K V)

namespace Trail

/-- The shape with a subtree in the hole. -/
def fill : Trail K V → Shape K V → Shape K V
  | top, sh => sh
  | under f up, sh => up.fill (f.fill sh)

/-- The link to the node above the hole. -/
def hook : Trail K V → Link
  | top => none
  | under f _ => some f.id

/-- The link to the root when `l` links to what is in the hole. -/
def root : Trail K V → Link → Link
  | top, l => l
  | under f up, _ => up.root (some f.id)

/-- The number of nodes above the hole. -/
def length : Trail K V → Nat
  | top => 0
  | under _ up => up.length + 1

/-- The items that lie to side `s` of the hole. -/
def beyond (s : Side) : Trail K V → List (Nat × K × V)
  | top => []
  | under f up =>
    if f.side = s then up.beyond s
    else match s with
      | .left => up.beyond s ++ f.other.items ++ [(f.id, f.entry)]
      | .right => (f.id, f.entry) :: f.other.items ++ up.beyond s

/-- The slot numbers above and beside the hole. -/
def ids : Trail K V → List Nat
  | top => []
  | under f up => f.id :: f.other.ids ++ up.ids

@[simp] theorem fill_top (sh : Shape K V) : (top : Trail K V).fill sh = sh := rfl

@[simp] theorem fill_under (f : Crumb K V) (up : Trail K V) (sh : Shape K V) :
    (under f up).fill sh = up.fill (f.fill sh) := rfl

@[simp] theorem hook_top : (top : Trail K V).hook = none := rfl

@[simp] theorem hook_under (f : Crumb K V) (up : Trail K V) : (under f up).hook = some f.id := rfl

theorem link_fill (up : Trail K V) (sh : Shape K V) : (up.fill sh).link = up.root sh.link := by
  induction up generalizing sh with
  | top => rfl
  | under f up ih => simp [ih, root]

theorem exists_root (up : Trail K V) (f : Crumb K V) (l : Link) :
    ∃ j ∈ (under f up).ids, (under f up).root l = some j := by
  induction up generalizing f l with
  | top => exact ⟨f.id, by simp [ids], rfl⟩
  | under g up ih =>
    obtain ⟨j, hj, hr⟩ := ih g (some f.id)
    refine ⟨j, ?_, hr⟩
    rw [ids]
    exact List.mem_append_right _ hj

theorem items_fill (up : Trail K V) (sh : Shape K V) :
    (up.fill sh).items = up.beyond .left ++ sh.items ++ up.beyond .right := by
  induction up generalizing sh with
  | top => simp [beyond]
  | under f up ih =>
    obtain ⟨s, c, id, e, other⟩ := f
    rw [fill_under, ih]
    cases s <;> simp [Crumb.fill, Shape.branch, Shape.items, beyond]

theorem ids_fill_perm (up : Trail K V) (sh : Shape K V) :
    (up.fill sh).ids.Perm (sh.ids ++ up.ids) := by
  induction up generalizing sh with
  | top => simp [ids]
  | under f up ih =>
    refine (ih (f.fill sh)).trans ?_
    have hp := Shape.ids_branch_perm f.side f.color sh f.id f.entry f.other
    refine (hp.append_right up.ids).trans ?_
    simp only [ids, List.cons_append, List.append_assoc]
    exact List.perm_middle.symm

theorem mem_ids_fill (up : Trail K V) (sh : Shape K V) (i : Nat) :
    i ∈ (up.fill sh).ids ↔ i ∈ sh.ids ∨ i ∈ up.ids := by
  rw [(ids_fill_perm up sh).mem_iff, List.mem_append]

theorem mem_ids_of_hook {up : Trail K V} {i : Nat} (h : up.hook = some i) : i ∈ up.ids := by
  cases up with
  | top => cases h
  | under f up => simp [ids, Option.some.inj h]

theorem nodup_fill (up : Trail K V) (sh : Shape K V) :
    (up.fill sh).ids.Nodup ↔ (sh.ids ++ up.ids).Nodup := (ids_fill_perm up sh).nodup_iff

end Trail

theorem Shape.exists_trail {sh : Shape K V} {i : Nat} {e : K × V} (h : (i, e) ∈ sh.items) :
    ∃ (up : Trail K V) (c : Color) (l r : Shape K V), sh = up.fill (.node c l i e r) := by
  -- The statement for a part of a larger shape, so that the trail can grow downwards.
  suffices ∀ (sh : Shape K V) (up : Trail K V), (i, e) ∈ sh.items →
      ∃ (up' : Trail K V) (c : Color) (l r : Shape K V),
        up.fill sh = up'.fill (.node c l i e r) from this sh .top h
  intro sh
  induction sh with
  | nil => simp [items]
  | node c l id e' r ihl ihr =>
    intro up hm
    simp only [items, List.mem_append, List.mem_cons] at hm
    rcases hm with hm | hm | hm
    · exact ihl (.under ⟨.left, c, id, e', r⟩ up) hm
    · cases hm
      exact ⟨up, c, l, r, rfl⟩
    · exact ihr (.under ⟨.right, c, id, e', l⟩ up) hm

end SlotTree
