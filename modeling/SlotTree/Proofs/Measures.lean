import SlotTree.Tree.Audit
import SlotTree.Proofs.Sound

/-
  Measures — the heights and the outline of a sound tree.

  Each is a recursion along the links that stops at a bound on its depth. A
  shape has as many levels as nodes at most, so on a tree that holds the shape
  the bound is never met, and what is measured is the shape.
-/
namespace SlotTree

variable {K V : Type}

namespace Shape

/-- The number of nodes on the longest way down. -/
def height : Shape K V → Nat
  | nil => 0
  | node _ l _ _ r => 1 + max l.height r.height

/-- The number of black nodes on the way down that always turns left. -/
def leftBlacks : Shape K V → Nat
  | nil => 0
  | node c l _ _ _ => (if c = .black then 1 else 0) + l.leftBlacks

/-- The lines of a shape that begins at some depth. -/
def outline [Written K] (depth : Nat) : Shape K V → String
  | nil => ""
  | node c l _ e r =>
    Tree.outlineLine depth (.of .left c e none none none) ++ l.outline (depth + 1) ++
      r.outline (depth + 1)

end Shape

namespace Tree

variable {t : Tree K V} {sh : Shape K V} {p : Link}

theorem heightFrom_ok {depth : Nat} (h : t.slots.Lays p sh) (hd : sh.ids.length ≤ depth) :
    t.heightFrom depth sh.link = .ok sh.height := by
  induction sh generalizing p depth with
  | nil => cases depth <;> rfl
  | node c l i e r ihl ihr =>
    obtain ⟨hn, hl, hr⟩ := h
    simp only [Shape.ids_node, List.length_append, List.length_cons] at hd
    obtain ⟨depth, rfl⟩ : ∃ n, depth = n + 1 := ⟨depth - 1, by omega⟩
    have hleft := ihl hl (show l.ids.length ≤ depth by omega)
    have hright := ihr hr (show r.ids.length ≤ depth by omega)
    simp [heightFrom, node_ok hn, Node.of, hleft, hright, Shape.height]

theorem blackHeightFrom_ok {depth : Nat} (h : t.slots.Lays p sh) (hd : sh.ids.length ≤ depth) :
    t.blackHeightFrom depth sh.link = .ok sh.leftBlacks := by
  induction sh generalizing p depth with
  | nil => cases depth <;> rfl
  | node c l i e r ihl ihr =>
    obtain ⟨hn, hl, hr⟩ := h
    simp only [Shape.ids_node, List.length_append, List.length_cons] at hd
    obtain ⟨depth, rfl⟩ : ∃ n, depth = n + 1 := ⟨depth - 1, by omega⟩
    have hleft := ihl hl (show l.ids.length ≤ depth by omega)
    have hchild : t.childOf .left (some i) = l.link := by simp [childOf, hn]
    have hcolor : t.colorOf (some i) = c := by simp [colorOf, hn]
    simp [blackHeightFrom, hchild, hcolor, hleft, Shape.leftBlacks]

theorem outlineFrom_ok [Written K] {steps depth : Nat} (h : t.slots.Lays p sh)
    (hs : sh.ids.length ≤ steps) :
    t.outlineFrom steps depth sh.link = .ok (sh.outline depth) := by
  induction sh generalizing p steps depth with
  | nil => cases steps <;> simp [outlineFrom, Shape.outline]
  | node c l i e r ihl ihr =>
    obtain ⟨hn, hl, hr⟩ := h
    simp only [Shape.ids_node, List.length_append, List.length_cons] at hs
    obtain ⟨steps, rfl⟩ : ∃ n, steps = n + 1 := ⟨steps - 1, by omega⟩
    have hleft := @ihl (some i) steps (depth + 1) hl (by omega)
    have hright := @ihr (some i) steps (depth + 1) hr (by omega)
    simp only [Shape.link_node, outlineFrom, hn, Node.of, hleft, hright, ok_bind, pure_ok,
      Shape.outline, outlineLine]

section Sound

variable (h : t.Sound sh)
include h

theorem Sound.depth_le : sh.ids.length ≤ t.horizon := Nat.le_succ_of_le h.holds.length_le

theorem height_ok : t.height = .ok sh.height := by
  rw [height, h.holds.root]
  exact heightFrom_ok h.holds.lays h.depth_le

theorem blackHeight_ok : t.blackHeight = .ok sh.leftBlacks := by
  rw [blackHeight, h.holds.root]
  exact blackHeightFrom_ok h.holds.lays h.depth_le

theorem outline_ok [Written K] : t.outline = .ok (sh.outline 0) := by
  rw [outline, h.holds.root]
  exact outlineFrom_ok h.holds.lays h.depth_le

end Sound

end Tree

end SlotTree
