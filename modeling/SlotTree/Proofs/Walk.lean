import SlotTree.Tree.Walk
import SlotTree.Proofs.Layout

/-
  Walks — following the links is going along the list of items.

  Going down one side of a subtree ends at its last item there (`slide_ok`),
  going up along a trail at the nearest item beyond the hole (`climb_ok`).
  So the neighbour of a node is its neighbour in the list (`Holds.neighbour`),
  the end nodes are the ends of the list (`Holds.endNode`), and the walk over
  all nodes is the list itself (`Holds.inOrder`). The number of slots bounds
  every walk, since no slot occurs twice (`Holds.length_le`).
-/
namespace SlotTree

variable {K V : Type}

/-- The item of a list at its end on one side. -/
def Side.tip {α : Type} : Side → List α → Option α
  | .left, l => l.head?
  | .right, l => l.getLast?

theorem Side.tip_mem {α : Type} {s : Side} {l : List α} {a : α} (h : s.tip l = some a) : a ∈ l := by
  cases s with
  | left => exact List.mem_of_head? h
  | right => exact List.mem_of_getLast? h

namespace Shape

/-- The end of the items on the side of a subtree is the end of that subtree's
items, or the node itself if it is empty. -/
theorem tip_branch (s : Side) (c : Color) (a : Shape K V) (i : Nat) (e : K × V) (b : Shape K V) :
    s.tip (branch s c a i e b).items = (s.tip a.items).or (some (i, e)) := by
  cases s with
  | left => simp [Side.tip, branch, items, List.head?_append]
  | right =>
    simp only [Side.tip, branch, items, List.getLast?_append, List.getLast?_cons]
    cases a.items.getLast? <;> rfl

theorem length_ids_branch (s : Side) (c : Color) (a : Shape K V) (i : Nat) (e : K × V)
    (b : Shape K V) : (branch s c a i e b).ids.length = a.ids.length + b.ids.length + 1 := by
  have := (ids_branch_perm s c a i e b).length_eq
  simpa using this

end Shape

theorem Trail.length_le (up : Trail K V) : up.length ≤ up.ids.length := by
  induction up with
  | top => exact Nat.zero_le _
  | under f up ih =>
    simp only [length, ids, List.length_append, List.length_cons]
    omega

namespace Tree

variable {t : Tree K V} {up : Trail K V} {sh a b : Shape K V} {s : Side} {c : Color} {i : Nat}
  {e : K × V}

/-! ## Room -/

theorem get?_of_mem {p : Link} (h : t.slots.Lays p sh) (hm : i ∈ sh.ids) :
    ∃ n, t.slots.get? (some i) = some n := by
  induction sh generalizing p with
  | nil => cases hm
  | node c l id e r ihl ihr =>
    obtain ⟨hn, hl, hr⟩ := h
    simp only [Shape.ids_node, List.mem_append, List.mem_cons] at hm
    rcases hm with hm | rfl | hm
    · exact ihl hl hm
    · exact ⟨_, hn⟩
    · exact ihr hr hm

theorem Holds.length_le (h : t.Holds sh) : sh.ids.length ≤ t.slots.size := by
  have hsub : sh.ids ⊆ List.range t.slots.size := by
    intro i hi
    obtain ⟨n, hn⟩ := get?_of_mem h.lays hi
    exact List.mem_range.mpr (Slots.lt_size_of_get? hn)
  simpa using (h.nodup.subperm hsub).length_le

theorem Focus.length_lt (h : t.Focus up sh) : sh.ids.length + up.ids.length < t.horizon := by
  have hle := (holds_fill.mpr h).length_le
  have hp := (Trail.ids_fill_perm up sh).length_eq
  simp only [List.length_append] at hp
  simp only [horizon]
  omega

theorem horizon_le_patience (t : Tree K V) : t.horizon ≤ t.patience :=
  Nat.le_mul_of_pos_left _ (Nat.succ_pos _)

theorem Focus.length_lt_patience (h : t.Focus up sh) : up.length < t.patience := by
  have h₁ := h.length_lt
  have h₂ := up.length_le
  have h₃ := t.horizon_le_patience
  omega

/-! ## Down and up -/

/-- Going down one side of a subtree ends at its last item there. -/
theorem slide_ok {p : Link} (h : t.slots.Lays p sh) (hi : sh.link = some i) {steps : Nat}
    (hs : sh.ids.length ≤ steps) :
    ∃ j, t.slide s steps i = .ok j ∧ (s.tip sh.items).map (·.1) = some j := by
  induction steps generalizing sh p i with
  | zero =>
    have := List.length_pos_of_mem (Shape.mem_ids_of_link hi)
    omega
  | succ steps ih =>
    obtain ⟨a, e, b, heq⟩ := Shape.eq_branch hi s
    rw [heq] at h hs ⊢
    rw [Shape.length_ids_branch] at hs
    obtain ⟨hn, ha, -⟩ := Slots.lays_branch.mp h
    rw [Shape.tip_branch]
    simp only [slide, node_ok hn, ok_bind, Node.child_of]
    cases hl : a.link with
    | none =>
      obtain rfl := Shape.link_eq_none.mp hl
      refine ⟨i, rfl, ?_⟩
      cases s <;> rfl
    | some j =>
      obtain ⟨k, hrun, hk⟩ := ih ha hl (by omega)
      refine ⟨k, hrun, ?_⟩
      cases htip : s.tip a.items with
      | none => simp [htip] at hk
      | some x => simpa [htip] using hk

theorem outermost_ok (h : t.Focus up sh) (hi : sh.link = some i) :
    ∃ j, t.outermost s i = .ok j ∧ (s.tip sh.items).map (·.1) = some j :=
  slide_ok h.lays hi (by have := h.length_lt; omega)

/-- Going up from a subtree ends at the nearest item beyond it. -/
theorem climb_ok (h : t.Focus up sh) (hi : sh.link = some i) {steps : Nat}
    (hs : up.length ≤ steps) :
    t.climb s steps i up.hook = .ok ((s.other.tip (up.beyond s)).map (·.1)) := by
  induction steps generalizing up sh i with
  | zero =>
    cases up with
    | top => cases s <;> rfl
    | under f up => simp [Trail.length] at hs
  | succ steps ih =>
    cases up with
    | top => cases s <;> rfl
    | under f up =>
      obtain ⟨fs, c, p, ep, other⟩ := f
      have h₁ := focus_under.mp h
      have hn : t.node p = .ok (.of fs c ep sh.link other.link up.hook) := node_ok h₁.get?
      simp only [climb, Trail.hook_under, hn, ok_bind, Node.parent_of, Trail.beyond]
      by_cases hfs : fs = s
      · -- The way came by on this side, so the parent is passed already.
        subst hfs
        rw [if_pos rfl, Node.child_of, if_pos hi]
        exact ih h₁ (by simp) (by simpa [Trail.length] using hs)
      · -- The way came by on the other side, so the parent is the nearest item.
        have hs' : s = fs.other := by cases s <;> cases fs <;> first | rfl | exact absurd rfl hfs
        subst hs'
        have hne : other.link ≠ some i := by
          intro he
          have hnd := h.nodup
          rw [List.nodup_append] at hnd
          exact hnd.2.2 i (Shape.mem_ids_of_link hi) i
            (by simp [Trail.ids, Shape.mem_ids_of_link he]) rfl
        rw [if_neg hfs, Node.child_other_of, if_neg hne]
        cases fs <;> simp [Side.tip, Side.other]

/-- The neighbour of a node is the nearest item of its subtree on that side, or
the nearest item beyond. -/
theorem Focus.neighbour (h : t.Focus up (.branch s c a i e b)) :
    t.neighbour s i =
      .ok (((s.other.tip a.items).or (s.other.tip (up.beyond s))).map (·.1)) := by
  simp only [Tree.neighbour, node_ok h.get?, ok_bind, Node.child_of, Node.parent_of]
  cases hl : a.link with
  | none =>
    obtain rfl := Shape.link_eq_none.mp hl
    have hlen := h.length_lt
    have hup := up.length_le
    rw [show s.other.tip (Shape.nil : Shape K V).items = none by cases s <;> rfl, Option.none_or]
    exact climb_ok h (by simp) (by omega)
  | some j =>
    obtain ⟨k, hrun, hk⟩ := outermost_ok (s := s.other) h.near hl
    rw [Option.map_eq_some_iff] at hk
    obtain ⟨x, hx, rfl⟩ := hk
    simp [hrun, hx]

/-! ## Along the list -/

theorem Holds.focus_at {before after : List (Nat × K × V)} (h : t.Holds sh)
    (hs : sh.items = before ++ (i, e) :: after) :
    ∃ (up : Trail K V) (c : Color) (l r : Shape K V), sh = up.fill (.node c l i e r) ∧
      t.Focus up (.node c l i e r) ∧ before = up.beyond .left ++ l.items ∧
      after = r.items ++ up.beyond .right := by
  have hm : (i, e) ∈ sh.items := by simp [hs]
  obtain ⟨up, c, l, r, rfl⟩ := Shape.exists_trail hm
  rw [Trail.items_fill] at hs
  simp only [Shape.items, List.append_assoc, List.cons_append] at hs
  rw [← List.append_assoc] at hs
  -- The slot `i` occurs once, so both splittings are at the same place.
  have hnd := h.nodup
  rw [Shape.ids, Trail.items_fill] at hnd
  simp only [Shape.items, List.map_append, List.map_cons, List.append_assoc, List.cons_append,
    List.nodup_append, List.nodup_cons, List.mem_append, List.mem_cons] at hnd
  have hmem : ∀ l' : List (Nat × K × V), (i, e) ∈ l' → i ∈ l'.map (·.1) := fun l' hm =>
    List.mem_map.mpr ⟨(i, e), hm, rfl⟩
  have hleft : (i, e) ∉ up.beyond .left ++ l.items := by
    intro hm
    have := hmem _ hm
    simp only [List.map_append, List.mem_append] at this
    grind
  have hright : (i, e) ∉ r.items ++ up.beyond .right := by
    intro hm
    have := hmem _ hm
    simp only [List.map_append, List.mem_append] at this
    grind
  obtain ⟨h₁, -, h₂⟩ := (List.append_cons_inj_of_notMem hleft hright).mp hs
  exact ⟨up, c, l, r, rfl, holds_fill.mp h, h₁.symm, h₂.symm⟩

variable {before after : List (Nat × K × V)}

theorem Holds.get? (h : t.Holds sh) (hs : sh.items = before ++ (i, e) :: after) :
    ∃ n, t.slots.get? (some i) = some n ∧ n.entry = e := by
  obtain ⟨up, c, l, r, -, hf, -, -⟩ := h.focus_at hs
  exact ⟨_, Focus.get? (s := .left) hf, by simp⟩

theorem Holds.neighbour_right (h : t.Holds sh) (hs : sh.items = before ++ (i, e) :: after) :
    t.neighbour .right i = .ok (after.head?.map (·.1)) := by
  obtain ⟨up, c, l, r, -, hf, -, rfl⟩ := h.focus_at hs
  rw [Focus.neighbour (s := .right) hf]
  simp [Side.tip, Side.other, List.head?_append]

theorem Holds.neighbour_left (h : t.Holds sh) (hs : sh.items = before ++ (i, e) :: after) :
    t.neighbour .left i = .ok (before.getLast?.map (·.1)) := by
  obtain ⟨up, c, l, r, -, hf, rfl, -⟩ := h.focus_at hs
  rw [Focus.neighbour (s := .left) hf]
  simp [Side.tip, Side.other, List.getLast?_append]

theorem Holds.endNode (h : t.Holds sh) (s : Side) :
    t.endNode s = .ok ((s.tip sh.items).map (·.1)) := by
  simp only [Tree.endNode, h.root]
  cases hl : sh.link with
  | none =>
    obtain rfl := Shape.link_eq_none.mp hl
    cases s <;> rfl
  | some i =>
    obtain ⟨j, hrun, hj⟩ := outermost_ok (s := s) (focus_top.mpr h) hl
    simp [hrun, hj]

theorem Holds.nodesFrom (h : t.Holds sh) (hs : sh.items = before ++ after) {steps : Nat}
    (hp : after.length ≤ steps) :
    t.nodesFrom .right steps (after.head?.map (·.1)) = .ok (after.map (·.1)) := by
  induction after generalizing before steps with
  | nil => cases steps <;> rfl
  | cons x after ih =>
    obtain ⟨i, e⟩ := x
    obtain ⟨steps, rfl⟩ : ∃ n, steps = n + 1 := ⟨steps - 1, by simp at hp; omega⟩
    have hs' : sh.items = (before ++ [(i, e)]) ++ after := by simp [hs]
    have hrest := ih hs' (Nat.le_of_succ_le_succ hp)
    simp [Tree.nodesFrom, h.neighbour_right hs, hrest]

theorem Holds.inOrder (h : t.Holds sh) : t.inOrder = .ok sh.ids := by
  have hlen : sh.items.length ≤ t.horizon := by
    have := h.length_le
    simp only [Shape.ids, List.length_map] at this
    simp only [horizon]
    omega
  have hrun := h.nodesFrom (List.nil_append sh.items).symm hlen
  simp only [Tree.inOrder, firstNode, h.endNode, ok_bind, Side.tip, hrun, Shape.ids]

theorem Holds.entryOf (h : t.Holds sh) (hs : sh.items = before ++ (i, e) :: after) :
    t.entryOf (some i) = some e := by
  obtain ⟨n, hn, he⟩ := h.get? hs
  simp [Tree.entryOf, hn, he]

theorem Holds.entries (h : t.Holds sh) : t.entries = .ok sh.entries := by
  have hall : ∀ x ∈ sh.items, t.entryOf (some x.1) = some x.2 := by
    intro x hx
    obtain ⟨before, after, hs⟩ := List.append_of_mem hx
    exact h.entryOf hs
  simp only [Tree.entries, h.inOrder, ok_bind, pure_ok, Shape.ids, Shape.entries,
    List.filterMap_map]
  congr 1
  rw [← List.filterMap_eq_map]
  exact List.filterMap_congr (fun x hx => hall x hx)

end Tree

end SlotTree
