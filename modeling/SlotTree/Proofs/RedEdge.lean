import SlotTree.Proofs.MendRed
import SlotTree.Proofs.Weights

/-
  Red edges — the repair after an insertion, from what the links alone show.

  The tree is any linked one that keeps the colour rules but for one red node
  `x`, which may be the root or hang below a red node. It need not be the outcome
  of an insertion: entries may stand in any order and slots may be lost. The trail
  above `x` then takes a black subtree (`Holds.takes_above`), which is the
  invariant of the loop.

  The loop reads through links that may be missing. That the grandparent never is
  is said by a second loop with the same passes that fetches its node and breaks
  off if there is none: the two go the same way (`mendRedOnTrust_eq`).
-/
namespace SlotTree

variable {K V : Type}

namespace Tree

variable {t : Tree K V} {up : Trail K V} {s s' : Side} {n : Nat}

/-- The repair loop with the grandparent taken on trust, whenever it is used: it
breaks off with a fault if the slot is vacant. -/
def mendRedOnTrust : Nat → Tree K V → Link → Except Fault (Tree K V)
  | 0, _, _ => .error .endless
  | passes + 1, t, x =>
    let parent := t.parentOf x
    if x = t.root ∨ t.colorOf parent = .black then .ok t
    else do
      let grand := t.parentOf parent
      let _ ← t.slots.fetch grand
      let s : Side := if parent = t.childOf .left grand then .left else .right
      let uncle := t.childOf s.other grand
      if t.colorOf uncle = .red then
        let t := ((t.recolor parent .black).recolor uncle .black).recolor grand .red
        mendRedOnTrust passes t grand
      else do
        let inner : Bool := x = t.childOf s.other parent
        let x := if inner then parent else x
        let t ← if inner then t.rotate s x else pure t
        let parent := t.parentOf x
        let grand := t.parentOf parent
        let _ ← t.slots.fetch grand
        let t ← ((t.recolor parent .black).recolor grand .red).rotate s.other grand
        mendRedOnTrust passes t x

/-! ## The grandparent -/

theorem mendRedOnTrust_stop {x : Link} (h : x = t.root ∨ t.colorOf (t.parentOf x) = .black)
    (passes : Nat) : t.mendRedOnTrust passes x = t.mendRedLoop passes x := by
  cases passes with
  | zero => rfl
  | succ passes => simp only [mendRedOnTrust, mendRedLoop, if_pos h]

theorem mendRedOnTrust_under {x fo go : Shape K V} {f g : Nat} {c : Color} {ef eg : K × V}
    (h : t.Focus up (.branch s c (.branch s' .red x f ef fo) g eg go)) (hx : x.link ≠ none)
    (passes : Nat) :
    t.mendRedOnTrust (passes + 1) x.link =
      if go.color = .red then
        (((t.recolor (some f) .black).recolor go.link .black).recolor (some g) .red).mendRedOnTrust
          passes (some g)
      else (do
        let inner : Bool := x.link = t.childOf s.other (some f)
        let y := if inner then some f else x.link
        let t ← if inner then t.rotate s y else pure t
        let parent := t.parentOf y
        let grand := t.parentOf parent
        let _ ← t.slots.fetch grand
        let t ← ((t.recolor parent .black).recolor grand .red).rotate s.other grand
        t.mendRedOnTrust passes y) := by
  have hpar : t.parentOf x.link = some f := h.near.near.parentOf hx
  have hgrand : t.parentOf (some f) = some g := by simpa using h.near.parentOf (by simp)
  have hroot : ¬ x.link = t.root := h.near.near.ne_root
  have hred : t.colorOf (some f) = .red := by simpa using h.near.colorOf
  have hside : (if some f = t.childOf .left (some g) then Side.left else .right) = s := by
    simpa using h.near.side_eq (by simp)
  have huncle : t.colorOf go.link = go.color := h.far.colorOf
  simp [mendRedOnTrust, hpar, hgrand, hroot, hred, hside, huncle, h.childOf_other, h.fetch]

theorem mendRedOnTrust_rotate {x fo go : Shape K V} {f g : Nat} {ef eg : K × V}
    (h : t.Focus up (.branch s .black (.branch s' .red x f ef fo) g eg go))
    (hx : x.Balanced .red n) (hfo : fo.Balanced .black n) (hgo : go.color = .black)
    (passes : Nat) :
    t.mendRedOnTrust (passes + 1) x.link = t.mendRedLoop (passes + 1) x.link := by
  have hne : x.link ≠ none := by cases hx; simp
  have hblack : ¬ go.color = .red := by simp [hgo]
  rw [mendRedLoop_under h hne, mendRedOnTrust_under h hne, if_neg hblack, if_neg hblack]
  generalize hinner : decide (x.link = t.childOf s.other (some f)) = inner
  obtain ⟨t₁, y, i, e, b, hy, hrun₁, -, h₁, hyb, -, -⟩ := straighten_ok h hx hfo hinner.symm
  have hyne : y.link ≠ none := by cases hyb; simp
  have hpar : t₁.parentOf y.link = some i := h₁.near.near.parentOf hyne
  have hgrand : t₁.parentOf (some i) = some g := by simpa using h₁.near.parentOf (by simp)
  obtain ⟨t', hrun, -, -, hstop⟩ := outer_ok h₁ hyne
  have hend := mendRedOnTrust_stop (.inr hstop) passes
  cases inner <;> simp only [Bool.false_eq_true, if_false, if_true] at hy hrun₁ ⊢ <;>
    simp only [hy, hrun₁, ok_bind, hpar, hgrand, h₁.fetch, hrun, hend]

/-- The repair loop always finds the grandparent that it uses. -/
theorem mendRedOnTrust_eq {x : Shape K V} (h : t.Focus up x) (hx : x.Balanced .red n)
    (hup : up.Takes .black n) (passes : Nat) :
    t.mendRedOnTrust passes x.link = t.mendRedLoop passes x.link := by
  induction passes generalizing t up x n with
  | zero => rfl
  | succ passes ih =>
    have hne : x.link ≠ none := by cases hx; simp
    cases hup with
    | top => exact mendRedOnTrust_stop (.inl h.root.symm) _
    | @black f up c' _ n hf ho hu =>
      have hstop : t.colorOf (t.parentOf x.link) = .black := by
        rw [h.parentOf hne]
        simpa [hf] using (focus_under.mp h).colorOf
      exact mendRedOnTrust_stop (.inr hstop) _
    | @red f up n hf ho hu =>
      obtain ⟨g, up, c', rfl, hg, hgo, hu'⟩ := hu.exists_under
      have h' := focus_under.mp (focus_under.mp h)
      simp only [Crumb.fill, hf, hg] at h'
      cases hc : g.other.color with
      | black => exact mendRedOnTrust_rotate h' hx ho hc passes
      | red =>
        rw [mendRedLoop_under h' hne, mendRedOnTrust_under h' hne, if_pos hc, if_pos hc]
        simpa using ih h'.recolor_uncle (balanced_recolor_uncle hx ho hgo hc) hu'

/-- Below a red root there is no grandparent to be found. -/
example : unevenTree.mendRedOnTrust 1 (some 0) = .error (.dangling none) := rfl

end Tree

/-- The repair after an insertion, in any linked tree in which all ways pass the
same number of black nodes and no red node but `x` is the root or hangs below a red
one: it comes to an end and the colour rules hold. The nodes are the same in the
same order, with their entries, and wherever the loop uses the grandparent, that is
a node. -/
theorem red_edge_mended {t : Tree K V} (h : t.Linked) {vs : List Nat} (hv : t.Lists t.root vs)
    {x : Nat} (hx : x ∈ vs) (hred : t.colorOf (some x) = .red)
    (hn : t.Nearly .black (some x)) :
    ∃ t', t.mendRed (some x) = .ok t' ∧ t'.RedBlack .black ∧ t'.Linked ∧ t'.Lists t'.root vs ∧
      t.Rewired t' ∧
      t.mendRedOnTrust t.patience (some x) = t.mendRedLoop t.patience (some x) := by
  obtain ⟨sh, hsh, rfl⟩ := h.holds hv
  obtain ⟨up, c, left, e, right, n, rfl, -, hup, hpair, hl, hr⟩ :=
    hsh.takes_above hx (fun _ _ => rfl) hn
  have hf := Tree.holds_fill.mp hsh
  obtain rfl : c = .red := by rw [← hred]; exact hf.colorOf.symm
  obtain ⟨hcl, hcr⟩ := hpair rfl
  rw [hcl] at hl
  rw [hcr] at hr
  rw [Weight.black_red, Nat.zero_add] at hup
  have hbal : (Shape.node .red left x e right).Balanced .red n := .red hl hr
  obtain ⟨t', sh', hrun, hw, hsh', hitems, m, hm⟩ :=
    Tree.mendRed_ok hf hbal hup hf.length_lt_patience
  refine ⟨t', hrun, hsh'.redBlack hm, hsh'.linked, ?_, hw,
    Tree.mendRedOnTrust_eq hf hbal hup t.patience⟩
  rw [Shape.ids, ← hitems]
  exact hsh'.lists

/-- Eight nodes with keys in no order. The red node 5 hangs below the red node 3,
whose sibling is red too; two levels up there is another red node. -/
def climbTree : Tree Int Int where
  slots := ⟨#[some ⟨0, 0, some 1, some 6, none, .black⟩, some ⟨1, 10, some 7, some 2, some 0, .red⟩,
    some ⟨2, 20, some 3, some 4, some 1, .black⟩, some ⟨3, 30, none, some 5, some 2, .red⟩,
    some ⟨4, 40, none, none, some 2, .red⟩, some ⟨5, 50, none, none, some 3, .red⟩,
    some ⟨6, 60, none, none, some 0, .black⟩, some ⟨7, 70, none, none, some 1, .black⟩], [], 8⟩
  root := some 0
  size := 8
  revision := 8

/-- The shape that the links make. -/
def climbShape : Shape Int Int :=
  .node .black
    (.node .red (.node .black .nil 7 (7, 70) .nil) 1 (1, 10)
      (.node .black (.node .red .nil 3 (3, 30) (.node .red .nil 5 (5, 50) .nil)) 2 (2, 20)
        (.node .red .nil 4 (4, 40) .nil)))
    0 (0, 0) (.node .black .nil 6 (6, 60) .nil)

theorem climbTree_holds : climbTree.Holds climbShape where
  root := rfl
  lays := by simp [climbShape, Slots.Lays, climbTree, Slots.get?, Node.of]
  nodup := by decide

theorem climbTree_nearly : climbTree.Nearly .black (some 5) := by
  apply climbTree_holds.nearly_iff.mpr
  refine ⟨.inr rfl, ?_, 2, ?_⟩
  · simp [climbShape, Shape.Calm, Shape.BlackBut]
  · simp [climbShape, Shape.Weighs]

/-- The red edge climbs two levels and is removed there by two rotations. -/
theorem climbTree_mended :
    climbTree.Linked ∧ climbTree.Lists climbTree.root [7, 1, 3, 5, 2, 4, 0, 6] ∧
      climbTree.colorOf (some 5) = .red ∧ climbTree.Nearly .black (some 5) ∧
      ∃ t', climbTree.mendRed (some 5) = .ok t' ∧ t'.RedBlack .black ∧ t'.Linked ∧
        t'.Lists t'.root [7, 1, 3, 5, 2, 4, 0, 6] := by
  have hlinked := climbTree_holds.linked
  have hlists : climbTree.Lists climbTree.root [7, 1, 3, 5, 2, 4, 0, 6] := climbTree_holds.lists
  obtain ⟨t', hrun, hrb, hl, hv, -⟩ :=
    red_edge_mended hlinked hlists (x := 5) (by decide) rfl climbTree_nearly
  exact ⟨hlinked, hlists, rfl, climbTree_nearly, t', hrun, hrb, hl, hv⟩

end SlotTree
