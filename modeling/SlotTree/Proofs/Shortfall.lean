import SlotTree.Proofs.Removal
import SlotTree.Proofs.Weights

/-
  Shortfalls — the repair after a removal, from what the links alone show.

  The tree is any linked one that keeps the colour rules except that the ways
  through one node `x` are a black node short. There are two such situations. A
  subtree with the root `x` has taken the place of a black node above it; then `x`
  may also be red, as the root or below a red node. Or `x` itself is to go: it is a
  black leaf, still linked, and counts as a missing node (`Tree.StandIn`). Under
  the right weight both are the same (`shortfall_mended`), and in the second the
  leaf is where it can be cut off when the repair is over.

  The loop reads through links that may be missing. That the sibling of the node
  it works on never is is said by a second loop with the same passes that fetches
  the sibling before each use (`mendBlackOnTrust_eq`).
-/
namespace SlotTree

variable {K V : Type}

theorem Trail.ids_fill_nil {up : Trail K V} {c : Color} {i : Nat} {e : K × V}
    (hnd : (up.fill (.node c .nil i e .nil)).ids.Nodup) :
    (up.fill .nil).ids = (up.fill (.node c .nil i e .nil)).ids.erase i := by
  simp only [Shape.ids, Trail.items_fill, Shape.items, List.map_append, List.map_cons,
    List.nil_append, List.append_nil, List.append_assoc, List.singleton_append]
    at hnd ⊢
  have hout : i ∉ (up.beyond .left).map (·.1) := by
    intro hm
    exact (List.nodup_append.mp hnd).2.2 i hm i (List.mem_cons_self ..) rfl
  rw [List.erase_append_right _ hout, List.erase_cons_head]

namespace Tree

variable {t t' : Tree K V} {up : Trail K V} {x : Shape K V} {w : Weight} {n : Nat}

/-- The repair loop with the sibling taken on trust, before each use: it breaks
off with a fault if the slot is vacant. -/
def mendBlackOnTrust : Nat → Tree K V → Link → Except Fault (Tree K V × Link)
  | 0, _, _ => .error .endless
  | passes + 1, t, x =>
    if x = t.root ∨ t.colorOf x = .red then .ok (t, x)
    else do
      let s : Side := if x = t.childOf .left (t.parentOf x) then .left else .right
      let _ ← t.slots.fetch (t.childOf s.other (t.parentOf x))
      let (t, sibling) ← t.blackenSibling s x
      let _ ← t.slots.fetch sibling
      if t.colorOf (t.childOf s sibling) = .black ∧ t.colorOf (t.childOf s.other sibling) = .black
      then
        let t := t.recolor sibling .red
        mendBlackOnTrust passes t (t.parentOf x)
      else do
        let (t, sibling) ← t.reddenFar s x sibling
        let _ ← t.slots.fetch sibling
        let t ← t.absorb s x sibling
        mendBlackOnTrust passes t t.root

/-- A black leaf that is linked below its parent. -/
structure StandIn (t : Tree K V) (x : Nat) : Prop where
  black : t.colorOf (some x) = .black
  childless : ∀ s, t.childOf s (some x) = none
  linked : ∃ p s, t.parentOf (some x) = some p ∧ t.childOf s (some p) = some x

/-! ## The sibling -/

theorem mendBlackOnTrust_stop {y : Link} (h : y = t.root ∨ t.colorOf y = .red) (passes : Nat) :
    t.mendBlackOnTrust passes y = t.mendBlackLoop passes y := by
  cases passes with
  | zero => rfl
  | succ passes => simp only [mendBlackOnTrust, mendBlackLoop, if_pos h]

theorem Focus.fetch_sibling {f : Crumb K V} (h : t.Focus (.under f up) x)
    (ht : (Trail.under f up).Takes .black (n + 1)) :
    ∃ y, t.slots.fetch (t.childOf f.side.other (some f.id)) = .ok y := by
  obtain ⟨co, ho⟩ : ∃ co, f.other.Balanced co (n + 1) := by
    cases ht with
    | red _ ho _ => exact ⟨_, ho⟩
    | black _ ho _ => exact ⟨_, ho⟩
  obtain ⟨i, hi⟩ := ho.exists_link
  have hf := focus_under.mp h
  obtain ⟨a, e, b, hbranch⟩ := Shape.eq_branch hi .left
  have hother := hf.far
  rw [hbranch] at hother
  rw [hf.childOf_other, hi]
  exact ⟨_, hother.fetch⟩

/-- The repair loop always finds the sibling that it uses. -/
theorem mendBlackOnTrust_eq (h : t.Focus up x) (hx : x.link ≠ none) (hc : x.color = .black)
    (ht : up.Takes .black (n + 1)) (passes : Nat) :
    t.mendBlackOnTrust passes x.link = t.mendBlackLoop passes x.link := by
  induction passes generalizing t up x n with
  | zero => rfl
  | succ passes ih =>
    cases up with
    | top => exact mendBlackOnTrust_stop (.inl h.root.symm) _
    | under f up =>
      have hcol : t.colorOf x.link = .black := by rw [h.colorOf, hc]
      have hpar : t.parentOf x.link = some f.id := h.parentOf hx
      have hside := h.side_eq hx
      obtain ⟨y, hfetch⟩ := h.fetch_sibling ht
      obtain ⟨t₁, s, c, p, ep, m, i, e, w, up₁, cm, cw, hs, hrun₁, -, h₁, hm, hw, ht₁, -, hup₁⟩ :=
        blackSibling_ok h hx ht
      rw [hs] at hside hfetch
      have hsib := (focus_under.mp h₁).far
      have hstart : ¬ (x.link = t.root ∨ t.colorOf x.link = .red) := by simp [h.ne_root, hcol]
      rw [mendBlackLoop, mendBlackOnTrust, if_neg hstart, if_neg hstart, hpar, hside]
      simp only [hfetch, hrun₁, ok_bind, hsib.fetch]
      by_cases hred : t₁.colorOf (t₁.childOf s (some i)) = .black ∧
          t₁.colorOf (t₁.childOf s.other (some i)) = .black
      · -- The sibling turns red, and the deficit moves on to the parent.
        rw [if_pos hred, if_pos hred]
        obtain ⟨h₂, hpar₂⟩ := h₁.redden_sibling hx
        rw [hpar₂]
        cases c with
        | red =>
          have hstop : (t₁.recolor (some i) .red).colorOf (some p) = .red := by
            simpa using h₂.colorOf
          exact mendBlackOnTrust_stop (.inr hstop) passes
        | black =>
          cases hup₁ rfl
          cases ht₁ with
          | red hf _ _ => cases hf
          | black _ _ hu => simpa using ih h₂ (by simp) (by simp) hu
      · -- A red child of the sibling ends the repair.
        rw [if_neg hred, if_neg hred]
        have hred' : ¬ (m.color = .black ∧ w.color = .black) := by
          rwa [hsib.childOf, hsib.childOf_other, hsib.near.colorOf, hsib.far.colorOf] at hred
        obtain ⟨t₂, i', e', m', w', hrun₂, -, h₂, -⟩ := reddenFar_ok h₁ hx hm hw hred'
        obtain ⟨t₃, hrun₃, -, -⟩ := absorb_ok h₂ hx
        have hsib₂ := (focus_under.mp h₂).far
        simp only [hrun₂, ok_bind, hsib₂.fetch, hrun₃]
        exact mendBlackOnTrust_stop (.inl rfl) passes

/-- Where the black counts differ in another way there may be no sibling. -/
example : unevenTree.mendBlackOnTrust 1 (some 4) = .error (.dangling none) := rfl

/-! ## The shape -/

/-- What the repair makes of a black node at fault: the trail takes the subtree as
it is, so the rules hold under the weight that counts it as it is. -/
theorem mendBlack_calm (h : t.Focus up x) (hx : x.link ≠ none) (hc : x.color = .black)
    (ht : up.Takes .black (n + 1)) (hcalm : x.Calm none) (hweighs : x.Weighs w n)
    (hw : ∀ i, x.link ≠ some i → w i = Weight.black i) :
    ∃ t' up', t.mendBlack x.link = .ok t' ∧ t.Rewired t' ∧ t'.Focus up' x ∧ up.Beside up' ∧
      up'.Takes .black n ∧ t'.RedBlack w := by
  obtain ⟨t', up', hrun, hrw, h', ht', hb⟩ := mendBlack_ok h hx hc ht h.length_lt_patience
  refine ⟨t', up', hrun, hrw, h', hb, ht', ?_⟩
  have hfill := ht'.calm_fill hc hcalm hweighs fun i hi =>
    hw i fun hl => h'.disjoint (Shape.mem_ids_of_link hl) hi
  exact (holds_fill.mpr h').redBlack_iff.mpr hfill

theorem mendBlack_painted {left right : Shape K V} {i : Nat} {e : K × V} {cl cr : Color}
    (h : t.Focus up (.node .red left i e right)) (ht : up.Takes .black (n + 1))
    (hl : left.Balanced cl n) (hr : right.Balanced cr n) :
    ∃ t', t.mendBlack (some i) = .ok t' ∧ t.Rewired t' ∧
      t'.Holds (up.fill (.node .black left i e right)) ∧ t'.RedBlack .black := by
  have hpatience : 0 < t.patience := Nat.lt_of_le_of_lt (Nat.zero_le _) h.length_lt_patience
  have h' := holds_fill.mpr (h.recolor .black)
  obtain ⟨m, hm⟩ := ht.fill (.black hl hr)
  exact ⟨_, mendBlack_red h rfl hpatience, .recolor .., h', h'.redBlack hm⟩

theorem StandIn.leaf {c : Color} {left right : Shape K V} {i : Nat} {e : K × V} (h : t.StandIn i)
    (hf : t.Focus up (.node c left i e right)) :
    c = .black ∧ left = .nil ∧ right = .nil ∧ ∃ f up', up = .under f up' := by
  have hcolor : t.colorOf (some i) = c := by simpa using hf.colorOf
  have hleft : t.childOf .left (some i) = left.link := Focus.childOf (s := .left) hf
  have hright : t.childOf .right (some i) = right.link := Focus.childOf (s := .right) hf
  have hparent : t.parentOf (some i) = up.hook := hf.parentOf (by simp)
  obtain ⟨p, -, hp, -⟩ := h.linked
  refine ⟨hcolor.symm.trans h.black, Shape.link_eq_none.mp (hleft.symm.trans (h.childless .left)),
    Shape.link_eq_none.mp (hright.symm.trans (h.childless .right)), ?_⟩
  cases up with
  | top => cases hparent.symm.trans hp
  | under f up => exact ⟨f, up, rfl⟩

/-- A black leaf below a node is a stand-in. When it is cut off nothing else goes,
and if the trail can do without it the colour rules hold. -/
theorem Focus.cut {f : Crumb K V} {i : Nat} {e : K × V}
    (h : t.Focus (.under f up) (.node .black .nil i e .nil)) :
    t.StandIn i ∧ ∃ t', t.replaceChild (t.parentOf (some i)) i none = .ok t' ∧ t'.Linked ∧
      t'.Lists t'.root (((Trail.under f up).fill (.node .black .nil i e .nil)).ids.erase i) ∧
      t.Rewired t' ∧ ((Trail.under f up).Takes .black 0 → t'.RedBlack .black) := by
  have hparent : t.parentOf (some i) = some f.id := by simpa using h.parentOf (by simp)
  constructor
  · refine ⟨by simpa using h.colorOf, fun s => ?_, f.id, f.side, hparent, ?_⟩
    · cases s with
      | left => exact Focus.childOf (s := .left) h
      | right => exact Focus.childOf (s := .right) h
    · simpa using (focus_under.mp h).childOf
  · obtain ⟨t', hrun, hw, h'⟩ := prune_ok (s := .left) h
    have hsh' := holds_fill.mpr h'
    refine ⟨t', hparent ▸ hrun, hsh'.linked, ?_, hw, fun ht => ?_⟩
    · rw [← Trail.ids_fill_nil (holds_fill.mpr h).nodup]
      exact hsh'.lists
    · obtain ⟨m, hm⟩ := ht.fill .nil
      exact hsh'.redBlack hm

end Tree

/-- The repair after a removal, in any linked tree that keeps the colour rules but
for the node `x`, through which all ways are one black node short. Either `x` has
been put in the place of a black node, and may also be red, as the root or below a
red node, or it is a black leaf that stands in for a missing node and counts as
one. The repair comes to an end, no way is short any more and the colour rules
hold. The nodes are the same in the same order, with their entries, and wherever the
loop uses a sibling, that is a node. A stand-in is still a leaf below its parent,
and when it is cut off nothing else goes. -/
theorem shortfall_mended {t : Tree K V} (h : t.Linked) {vs : List Nat} (hv : t.Lists t.root vs)
    {x : Nat} (hx : x ∈ vs) {w : Weight}
    (hw : w = .black ∨ w = Weight.black.without x ∧ t.StandIn x)
    (hn : t.Nearly (w.plus x) (some x)) :
    ∃ t', t.mendBlack (some x) = .ok t' ∧ t'.RedBlack w ∧ t'.Linked ∧ t'.Lists t'.root vs ∧
      t.Rewired t' ∧
      t.mendBlackOnTrust t.patience (some x) = t.mendBlackLoop t.patience (some x) ∧
      (t.StandIn x → t'.StandIn x ∧ ∃ t'',
        t'.replaceChild (t'.parentOf (some x)) x none = .ok t'' ∧ t''.Linked ∧
        t''.Lists t''.root (vs.erase x) ∧ t'.Rewired t'' ∧
        (w = Weight.black.without x → t''.RedBlack .black)) := by
  obtain ⟨sh, hsh, rfl⟩ := h.holds hv
  have hoff : ∀ i, i ≠ x → w i = Weight.black i := by
    intro i hi
    rcases hw with rfl | ⟨rfl, -⟩
    · rfl
    · exact Weight.without_of_ne hi
  obtain ⟨up, c, left, e, right, n, rfl, -, hup, -, hl, hr⟩ :=
    hsh.takes_above hx (fun i hi => (Weight.plus_of_ne hi).trans (hoff i hi)) hn
  rw [Weight.plus_self] at hup
  have hf := Tree.holds_fill.mp hsh
  cases c with
  | red =>
    have hnot : ¬ t.StandIn x := by
      intro hstand
      cases (hstand.leaf hf).1
    obtain rfl : w = .black := by
      rcases hw with rfl | ⟨-, hstand⟩
      · rfl
      · exact absurd hstand hnot
    rw [Weight.black_red, Nat.zero_add, Nat.add_comm] at hup
    obtain ⟨t', hrun, hrw, hsh', hrb⟩ := Tree.mendBlack_painted hf hup hl hr
    refine ⟨t', hrun, hrb, hsh'.linked, ?_, hrw, ?_, fun hstand => absurd hstand hnot⟩
    · simpa [Shape.ids, Trail.items_fill, Shape.items] using hsh'.lists
    · exact Tree.mendBlackOnTrust_stop (.inr (by simpa using hf.colorOf)) _
  | black =>
    obtain ⟨hweighs, hcalm⟩ : (Shape.node .black left x e right).Weighs w (w x .black + n) ∧
        (Shape.node .black left x e right).Calm none := by
      obtain ⟨-, hwl, hcl⟩ := Shape.balanced_iff.mp hl
      obtain ⟨-, hwr, hcr⟩ := Shape.balanced_iff.mp hr
      refine ⟨⟨n, rfl, ?_⟩, Shape.calm_black (s := .left) hcl hcr⟩
      rcases hw with rfl | ⟨-, hstand⟩
      · exact ⟨hwl, hwr⟩
      · obtain ⟨-, rfl, rfl, -⟩ := hstand.leaf hf
        exact ⟨hwl, hwr⟩
    rw [Nat.add_right_comm] at hup
    obtain ⟨t', up', hrun, hrw, hf', hb, hup', hrb⟩ :=
      Tree.mendBlack_calm hf (by simp) rfl hup hcalm hweighs
        (fun i hi => hoff i fun he => hi (by rw [he, Shape.link_node]))
    have hsh' := Tree.holds_fill.mpr hf'
    have hids : (up'.fill (.node .black left x e right)).ids =
        (up.fill (.node .black left x e right)).ids := by
      rw [Shape.ids, Shape.ids, Trail.items_fill, Trail.items_fill, hb, hb]
    refine ⟨t', hrun, hrb, hsh'.linked, hids ▸ hsh'.lists, hrw,
      Tree.mendBlackOnTrust_eq hf (by simp) rfl hup _, fun hstand => ?_⟩
    obtain ⟨-, rfl, rfl, f, up₀, rfl⟩ := hstand.leaf hf
    obtain ⟨g, up₁, rfl⟩ := hb.exists_under
    rw [← hids]
    obtain ⟨hstand', t'', hcut, hlinked, hlists, hrw', hrules⟩ := hf'.cut
    refine ⟨hstand', t'', hcut, hlinked, hlists, hrw', ?_⟩
    rintro rfl
    cases hl
    rw [Weight.without_self] at hup'
    exact hrules hup'

/-- Six nodes with keys in no order. The black leaf 1 has a red sibling, whose near
child has a red child on the near side only. -/
def shortTree : Tree Int Int where
  slots := ⟨#[some ⟨0, 0, some 1, some 2, none, .black⟩, some ⟨1, 10, none, none, some 0, .black⟩,
    some ⟨2, 20, some 3, some 4, some 0, .red⟩, some ⟨3, 30, some 5, none, some 2, .black⟩,
    some ⟨4, 40, none, none, some 2, .black⟩, some ⟨5, 50, none, none, some 3, .red⟩], [], 6⟩
  root := some 0
  size := 6
  revision := 6

/-- The shape that the links make. -/
def shortShape : Shape Int Int :=
  .node .black (.node .black .nil 1 (1, 10) .nil) 0 (0, 0)
    (.node .red (.node .black (.node .red .nil 5 (5, 50) .nil) 3 (3, 30) .nil) 2 (2, 20)
      (.node .black .nil 4 (4, 40) .nil))

theorem shortTree_holds : shortTree.Holds shortShape where
  root := rfl
  lays := by simp [shortShape, Slots.Lays, shortTree, Slots.get?, Node.of]
  nodup := by decide

theorem shortTree_standIn : shortTree.StandIn 1 where
  black := rfl
  childless := by rintro (_ | _) <;> rfl
  linked := ⟨0, .left, rfl, rfl⟩

theorem shortTree_nearly : shortTree.Nearly ((Weight.black.without 1).plus 1) (some 1) := by
  apply shortTree_holds.nearly_iff.mpr
  refine ⟨.inr rfl, ?_, 2, ?_⟩
  · simp [shortShape, Shape.Calm, Shape.BlackBut]
  · simp [shortShape, Shape.Weighs, Weight.plus, Weight.without]

/-- Three rotations make up for the leaf, which is then cut off. -/
theorem shortTree_mended :
    shortTree.Linked ∧ shortTree.Lists shortTree.root [1, 0, 5, 3, 2, 4] ∧ shortTree.StandIn 1 ∧
      shortTree.Nearly ((Weight.black.without 1).plus 1) (some 1) ∧
      ∃ t', shortTree.mendBlack (some 1) = .ok t' ∧ t'.RedBlack (Weight.black.without 1) ∧
        t'.Lists t'.root [1, 0, 5, 3, 2, 4] ∧ t'.StandIn 1 ∧
        ∃ t'', t'.replaceChild (t'.parentOf (some 1)) 1 none = .ok t'' ∧
          t''.Lists t''.root [0, 5, 3, 2, 4] ∧ t''.RedBlack .black := by
  have hlinked := shortTree_holds.linked
  have hlists : shortTree.Lists shortTree.root [1, 0, 5, 3, 2, 4] := shortTree_holds.lists
  obtain ⟨t', hrun, hrb, -, hv, -, -, hstand⟩ := shortfall_mended hlinked hlists (x := 1)
    (by decide) (.inr ⟨rfl, shortTree_standIn⟩) shortTree_nearly
  obtain ⟨hstand', t'', hcut, -, hv', -, hrb'⟩ := hstand shortTree_standIn
  exact ⟨hlinked, hlists, shortTree_standIn, shortTree_nearly, t', hrun, hrb, hv, hstand', t'',
    hcut, hv', hrb' rfl⟩

end SlotTree
