import SlotTree.Proofs.MendBlack
import SlotTree.Proofs.MendRed
import SlotTree.Proofs.Mirror

/-
  Mirrored repairs — rotations and both repairs commute with mirror images.

  What the code asks about sides it asks of one child: whether a node is the left
  child of its parent. In the mirror image the answer has to be the other one,
  and it is if the node hangs on one side only (`Hung`) and does hang somewhere.
  Both hold wherever a well-linked tree is looked at (`Focus.hung`,
  `Focus.side_mirror`); everything else is said relative to the side.

  The repairs are followed pass by pass, with the invariants that show them to
  end in a red-black tree: these say at every turn that the nodes asked about
  are there.
-/
namespace SlotTree.Tree

variable {K V : Type} {t t' : Tree K V} {up : Trail K V} {s s' : Side} {i j : Nat} {l l' : Link}

/-! ## Nodes that hang on one side -/

/-- The node is the child of its parent on one side and not on the other. -/
def Hung (t : Tree K V) (parent : Link) (i : Nat) : Prop :=
  ∀ p, parent = some p →
    ∃ s, t.childOf s (some p) = some i ∧ t.childOf s.other (some p) ≠ some i

theorem Hung.congr {parent : Link} (h : t.Hung parent i)
    (heq : ∀ p, parent = some p → ∀ s, t'.childOf s (some p) = t.childOf s (some p)) :
    t'.Hung parent i := by
  intro p hp
  obtain ⟨s, hnear, hfar⟩ := h p hp
  refine ⟨s, ?_, ?_⟩
  · rw [heq p hp]
    exact hnear
  · rw [heq p hp]
    exact hfar

theorem Focus.hung {sh : Shape K V} (h : t.Focus up sh) (hi : sh.link = some i) :
    t.Hung up.hook i := by
  intro p hp
  cases up with
  | top => cases hp
  | under f up =>
    obtain rfl := Option.some.inj hp
    have hf := focus_under.mp h
    refine ⟨f.side, hf.childOf.trans hi, ?_⟩
    rw [hf.childOf_other]
    exact h.other_ne hi

theorem Focus.side_mirror {f : Crumb K V} {sh : Shape K V} (h : t.Focus (.under f up) sh)
    (hne : sh.link ≠ none) :
    (if sh.link = t.mirror.childOf .left (some f.id) then Side.left else .right) =
      f.side.other := by
  obtain ⟨i, hi⟩ := Option.ne_none_iff_exists'.mp hne
  obtain ⟨s, c, p, e, o⟩ := f
  have hf := focus_under.mp h
  have hnear : t.childOf s (some p) = some i := hf.childOf.trans hi
  have hfar : t.childOf s.other (some p) ≠ some i := by
    rw [hf.childOf_other]
    exact h.other_ne hi
  rw [childOf_mirror, hi]
  cases s with
  | left =>
    apply if_neg
    exact hfar.symm
  | right =>
    apply if_pos
    exact hnear.symm

/-! ## Writing one node -/

theorem get?_of_node {n : Node K V} (h : t.node i = .ok n) : t.slots.get? (some i) = some n := by
  unfold node Slots.fetch at h
  cases hn : t.slots.get? (some i) with
  | none => simp [hn] at h
  | some m => simpa [hn] using h

theorem eq_of_reviseNode {f : Node K V → Node K V} (h : t.reviseNode i f = .ok t') :
    t' = { t with slots := t.slots.update (some i) f } := by
  obtain ⟨slots, hslots, hrest⟩ := bind_eq_ok.mp h
  obtain rfl := Except.ok.inj hrest
  unfold Slots.revise at hslots
  split at hslots
  · rw [← Except.ok.inj hslots]
  · cases hslots

theorem childOf_setParent (h : t.setParent i l = .ok t') (s : Side) (l' : Link) :
    t'.childOf s l' = t.childOf s l' := by
  obtain rfl := eq_of_reviseNode h
  simp only [childOf, Slots.get?_update]
  split
  · cases t.slots.get? l' with
    | none => rfl
    | some n => cases s <;> rfl
  · rfl

theorem parentOf_setParent (h : t.setParent i l = .ok t') (hne : l' ≠ some i) :
    t'.parentOf l' = t.parentOf l' := by
  obtain rfl := eq_of_reviseNode h
  simp only [parentOf, Slots.get?_update, if_neg hne.symm]

theorem parentOf_setChild (h : t.setChild s i l = .ok t') (l' : Link) :
    t'.parentOf l' = t.parentOf l' := by
  obtain rfl := eq_of_reviseNode h
  simp only [parentOf, Slots.get?_update]
  split
  · cases t.slots.get? l' with
    | none => rfl
    | some n => cases s <;> rfl
  · rfl

theorem childOf_setChild (h : t.setChild s i l = .ok t') (hne : l' ≠ some i) (s' : Side) :
    t'.childOf s' l' = t.childOf s' l' := by
  obtain rfl := eq_of_reviseNode h
  simp only [childOf, Slots.get?_update, if_neg hne.symm]

theorem replaceChild_mirror {parent : Link} (h : t.Hung parent i) (new : Link) :
    t.mirror.replaceChild parent i new = mirror <$> t.replaceChild parent i new := by
  cases parent with
  | none => rfl
  | some p =>
    simp only [replaceChild, node_mirror]
    apply map_bind_map
    intro n hn
    obtain ⟨s, hnear, hfar⟩ := h p rfl
    rw [childOf_eq (get?_of_node hn)] at hnear hfar
    -- The node is the left child in one of the two trees and not in the other one.
    have hside : (if n.mirror.left = some i then Side.left else .right) =
        (if n.left = some i then Side.left else .right).other := by
      cases s with
      | left =>
        have hl : n.left = some i := hnear
        have hr : n.mirror.left ≠ some i := hfar
        rw [if_pos hl, if_neg hr]
        rfl
      | right =>
        have hr : n.mirror.left = some i := hnear
        have hl : n.left ≠ some i := hfar
        rw [if_pos hr, if_neg hl]
        rfl
    rw [hside, setChild_mirror]

/-! ## Rotations -/

variable {c c' : Color} {a b d : Shape K V} {p r : Nat} {ep er : K × V}

/-- The second half of a rotation, in which the child takes the place of its
parent. -/
theorem raise_mirror {parent : Link} (hparent : t.parentOf (some p) = parent)
    (hhung : t.Hung parent p) :
    (do
      let n ← t.mirror.node p
      let t ← t.mirror.setParent r n.parent
      let t ← t.replaceChild n.parent p (some r)
      let t ← t.setChild s.other r (some p)
      t.setParent p (some r)) =
    mirror <$> (do
      let n ← t.node p
      let t ← t.setParent r n.parent
      let t ← t.replaceChild n.parent p (some r)
      let t ← t.setChild s r (some p)
      t.setParent p (some r)) := by
  rw [node_mirror]
  apply map_bind_map
  intro n hn
  have hn' : n.parent = parent := by simpa [parentOf, get?_of_node hn] using hparent
  rw [Node.parent_mirror, hn', setParent_mirror]
  apply map_bind_map
  intro t₁ h₁
  rw [replaceChild_mirror (hhung.congr (fun _ _ _ => childOf_setParent h₁ _ _))]
  apply map_bind_map
  intro t₂ _
  rw [setChild_mirror]
  apply map_bind_map
  intro t₃ _
  exact setParent_mirror t₃ p (some r)

theorem lift_mirror (h : t.Focus up (.branch s c a p ep (.branch s c' b r er d))) :
    t.mirror.lift s.other p r = mirror <$> t.lift s p r := by
  have hr := node_ok h.far.get?
  have hhook : up.hook ≠ some p := h.hook_ne (Shape.link_branch ..)
  have hinner : some p ≠ b.link := by
    have hnd := h.nodup_pivot
    simp only [List.cons_append, List.nodup_cons, List.mem_cons, List.mem_append, not_or] at hnd
    intro he
    exact hnd.1.2.1.1.2 (Shape.mem_ids_of_link he.symm)
  have hhung := h.hung (Shape.link_branch ..)
  have hparent : t.parentOf (some p) = up.hook := by simpa using h.parentOf (by simp)
  have hset := setChild_mirror t s.other p b.link
  rw [Side.other_other] at hset
  simp only [lift, node_mirror, hr, map_ok, ok_bind, Node.child_mirror, Side.other_other,
    Node.child_of, hset]
  apply map_bind_map
  intro t₁ h₁
  -- The parent stays where it hangs while the subtree between the two nodes is moved.
  have hparent₁ : t₁.parentOf (some p) = up.hook := (parentOf_setChild h₁ _).trans hparent
  have hhung₁ : t₁.Hung up.hook p :=
    hhung.congr (fun q hq s' => childOf_setChild h₁ (hq ▸ hhook) s')
  cases hb : b.link with
  | none => exact raise_mirror hparent₁ hhung₁
  | some k =>
    simp only [setParent_mirror]
    apply map_bind_map
    intro t₂ h₂
    rw [hb] at hinner
    apply raise_mirror
    · exact (parentOf_setParent h₂ hinner).trans hparent₁
    · exact hhung₁.congr (fun _ _ _ => childOf_setParent h₂ _ _)

theorem rotate_mirror (h : t.Focus up (.branch s c a p ep b)) :
    t.mirror.rotate s.other (some p) = mirror <$> t.rotate s (some p) := by
  simp only [rotate, childOf_mirror, Side.other_other, h.childOf_other]
  cases hb : b.link with
  | none => rfl
  | some r =>
    obtain ⟨x, e, y, hbranch⟩ := Shape.eq_branch hb s
    rw [hbranch] at h
    exact lift_mirror h

/-! ## The repair after an insertion -/

theorem mendRedLoop_stop_mirror {y : Link} (h : y = t.root ∨ t.colorOf (t.parentOf y) = .black)
    (passes : Nat) : t.mirror.mendRedLoop passes y = mirror <$> t.mendRedLoop passes y := by
  cases passes with
  | zero => rfl
  | succ passes =>
    have h' : y = t.mirror.root ∨ t.mirror.colorOf (t.mirror.parentOf y) = .black := by simpa using h
    rw [mendRedLoop_stop h, mendRedLoop_stop h', map_ok]

theorem outer_mirror {x fo go : Shape K V} {f g : Nat} {ef eg : K × V}
    (h : t.Focus up (.branch s .black (.branch s .red x f ef fo) g eg go)) (hx : x.link ≠ none)
    (passes : Nat) :
    (((t.recolor (some f) .black).recolor (some g) .red).mirror.rotate s (some g) >>=
        fun t => t.mendRedLoop passes x.link) =
      mirror <$> (((t.recolor (some f) .black).recolor (some g) .red).rotate s.other (some g) >>=
        fun t => t.mendRedLoop passes x.link) := by
  obtain ⟨t', hrun, -, -, hstop⟩ := outer_ok h hx
  have h₁ := h.recolor_near .black
  rw [Shape.link_branch, Shape.paint_branch] at h₁
  have h₂ := h₁.recolor_branch .red
  rw [← Shape.branch_other s .red] at h₂
  have hrotate := rotate_mirror h₂
  rw [Side.other_other, hrun, map_ok] at hrotate
  rw [hrotate, hrun, ok_bind, ok_bind, mendRedLoop_stop_mirror (.inr hstop)]

theorem mendRedLoop_under_mirror {x fo go : Shape K V} {f g : Nat} {ef eg : K × V}
    (h : t.Focus up (.branch s c (.branch s' .red x f ef fo) g eg go)) (hx : x.link ≠ none)
    (passes : Nat) :
    t.mirror.mendRedLoop (passes + 1) x.link =
      if go.color = .red then
        (((t.recolor (some f) .black).recolor go.link .black).recolor (some g)
          .red).mirror.mendRedLoop passes (some g)
      else (do
        let inner : Bool := x.link = t.childOf s.other (some f)
        let y := if inner then some f else x.link
        let t ← if inner then t.mirror.rotate s.other y else pure t.mirror
        let parent := t.parentOf y
        let grand := t.parentOf parent
        let t ← ((t.recolor parent .black).recolor grand .red).rotate s grand
        t.mendRedLoop passes y) := by
  have hpar : t.parentOf x.link = some f := h.near.near.parentOf hx
  have hgrand : t.parentOf (some f) = some g := by simpa using h.near.parentOf (by simp)
  have hroot : ¬ x.link = t.root := h.near.near.ne_root
  have hred : t.colorOf (some f) = .red := by simpa using h.near.colorOf
  have hside := h.near.side_mirror (by simp)
  have huncle : t.colorOf go.link = go.color := h.far.colorOf
  simp only [Shape.link_branch, childOf_mirror] at hside
  simp [mendRedLoop, hpar, hgrand, hroot, hred, hside, huncle, h.childOf_other]

theorem mendRedLoop_rotate_mirror {x fo go : Shape K V} {f g n : Nat} {ef eg : K × V}
    (h : t.Focus up (.branch s .black (.branch s' .red x f ef fo) g eg go))
    (hx : x.Balanced .red n) (hgo : go.color = .black) (passes : Nat) :
    t.mirror.mendRedLoop (passes + 1) x.link = mirror <$> t.mendRedLoop (passes + 1) x.link := by
  obtain ⟨i, hi⟩ : ∃ i, x.link = some i := by cases hx; exact ⟨_, rfl⟩
  have hne : x.link ≠ none := by simp [hi]
  have hblack : ¬ go.color = .red := by simp [hgo]
  rw [mendRedLoop_under h hne, mendRedLoop_under_mirror h hne, if_neg hblack, if_neg hblack]
  by_cases hs : s' = s
  · -- The outer grandchild.
    subst hs
    have hinner : ¬ x.link = t.childOf s'.other (some f) := by
      rw [h.near.childOf_other]
      intro he
      exact h.near.near.other_ne hi (he ▸ hi)
    have hpar : t.parentOf x.link = some f := h.near.near.parentOf hne
    have hgrand : t.parentOf (some f) = some g := by simpa using h.near.parentOf (by simp)
    have houter := outer_mirror h hne passes
    simpa [hinner, hpar, hgrand] using houter
  · -- The inner grandchild: its rotation above the parent makes an outer one of the parent.
    obtain rfl := Side.eq_other_of_ne hs
    obtain ⟨xa, e, xb, hxe⟩ := Shape.eq_branch hi s
    rw [hx.color_eq] at hxe
    subst hxe
    have hinner : t.childOf s.other (some f) = some i := by simpa using h.near.childOf
    have hf := h.near
    rw [Shape.branch_other] at hf
    obtain ⟨t₁, hrun₁, -, h₁⟩ := rotate_ok hf
    have hrotate := rotate_mirror hf
    rw [hrun₁, map_ok] at hrotate
    have h₂ := focus_under.mp h₁
    have hpar : t₁.parentOf (some f) = some i := by simpa using h₁.near.parentOf (by simp)
    have hgrand : t₁.parentOf (some i) = some g := by simpa using h₁.parentOf (by simp)
    have houter := outer_mirror h₂ (by simp) passes
    rw [Shape.link_branch] at houter
    simpa [hinner, hrun₁, hrotate, hpar, hgrand] using houter

/-- The repair after an insertion takes every turn to the other side. -/
theorem mendRedLoop_mirror {x : Shape K V} {n : Nat} (h : t.Focus up x) (hx : x.Balanced .red n)
    (hup : up.Takes .black n) (passes : Nat) :
    t.mirror.mendRedLoop passes x.link = mirror <$> t.mendRedLoop passes x.link := by
  induction passes generalizing t up x n with
  | zero => rfl
  | succ passes ih =>
    have hne : x.link ≠ none := by cases hx; simp
    cases hup with
    | top => exact mendRedLoop_stop_mirror (.inl h.root.symm) _
    | @black f up c' _ n hf ho hu =>
      have hstop : t.colorOf (t.parentOf x.link) = .black := by
        rw [h.parentOf hne]
        simpa [hf] using (focus_under.mp h).colorOf
      exact mendRedLoop_stop_mirror (.inr hstop) _
    | @red f up n hf ho hu =>
      obtain ⟨g, up, c', rfl, hg, hgo, hu'⟩ := hu.exists_under
      have h' := focus_under.mp (focus_under.mp h)
      simp only [Crumb.fill, hf, hg] at h'
      cases hc : g.other.color with
      | black => exact mendRedLoop_rotate_mirror h' hx hc passes
      | red =>
        rw [mendRedLoop_under h' hne, mendRedLoop_under_mirror h' hne, if_pos hc, if_pos hc]
        simpa using ih h'.recolor_uncle (balanced_recolor_uncle hx ho hgo hc) hu'

theorem mendRed_mirror {x : Shape K V} {n : Nat} (h : t.Focus up x) (hx : x.Balanced .red n)
    (hup : up.Takes .black n) : t.mirror.mendRed x.link = mirror <$> t.mendRed x.link := by
  unfold mendRed
  rw [patience_mirror, mendRedLoop_mirror h hx hup]
  apply map_bind_map
  intro t' _
  simp

/-! ## The repair after a removal -/

section Deficit

variable {f : Crumb K V} {x m w : Shape K V} {e : K × V} {n : Nat}

theorem blackenSibling_mirror (h : t.Focus (.under f up) x) (hx : x.link ≠ none) :
    t.mirror.blackenSibling f.side.other x.link =
      Prod.map mirror id <$> t.blackenSibling f.side x.link := by
  have h₁ := focus_under.mp h
  have hpar : t.parentOf x.link = some f.id := h.parentOf hx
  have hsib : t.childOf f.side.other (some f.id) = f.other.link := h₁.childOf_other
  have hcol : t.colorOf f.other.link = f.other.color := h₁.far.colorOf
  simp only [blackenSibling, parentOf_mirror, childOf_mirror, colorOf_mirror, recolor_mirror,
    Side.other_other, hpar, hsib, hcol]
  cases f.other.color with
  | black => rfl
  | red =>
    have h₂ := (h₁.recolor_far .black).recolor_branch .red
    simp only [if_true, rotate_mirror h₂]
    apply map_bind_map
    intro t₁ _
    simp

theorem reddenFar_mirror (h : t.Focus (.under ⟨s, c, p, ep, .branch s .black m i e w⟩ up) x) :
    t.mirror.reddenFar s.other x.link (some i) =
      Prod.map mirror id <$> t.reddenFar s x.link (some i) := by
  have h₁ : t.Focus (.under ⟨s.other, c, p, ep, x⟩ up) (.branch s .black m i e w) :=
    (focus_under.mp h).far
  have hfar : t.childOf s.other (some i) = w.link := h₁.childOf_other
  have hnear : t.childOf s (some i) = m.link := h₁.childOf
  have hcol : t.colorOf w.link = w.color := h₁.far.colorOf
  simp only [reddenFar, childOf_mirror, colorOf_mirror, recolor_mirror, Side.other_other, hfar,
    hnear, hcol]
  cases w.color with
  | red => rfl
  | black =>
    have h₂ := (h₁.recolor_near .black).recolor_branch .red
    rw [← Shape.branch_other s .red] at h₂
    have hrotate := rotate_mirror h₂
    rw [Side.other_other] at hrotate
    simp only [if_true, hrotate]
    apply map_bind_map
    intro t₁ _
    simp

theorem absorb_mirror (h : t.Focus (.under ⟨s, c, p, ep, .branch s .black m i e w⟩ up) x)
    (hx : x.link ≠ none) :
    t.mirror.absorb s.other x.link (some i) = mirror <$> t.absorb s x.link (some i) := by
  have h₁ : t.Focus up (.branch s c x p ep (.branch s .black m i e w)) := focus_under.mp h
  have hpar : t.parentOf x.link = some p := h.parentOf hx
  have hcol : t.colorOf (some p) = c := by simpa using h₁.colorOf
  have h₂ := (h₁.recolor_far c).recolor_branch .black
  rw [Shape.link_branch, Shape.paint_branch] at h₂
  have hfar := h₂.far.childOf_other
  have h₃ := focus_under.mp (h₂.far.recolor_far .black)
  rw [Crumb.fill, Shape.branch_other] at h₃
  simpa [absorb, hpar, hcol, hfar] using rotate_mirror h₃

theorem mendBlackLoop_stop_mirror {y : Link} (h : y = t.root ∨ t.colorOf y = .red) (passes : Nat) :
    t.mirror.mendBlackLoop passes y = Prod.map mirror id <$> t.mendBlackLoop passes y := by
  cases passes with
  | zero => rfl
  | succ passes =>
    have h' : y = t.mirror.root ∨ t.mirror.colorOf y = .red := by simpa using h
    rw [mendBlackLoop_stop h, mendBlackLoop_stop h', map_ok]
    rfl

/-- The repair after a removal takes every turn to the other side. -/
theorem mendBlackLoop_mirror (h : t.Focus up x) (hx : x.link ≠ none) (hc : x.color = .black)
    (ht : up.Takes .black (n + 1)) (passes : Nat) :
    t.mirror.mendBlackLoop passes x.link =
      Prod.map mirror id <$> t.mendBlackLoop passes x.link := by
  induction passes generalizing t up x n with
  | zero => rfl
  | succ passes ih =>
    cases up with
    | top => exact mendBlackLoop_stop_mirror (.inl h.root.symm) _
    | under f up =>
      have hcol : t.colorOf x.link = .black := by rw [h.colorOf, hc]
      have hpar : t.parentOf x.link = some f.id := h.parentOf hx
      have hside := h.side_eq hx
      have hside' := h.side_mirror hx
      have hblacken := blackenSibling_mirror h hx
      obtain ⟨t₁, s, c, p, ep, m, i, e, w, up₁, cm, cw, hs, hrun₁, -, h₁, hm, hw, ht₁, -, hup₁⟩ :=
        blackSibling_ok h hx ht
      rw [hs] at hside hside' hblacken
      rw [hrun₁, map_ok] at hblacken
      have hstart : ¬ (x.link = t.root ∨ t.colorOf x.link = .red) := by simp [h.ne_root, hcol]
      have hstart' : ¬ (x.link = t.mirror.root ∨ t.mirror.colorOf x.link = .red) := by
        simpa using hstart
      rw [mendBlackLoop, mendBlackLoop, if_neg hstart, if_neg hstart', parentOf_mirror, hpar, hside,
        hside']
      have hsib := (focus_under.mp h₁).far
      have hnear : t₁.childOf s (some i) = m.link := hsib.childOf
      have hfar : t₁.childOf s.other (some i) = w.link := hsib.childOf_other
      simp only [hblacken, hrun₁, Prod.map, id, ok_bind, childOf_mirror, colorOf_mirror,
        recolor_mirror, parentOf_mirror, Side.other_other, hnear, hfar]
      by_cases hred : t₁.colorOf m.link = .black ∧ t₁.colorOf w.link = .black
      · -- The sibling turns red, and the deficit moves on to the parent.
        rw [if_pos hred, if_pos hred]
        obtain ⟨h₂, hpar₂⟩ := h₁.redden_sibling hx
        rw [hpar₂]
        cases c with
        | red =>
          have hstop : (t₁.recolor (some i) .red).colorOf (some p) = .red := by
            simpa using h₂.colorOf
          exact mendBlackLoop_stop_mirror (.inr hstop) passes
        | black =>
          cases hup₁ rfl
          cases ht₁ with
          | red hf _ _ => cases hf
          | black _ _ hu => simpa using ih h₂ (by simp) (by simp) hu
      · -- A red child of the sibling ends the repair.
        rw [if_neg hred, if_neg hred]
        have hred' : ¬ (m.color = .black ∧ w.color = .black) := by
          rwa [hsib.near.colorOf, hsib.far.colorOf] at hred
        obtain ⟨t₂, i', e', m', w', hrun₂, -, h₂, -⟩ := reddenFar_ok h₁ hx hm hw hred'
        have hredden := reddenFar_mirror h₁
        rw [hrun₂, map_ok] at hredden
        simp only [hredden, hrun₂, Prod.map, id, ok_bind, absorb_mirror h₂ hx]
        apply map_bind_map
        intro t₃ _
        exact mendBlackLoop_stop_mirror (.inl rfl) passes

theorem mendBlack_mirror (h : t.Focus up x) (hx : x.link ≠ none) (hc : x.color = .black)
    (ht : up.Takes .black (n + 1)) :
    t.mirror.mendBlack x.link = mirror <$> t.mendBlack x.link := by
  unfold mendBlack
  rw [patience_mirror, mendBlackLoop_mirror h hx hc ht]
  apply map_bind_map
  intro done _
  simp

theorem mendBlack_red_mirror {y : Link} (h : t.colorOf y = .red) :
    t.mirror.mendBlack y = mirror <$> t.mendBlack y := by
  unfold mendBlack
  rw [patience_mirror, mendBlackLoop_stop_mirror (.inr h)]
  apply map_bind_map
  intro done _
  simp

end Deficit

end SlotTree.Tree
