import SlotTree.Proofs.Rotation
import SlotTree.Proofs.RedBlack

/-
  The repair after a removal — making up for one black node that is missing
  on the ways through `x`.

  The subtree at `x` is a black box: whatever hangs there, be it a spliced
  subtree or a leaf that only stands in for a missing one, the repair works
  on the trail above it. The trail takes a black subtree with one black node
  more than `x` has; the loop turns it into one that takes `x` as it is
  (`mendBlackLoop_ok`). One pass makes the sibling black
  (`blackenSibling_ok`), then either moves the deficit to the parent
  (`Mends.of_black_children`) or, in two rotations at most, ends it
  (`Mends.of_red_child`).
-/
namespace SlotTree

variable {K V : Type}

/-- Two trails with the same items on either side of the hole. -/
def Trail.Beside (up up' : Trail K V) : Prop := ∀ s, up'.beyond s = up.beyond s

namespace Trail

theorem Beside.refl (up : Trail K V) : up.Beside up := fun _ => rfl

theorem Beside.trans {up up' up'' : Trail K V} (h : up.Beside up') (h' : up'.Beside up'') :
    up.Beside up'' := fun s => (h' s).trans (h s)

theorem Beside.under {up up' : Trail K V} (h : up.Beside up') (f : Crumb K V) :
    (Trail.under f up).Beside (.under f up') := by
  intro s
  cases s <;> simp [beyond, h _]

/-- The node above the hole and its other subtree may change as long as their
items do not. -/
theorem beside_crumb {f g : Crumb K V} (hs : g.side = f.side) (hi : g.id = f.id)
    (he : g.entry = f.entry) (ho : g.other.items = f.other.items) (up : Trail K V) :
    (Trail.under f up).Beside (.under g up) := by
  intro s
  cases s <;> simp [beyond, hs, hi, he, ho]

/-- The rotation towards the hole: the node beside the hole rises above the
parent of the hole. -/
theorem beside_rise {s : Side} {c c' d d' : Color} {p i : Nat} {ep e : K × V}
    {m w o : Shape K V} (ho : o.items = (Shape.branch s c m i e w).items)
    {w' : Shape K V} (hw : w'.items = w.items) (up : Trail K V) :
    (Trail.under ⟨s, c', p, ep, o⟩ up).Beside
      (.under ⟨s, d, p, ep, m⟩ (.under ⟨s, d', i, e, w'⟩ up)) := by
  intro s'
  cases s <;> cases s' <;> simp [beyond, ho, hw, Shape.branch, Shape.items]

theorem Beside.exists_under {f : Crumb K V} {up up' : Trail K V}
    (h : (Trail.under f up).Beside up') : ∃ g up'', up' = .under g up'' := by
  cases up' with
  | top =>
    exfalso
    have hempty := h f.side.other
    cases hs : f.side <;> simp [beyond, hs, Side.other] at hempty
  | under g up'' => exact ⟨g, up'', rfl⟩

/-- Another node above the hole, if its colour is the same and its other
subtree passes as many black nodes. -/
theorem Takes.exchange {f g : Crumb K V} {up : Trail K V} {n : Nat}
    (h : (under f up).Takes .black n) (hc : g.color = f.color) (ho : g.other.Balanced .black n) :
    (under g up).Takes .black n := by
  cases h with
  | red hf _ hu => exact .red (hc.trans hf) ho hu
  | black hf _ hu => exact .black (hc.trans hf) ho hu

theorem Takes.of_red {up : Trail K V} {n : Nat} (h : up.Takes .red n) (c : Color) :
    up.Takes c n := by
  obtain ⟨f, up', c', rfl, hf, ho, hu⟩ := h.exists_under
  exact .black hf ho hu

end Trail

namespace Tree

variable {t : Tree K V} {up : Trail K V} {f : Crumb K V} {x : Shape K V} {n : Nat}

/-! ## One pass of the repair -/

theorem blackenSibling_ok (h : t.Focus (.under f up) x) (hx : x.link ≠ none)
    (ht : (Trail.under f up).Takes .black (n + 1)) :
    ∃ t' g up', t.blackenSibling f.side x.link = .ok (t', g.other.link) ∧ t.Rewired t' ∧
      t'.Focus (.under g up') x ∧ g.side = f.side ∧ g.other.Balanced .black (n + 1) ∧
      (Trail.under g up').Takes .black (n + 1) ∧ (Trail.under f up).Beside (.under g up') ∧
      (g.color = .black → up' = up) := by
  have h₁ := focus_under.mp h
  have hpar : t.parentOf x.link = some f.id := h.parentOf hx
  have hsib : t.childOf f.side.other (some f.id) = f.other.link := h₁.childOf_other
  have hcol : t.colorOf f.other.link = f.other.color := h₁.far.colorOf
  cases hc : f.other.color with
  | black =>
    -- A black sibling stays; the trail says how many black nodes its subtree has.
    have hb : f.other.Balanced .black (n + 1) := by
      cases ht with
      | red _ ho _ => exact ho
      | black _ ho _ => rwa [← ho.color_eq, hc] at ho
    refine ⟨t, f, up, ?_, .refl t, h, rfl, hb, ht, .refl _, fun _ => rfl⟩
    simp [blackenSibling, hpar, hsib, hcol, hc]
  | red =>
    obtain ⟨s, c, p, ep, o⟩ := f
    cases ht with
    | red _ ho _ => rw [ho.color_eq] at hc; cases hc
    | black hf ho hu =>
      simp only at hf hc ho hsib hcol hpar h₁
      subst hf
      obtain ⟨i, hi⟩ := ho.exists_link
      obtain ⟨m, e, w, ho'⟩ := Shape.eq_branch hi s
      rw [hc] at ho'
      subst ho'
      obtain ⟨-, hm, hw⟩ := Shape.balanced_red.mp ho
      -- Sibling and parent exchange their colours before the one rises above the other.
      have h₂ := (h₁.recolor_far .black).recolor_branch .red
      rw [Shape.paint_branch] at h₂
      obtain ⟨t', hrun, hrw, h₃⟩ := rotate_ok h₂
      have h₄ := h₃.near.near
      refine ⟨t', ⟨s, .red, p, ep, m⟩, .under ⟨s, .black, i, e, w⟩ up, ?_, ?_, h₄, rfl, hm,
        .red rfl hm (.black rfl hw hu), Trail.beside_rise rfl rfl up, nofun⟩
      · have hpar' : t'.parentOf x.link = some p := h₄.parentOf hx
        simp only [Shape.link_branch] at hsib hcol hrun
        simp [blackenSibling, hpar, hsib, hcol, hrun, hpar', h₃.near.childOf_other]
      · exact ((Rewired.recolor ..).trans (Rewired.recolor ..)).trans hrw

/-- The black sibling, taken apart: it is there, and its subtrees pass as many
black nodes as `x`. -/
theorem blackSibling_ok (h : t.Focus (.under f up) x) (hx : x.link ≠ none)
    (ht : (Trail.under f up).Takes .black (n + 1)) :
    ∃ (t' : Tree K V) (s : Side) (c : Color) (p : Nat) (ep : K × V) (m : Shape K V) (i : Nat)
      (e : K × V) (w : Shape K V) (up' : Trail K V) (cm cw : Color), f.side = s ∧
      t.blackenSibling s x.link = .ok (t', some i) ∧ t.Rewired t' ∧
      t'.Focus (.under ⟨s, c, p, ep, .branch s .black m i e w⟩ up') x ∧
      m.Balanced cm n ∧ w.Balanced cw n ∧
      (Trail.under ⟨s, c, p, ep, .branch s .black m i e w⟩ up').Takes .black (n + 1) ∧
      (Trail.under f up).Beside (.under ⟨s, c, p, ep, .branch s .black m i e w⟩ up') ∧
      (c = .black → up' = up) := by
  obtain ⟨t', g, up', hrun, hw, h', hs, hob, ht', hb, hup⟩ := blackenSibling_ok h hx ht
  rw [← hs] at hrun
  obtain ⟨s, c, p, ep, o⟩ := g
  obtain ⟨i, hi⟩ := hob.exists_link
  obtain ⟨m, e, w, ho⟩ := Shape.eq_branch hi s
  simp only at hrun hs hob hup ho
  rw [hob.color_eq] at ho
  subst ho
  obtain ⟨-, k, cm, cw, hk, hm, hw'⟩ := Shape.balanced_black.mp hob
  obtain rfl : k = n := by omega
  rw [Shape.link_branch] at hrun
  exact ⟨t', s, c, p, ep, m, i, e, w, up', cm, cw, hs.symm, hrun, hw, h', hm, hw', ht', hb, hup⟩

variable {s : Side} {c : Color} {p i : Nat} {ep e : K × V} {m w : Shape K V}

theorem reddenFar_ok (h : t.Focus (.under ⟨s, c, p, ep, .branch s .black m i e w⟩ up) x)
    (hx : x.link ≠ none) {cm cw : Color} (hm : m.Balanced cm n) (hw : w.Balanced cw n)
    (hred : ¬ (m.color = .black ∧ w.color = .black)) :
    ∃ t' i' e' m' w', t.reddenFar s x.link (some i) = .ok (t', some i') ∧ t.Rewired t' ∧
      t'.Focus (.under ⟨s, c, p, ep, .branch s .black m' i' e' w'⟩ up) x ∧
      w'.Balanced .red n ∧ (∃ cm', m'.Balanced cm' n) ∧
      (Shape.branch s .black m' i' e' w').items = (Shape.branch s .black m i e w).items := by
  have h₁ : t.Focus (.under ⟨s.other, c, p, ep, x⟩ up) (.branch s .black m i e w) :=
    (focus_under.mp h).far
  have hfar : t.childOf s.other (some i) = w.link := h₁.childOf_other
  have hcol : t.colorOf w.link = w.color := h₁.far.colorOf
  cases hcw : w.color with
  | red =>
    refine ⟨t, i, e, m, w, ?_, .refl t, h, ?_, ⟨_, hm⟩, rfl⟩
    · simp [reddenFar, hfar, hcol, hcw]
    · rwa [← hw.color_eq, hcw] at hw
  | black =>
    have hcm : m.color = .red := by
      cases hmc : m.color with
      | red => rfl
      | black => exact absurd ⟨hmc, hcw⟩ hred
    have hm' : m.Balanced .red n := by rwa [← hm.color_eq, hcm] at hm
    obtain ⟨j, hj⟩ : ∃ j, m.link = some j := by cases hm'; exact ⟨_, rfl⟩
    obtain ⟨mn, ej, mf, hme⟩ := Shape.eq_branch hj s
    rw [hcm] at hme
    subst hme
    obtain ⟨-, hmn, hmf⟩ := Shape.balanced_red.mp hm'
    have hnear : t.childOf s (some i) = some j := by simpa using h₁.childOf
    -- The near child is the red one and rises above the sibling, with colours exchanged.
    have h₂ := (h₁.recolor_near .black).recolor_branch .red
    rw [Shape.link_branch, Shape.paint_branch, ← Shape.branch_other s .red,
      ← Shape.branch_other s .black] at h₂
    obtain ⟨t', hrun, hrw, h₃⟩ := rotate_ok h₂
    rw [Shape.branch_other, Shape.branch_other] at h₃
    have h₄ := focus_under.mp h₃
    rw [Crumb.fill, Shape.branch_other] at h₄
    have hpar : t'.parentOf x.link = some p := h₄.near.parentOf hx
    have hwb : w.Balanced .black n := by rwa [← hw.color_eq, hcw] at hw
    refine ⟨t', j, ej, mn, .branch s .red mf i e w, ?_, ?_, h₄.near, .redden hmf hwb, ⟨_, hmn⟩, ?_⟩
    · simp [reddenFar, hfar, hcol, hcw, hnear, hrun, hpar, h₄.childOf_other]
    · exact ((Rewired.recolor ..).trans (Rewired.recolor ..)).trans hrw
    · cases s <;> simp [Shape.branch, Shape.items]

/-- The sibling takes the place and the colour of the parent; the far child
makes up for the black node that moves to the side of `x`. -/
theorem absorb_ok (h : t.Focus (.under ⟨s, c, p, ep, .branch s .black m i e w⟩ up) x)
    (hx : x.link ≠ none) :
    ∃ t', t.absorb s x.link (some i) = .ok t' ∧ t.Rewired t' ∧
      t'.Focus (.under ⟨s, .black, p, ep, m⟩ (.under ⟨s, c, i, e, w.paint .black⟩ up)) x := by
  have h₁ : t.Focus up (.branch s c x p ep (.branch s .black m i e w)) := focus_under.mp h
  have hpar : t.parentOf x.link = some p := h.parentOf hx
  have hcol : t.colorOf (some p) = c := by simpa using h₁.colorOf
  -- The sibling takes the colour of the parent; the parent and the far child turn black.
  have h₂ := (h₁.recolor_far c).recolor_branch .black
  rw [Shape.link_branch, Shape.paint_branch] at h₂
  have hfar := h₂.far.childOf_other
  have h₃ := focus_under.mp (h₂.far.recolor_far .black)
  rw [Crumb.fill, Shape.branch_other] at h₃
  obtain ⟨t', hrun, hrw, h₄⟩ := rotate_ok h₃
  refine ⟨t', ?_, ?_, h₄.near.near⟩
  · simp [absorb, hpar, hcol, hfar, hrun]
  · exact ((Rewired.recolor ..).trans ((Rewired.recolor ..).trans (Rewired.recolor ..))).trans hrw

/-- The sibling turns red; the parent's whole subtree is then short of a black node. -/
theorem Focus.redden_sibling
    (h : t.Focus (.under ⟨s, c, p, ep, .branch s .black m i e w⟩ up) x) (hx : x.link ≠ none) :
    (t.recolor (some i) .red).Focus up (.branch s c x p ep (.branch s .red m i e w)) ∧
      (t.recolor (some i) .red).parentOf x.link = some p := by
  have h₂ := (focus_under.mp h).recolor_far .red
  rw [Shape.link_branch, Shape.paint_branch] at h₂
  exact ⟨h₂, h₂.near.parentOf hx⟩

/-! ## The whole repair -/

theorem mendBlackLoop_stop {y : Link} (h : y = t.root ∨ t.colorOf y = .red) (passes : Nat) :
    t.mendBlackLoop (passes + 1) y = .ok (t, y) := by
  simp only [mendBlackLoop, if_pos h]

theorem mendBlackLoop_root {c : Color} (h : t.Focus (.under f up) x)
    (ht : (Trail.under f up).Takes c n) (passes : Nat) :
    t.mendBlackLoop (passes + 1) t.root = .ok (t, t.root) ∧
      (t.recolor t.root .black).Focus (.under f up) x := by
  refine ⟨mendBlackLoop_stop (.inl rfl) _, ?_⟩
  have hh := holds_fill.mpr h
  have hf := focus_top.mpr hh
  have hr : (t.recolor t.root .black).Focus .top (((Trail.under f up).fill x).paint .black) :=
    hh.root ▸ hf.recolor .black
  -- The root is black already, so painting it is idle.
  have hp : ((Trail.under f up).fill x).paint .black = (Trail.under f up).fill x := by
    have := Shape.paint_self ((Trail.under f up).fill x)
    rwa [ht.color_fill x] at this
  rw [hp] at hr
  exact holds_fill.mp (focus_top.mp hr)

/-- A run of the loop for a deficit at `x`: with the node it stops at painted
black, the trail takes `x` as it is, and nothing has moved past `x`. -/
def Mends (t : Tree K V) (up : Trail K V) (x : Shape K V) (n : Nat)
    (run : Except Fault (Tree K V × Link)) : Prop :=
  ∃ t' y up', run = .ok (t', y) ∧ t.Rewired t' ∧ (t'.recolor y .black).Focus up' x ∧
    up'.Takes .black n ∧ up.Beside up'

namespace Mends

variable {run : Except Fault (Tree K V × Link)} {t₁ : Tree K V} {up₁ : Trail K V} {o : Shape K V}
  {co : Color}

theorem after (h : t₁.Mends up₁ x n run) (hw : t.Rewired t₁) (hb : up.Beside up₁) :
    t.Mends up x n run := by
  obtain ⟨t', y, up', hrun, hw', h', ht, hb'⟩ := h
  exact ⟨t', y, up', hrun, hw.trans hw', h', ht, hb.trans hb'⟩

theorem of_parent (h : t.Mends up (.branch s .black x p ep o) (n + 1) run)
    (ho : o.Balanced co n) : t.Mends (.under ⟨s, .black, p, ep, o⟩ up) x n run := by
  obtain ⟨t', y, up', hrun, hw, h', ht, hb⟩ := h
  exact ⟨t', y, _, hrun, hw, h'.near, .black rfl ho ht, hb.under _⟩

theorem of_red_parent (h : t.Focus up (.branch s .red x p ep o)) (ho : o.Balanced co n)
    (ht : up.Takes .red (n + 1)) (passes : Nat) :
    t.Mends (.under ⟨s, .red, p, ep, o⟩ up) x n (t.mendBlackLoop (passes + 1) (some p)) := by
  have hred : t.colorOf (some p) = .red := by simpa using h.colorOf
  have hp : (t.recolor (some p) .black).Focus up (.branch s .black x p ep o) := by
    simpa using h.recolor_branch .black
  exact ⟨t, some p, _, mendBlackLoop_stop (.inr hred) _, .refl t, hp.near,
    .black rfl ho (ht.of_red _), Trail.beside_crumb rfl rfl rfl rfl up⟩

/-- Two black children of the sibling: it turns red, and the deficit is at the
parent. A red parent takes it, and from a black one the loop goes on. -/
theorem of_black_children (h : t.Focus (.under ⟨s, c, p, ep, .branch s .black m i e w⟩ up) x)
    (hx : x.link ≠ none) (hm : m.Balanced .black n) (hw : w.Balanced .black n)
    (ht : (Trail.under ⟨s, c, p, ep, .branch s .black m i e w⟩ up).Takes .black (n + 1))
    {passes : Nat}
    (hrest : c = .black → up.Takes .black (n + 2) →
      (t.recolor (some i) .red).Mends up (.branch s .black x p ep (.branch s .red m i e w)) (n + 1)
        ((t.recolor (some i) .red).mendBlackLoop (passes + 1) (some p))) :
    t.Mends (.under ⟨s, c, p, ep, .branch s .black m i e w⟩ up) x n
      ((t.recolor (some i) .red).mendBlackLoop (passes + 1) (some p)) := by
  obtain ⟨h₂, -⟩ := h.redden_sibling hx
  have ho : (Shape.branch s .red m i e w).Balanced .red n := .redden hm hw
  have hitems : (Shape.branch s .red m i e w).items = (Shape.branch s .black m i e w).items := by
    cases s <;> rfl
  have hbeside : (Trail.under ⟨s, c, p, ep, .branch s .black m i e w⟩ up).Beside
      (.under ⟨s, c, p, ep, .branch s .red m i e w⟩ up) := by
    refine Trail.beside_crumb ?_ ?_ ?_ hitems up <;> rfl
  refine Mends.after ?_ (.recolor t (some i) .red) hbeside
  cases ht with
  | red hc _ hu =>
    obtain rfl : c = .red := hc
    exact of_red_parent h₂ ho hu passes
  | black hc _ hu =>
    obtain rfl : c = .black := hc
    exact (hrest rfl hu).of_parent ho

/-- A red child of the sibling makes up for the missing node, and the loop is
sent to the root. -/
theorem of_red_child (h : t.Focus (.under ⟨s, c, p, ep, .branch s .black m i e w⟩ up) x)
    (hx : x.link ≠ none) {cm cw : Color} (hm : m.Balanced cm n) (hw : w.Balanced cw n)
    (hred : ¬ (m.color = .black ∧ w.color = .black))
    (ht : (Trail.under ⟨s, c, p, ep, .branch s .black m i e w⟩ up).Takes .black (n + 1))
    (passes : Nat) :
    t.Mends (.under ⟨s, c, p, ep, .branch s .black m i e w⟩ up) x n (do
      let (t, sibling) ← t.reddenFar s x.link (some i)
      let t ← t.absorb s x.link sibling
      t.mendBlackLoop (passes + 1) t.root) := by
  obtain ⟨t₁, i', e', m', w', hrun₁, hw₁, h₁, hw', ⟨cm', hm'⟩, hitems⟩ :=
    reddenFar_ok h hx hm hw hred
  obtain ⟨t₂, hrun₂, hw₂, h₂⟩ := absorb_ok h₁ hx
  have ht₂ : (Trail.under ⟨s, .black, p, ep, m'⟩
      (.under ⟨s, c, i', e', w'.paint .black⟩ up)).Takes .black n :=
    .black rfl hm' (ht.exchange rfl hw'.paint_red)
  obtain ⟨hrun₃, h₃⟩ := mendBlackLoop_root h₂ ht₂ passes
  refine ⟨t₂, t₂.root, _, ?_, hw₁.trans hw₂, h₃, ht₂,
    Trail.beside_rise hitems.symm (Shape.items_paint ..) up⟩
  simp only [hrun₁, hrun₂, hrun₃, ok_bind]

end Mends

theorem mendBlackLoop_ok (h : t.Focus up x) (hx : x.link ≠ none) (hc : x.color = .black)
    (ht : up.Takes .black (n + 1)) {passes : Nat} (hp : up.length < passes) :
    t.Mends up x n (t.mendBlackLoop passes x.link) := by
  induction passes generalizing t up x n with
  | zero => exact absurd hp (Nat.not_lt_zero _)
  | succ passes ih =>
    cases up with
    | top =>
      have hr := h.recolor .black
      rw [← hc, Shape.paint_self] at hr
      exact ⟨t, x.link, .top, mendBlackLoop_stop (.inl h.root.symm) _, .refl t, hc ▸ hr, .top,
        .refl _⟩
    | under f up =>
      simp only [Trail.length] at hp
      -- Another pass is left for the place where the loop stops.
      obtain ⟨q, rfl⟩ : ∃ q, passes = q + 1 := ⟨passes - 1, by omega⟩
      have hcol : t.colorOf x.link = .black := by rw [h.colorOf, hc]
      have hpar : t.parentOf x.link = some f.id := h.parentOf hx
      have hside := h.side_eq hx
      obtain ⟨t₁, s, c, p, ep, m, i, e, w, up₁, cm, cw, hs, hrun₁, hw₁, h₁, hm, hw, ht₁, hb₁,
        hup₁⟩ := blackSibling_ok h hx ht
      rw [hs] at hside
      have hsib := (focus_under.mp h₁).far
      rw [mendBlackLoop, if_neg (by simp [h.ne_root, hcol]), hpar, hside]
      simp only [hrun₁, ok_bind, hsib.childOf, hsib.childOf_other, hsib.near.colorOf,
        hsib.far.colorOf]
      refine Mends.after ?_ hw₁ hb₁
      by_cases hred : m.color = .black ∧ w.color = .black
      · obtain ⟨rfl, rfl⟩ : cm = .black ∧ cw = .black := by rwa [← hm.color_eq, ← hw.color_eq]
        obtain ⟨h₂, hpar₂⟩ := h₁.redden_sibling hx
        rw [if_pos hred, hpar₂]
        refine Mends.of_black_children h₁ hx hm hw ht₁ fun hblack hu => ?_
        -- A black parent has not been rotated, so the trail is now shorter by one.
        subst hblack
        cases hup₁ rfl
        simpa using ih h₂ (by simp) (by simp) hu (by omega)
      · rw [if_neg hred]
        exact Mends.of_red_child h₁ hx hm hw hred ht₁ q

/-- A tree that is one black node short below a black node is red-black after
the repair: the trail takes the subtree as it is, and nothing has moved past
it. -/
theorem mendBlack_ok (h : t.Focus up x) (hx : x.link ≠ none) (hc : x.color = .black)
    (ht : up.Takes .black (n + 1)) (hp : up.length < t.patience) :
    ∃ t' up', t.mendBlack x.link = .ok t' ∧ t.Rewired t' ∧ t'.Focus up' x ∧
      up'.Takes .black n ∧ up.Beside up' := by
  obtain ⟨t', y, up', hrun, hw, h', ht', hb⟩ := mendBlackLoop_ok h hx hc ht hp
  refine ⟨_, up', ?_, hw.trans (.recolor ..), h', ht', hb⟩
  simp [mendBlack, hrun]

theorem mendBlack_red (h : t.Focus up x) (hc : x.color = .red) (hp : 0 < t.patience) :
    t.mendBlack x.link = .ok (t.recolor x.link .black) := by
  obtain ⟨q, hq⟩ : ∃ q, t.patience = q + 1 := ⟨t.patience - 1, by omega⟩
  have hcol : t.colorOf x.link = .red := by rw [h.colorOf, hc]
  simp [mendBlack, hq, mendBlackLoop_stop (.inr hcol)]

end Tree

end SlotTree
