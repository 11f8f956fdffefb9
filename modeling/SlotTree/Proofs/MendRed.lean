import SlotTree.Proofs.Rotation
import SlotTree.Proofs.RedBlack

/-
  The repair after an insertion — from one red node below a red parent to a
  red-black tree.

  The invariant of the loop: the node `x` is red, its children are black and
  balanced, and the trail above takes a black subtree of the same black
  height. Under a red uncle the invariant holds again two levels up, with the
  grandparent in the part of `x` (`Focus.recolor_uncle`). Under a black one
  at most two rotations end the repair (`mendRedLoop_rotate`). `mendRed_ok` is
  the outcome: the same items in the same order in a red-black shape.
-/
namespace SlotTree.Tree

variable {K V : Type} {t : Tree K V} {up : Trail K V} {s s' : Side}

theorem mendRedLoop_stop {x : Link} (h : x = t.root ∨ t.colorOf (t.parentOf x) = .black)
    (passes : Nat) : t.mendRedLoop (passes + 1) x = .ok t := by
  simp only [mendRedLoop, if_pos h]

/-- The loop below a red parent, with all that it reads first. -/
theorem mendRedLoop_under {x fo go : Shape K V} {f g : Nat} {c : Color} {ef eg : K × V}
    (h : t.Focus up (.branch s c (.branch s' .red x f ef fo) g eg go)) (hx : x.link ≠ none)
    (passes : Nat) :
    t.mendRedLoop (passes + 1) x.link =
      if go.color = .red then
        (((t.recolor (some f) .black).recolor go.link .black).recolor (some g) .red).mendRedLoop
          passes (some g)
      else (do
        let inner : Bool := x.link = t.childOf s.other (some f)
        let y := if inner then some f else x.link
        let t ← if inner then t.rotate s y else pure t
        let parent := t.parentOf y
        let grand := t.parentOf parent
        let t ← ((t.recolor parent .black).recolor grand .red).rotate s.other grand
        t.mendRedLoop passes y) := by
  have hpar : t.parentOf x.link = some f := h.near.near.parentOf hx
  have hgrand : t.parentOf (some f) = some g := by simpa using h.near.parentOf (by simp)
  have hroot : ¬ x.link = t.root := h.near.near.ne_root
  have hred : t.colorOf (some f) = .red := by simpa using h.near.colorOf
  have hside : (if some f = t.childOf .left (some g) then Side.left else .right) = s := by
    simpa using h.near.side_eq (by simp)
  have huncle : t.colorOf go.link = go.color := h.far.colorOf
  simp [mendRedLoop, hpar, hgrand, hroot, hred, hside, huncle, h.childOf_other]

theorem Focus.recolor_uncle {x fo go : Shape K V} {f g : Nat} {c c' : Color} {ef eg : K × V}
    (h : t.Focus up (.branch s c (.branch s' c' x f ef fo) g eg go)) :
    (((t.recolor (some f) .black).recolor go.link .black).recolor (some g) .red).Focus up
      (.branch s .red (.branch s' .black x f ef fo) g eg (go.paint .black)) := by
  have h₁ := h.recolor_near .black
  rw [Shape.link_branch, Shape.paint_branch] at h₁
  exact (h₁.recolor_far .black).recolor_branch .red

theorem balanced_recolor_uncle {x fo go : Shape K V} {f g n : Nat} {c : Color} {ef eg : K × V}
    (hx : x.Balanced .red n) (hfo : fo.Balanced .black n) (hgo : go.Balanced c n)
    (hred : go.color = .red) :
    (Shape.branch s .red (.branch s' .black x f ef fo) g eg (go.paint .black)).Balanced .red
      (n + 1) := by
  rw [← hgo.color_eq, hred] at hgo
  exact .redden (Shape.balanced_black.mpr ⟨rfl, n, _, _, rfl, hx, hfo⟩) hgo.paint_red

/-- The last rotation: `f` rises above its parent `g` and both change colour, so
`x` is below a black node. -/
theorem outer_ok {x fo go : Shape K V} {f g : Nat} {ef eg : K × V}
    (h : t.Focus up (.branch s .black (.branch s .red x f ef fo) g eg go)) (hx : x.link ≠ none) :
    ∃ t', ((t.recolor (some f) .black).recolor (some g) .red).rotate s.other (some g) = .ok t' ∧
      t.Rewired t' ∧ t'.Focus up (.branch s .black x f ef (.branch s .red fo g eg go)) ∧
      t'.colorOf (t'.parentOf x.link) = .black := by
  have h₁ := h.recolor_near .black
  rw [Shape.link_branch, Shape.paint_branch] at h₁
  have h₂ := h₁.recolor_branch .red
  rw [← Shape.branch_other s .red, ← Shape.branch_other s .black] at h₂
  obtain ⟨t', hrun, hw, h₃⟩ := rotate_ok h₂
  rw [Shape.branch_other, Shape.branch_other] at h₃
  refine ⟨t', hrun, ((Rewired.recolor ..).trans (Rewired.recolor ..)).trans hw, h₃, ?_⟩
  rw [h₃.near.parentOf hx]
  simpa using h₃.colorOf

theorem straighten_ok {x fo go : Shape K V} {f g n : Nat} {ef eg : K × V}
    (h : t.Focus up (.branch s .black (.branch s' .red x f ef fo) g eg go))
    (hx : x.Balanced .red n) (hfo : fo.Balanced .black n) {inner : Bool}
    (hinner : inner = decide (x.link = t.childOf s.other (some f))) :
    ∃ t' x' f' ef' fo', (if inner = true then some f else x.link) = x'.link ∧
      (if inner = true then t.rotate s x'.link else pure t) = .ok t' ∧ t.Rewired t' ∧
      t'.Focus up (.branch s .black (.branch s .red x' f' ef' fo') g eg go) ∧
      x'.Balanced .red n ∧ fo'.Balanced .black n ∧
      (Shape.branch s .red x' f' ef' fo').items = (Shape.branch s' .red x f ef fo).items := by
  subst hinner
  obtain ⟨i, hi⟩ : ∃ i, x.link = some i := by cases hx; exact ⟨_, rfl⟩
  by_cases hs : s' = s
  · -- The outer grandchild stays where it is.
    subst hs
    have houter : ¬ x.link = t.childOf s'.other (some f) := by
      intro he
      rw [h.near.childOf_other] at he
      exact h.near.near.other_ne hi (he ▸ hi)
    refine ⟨t, x, f, ef, fo, ?_, ?_, .refl t, h, hx, hfo, rfl⟩ <;> simp [houter]
  · obtain rfl := Side.eq_other_of_ne hs
    obtain ⟨xa, e, xb, hxe⟩ := Shape.eq_branch hi s
    rw [hx.color_eq] at hxe
    subst hxe
    obtain ⟨-, hxa, hxb⟩ := Shape.balanced_red.mp hx
    have hchild : t.childOf s.other (some f) = some i := by simpa using h.near.childOf
    have hf := h.near
    rw [Shape.branch_other] at hf
    obtain ⟨t', hrun, hw, h'⟩ := rotate_ok hf
    refine ⟨t', .branch s .red fo f ef xa, i, e, xb, ?_, ?_, hw, focus_under.mp h',
      .redden hfo hxa, hxb, ?_⟩
    · simp [hchild]
    · simpa [hchild] using hrun
    · cases s <;> simp [Shape.branch, Shape.items, Side.other]

/-- Under a black uncle at most two rotations end the repair. -/
theorem mendRedLoop_rotate {x fo go : Shape K V} {f g n : Nat} {ef eg : K × V}
    (h : t.Focus up (.branch s .black (.branch s' .red x f ef fo) g eg go))
    (hx : x.Balanced .red n) (hfo : fo.Balanced .black n) (hgo : go.Balanced .black n)
    (passes : Nat) :
    ∃ t' sh, t.mendRedLoop (passes + 2) x.link = .ok t' ∧ t.Rewired t' ∧ t'.Focus up sh ∧
      sh.Balanced .black (n + 1) ∧
      sh.items = (Shape.branch s .black (.branch s' .red x f ef fo) g eg go).items := by
  have hne : x.link ≠ none := by cases hx; simp
  rw [mendRedLoop_under h hne, if_neg (by simp [hgo.color_eq])]
  generalize hinner : decide (x.link = t.childOf s.other (some f)) = inner
  obtain ⟨t₁, y, i, e, b, hy, hrun₁, hw₁, h₁, hyb, hb, hitems⟩ :=
    straighten_ok h hx hfo hinner.symm
  have hyne : y.link ≠ none := by cases hyb; simp
  have hpar : t₁.parentOf y.link = some i := h₁.near.near.parentOf hyne
  have hgrand : t₁.parentOf (some i) = some g := by simpa using h₁.near.parentOf (by simp)
  obtain ⟨t', hrun, hw, h', hstop⟩ := outer_ok h₁ hyne
  refine ⟨t', _, ?_, hw₁.trans hw, h', ?_, ?_⟩
  · have hend := mendRedLoop_stop (.inr hstop) passes
    cases inner <;> simp only [Bool.false_eq_true, if_false, if_true] at hy hrun₁ ⊢ <;>
      simp only [hy, hrun₁, ok_bind, hpar, hgrand, hrun, hend]
  · exact Shape.balanced_black.mpr ⟨rfl, n, _, _, rfl, hyb, .redden hb hgo⟩
  · have hwhole : (Shape.branch s .black y i e (.branch s .red b g eg go)).items =
        (Shape.branch s .black (.branch s .red y i e b) g eg go).items := by
      cases s <;> simp [Shape.branch, Shape.items]
    rw [hwhole]
    cases s
    · exact congrArg (· ++ (g, eg) :: go.items) hitems
    · exact congrArg (go.items ++ (g, eg) :: ·) hitems

theorem mendRedLoop_ok {x : Shape K V} {n : Nat} (h : t.Focus up x) (hx : x.Balanced .red n)
    (hup : up.Takes .black n) {passes : Nat} (hp : up.length < passes) :
    ∃ t' sh, t.mendRedLoop passes x.link = .ok t' ∧ t.Rewired t' ∧ t'.Holds sh ∧
      sh.items = (up.fill x).items ∧ ∃ m, (sh.paint .black).Balanced .black m := by
  induction passes generalizing t up x n with
  | zero => exact absurd hp (Nat.not_lt_zero _)
  | succ passes ih =>
    cases hup with
    | top =>
      exact ⟨t, x, mendRedLoop_stop (.inl h.root.symm) _, .refl t, holds_fill.mpr h, rfl, _,
        hx.paint_red⟩
    | black hf ho hu =>
      -- Below a black parent the red node is no fault.
      rename_i f c' up
      have hstop : t.colorOf (t.parentOf x.link) = .black := by
        rw [h.parentOf (by cases hx; simp)]
        simpa [hf] using (focus_under.mp h).colorOf
      obtain ⟨m, hm⟩ := (Trail.Takes.black hf ho hu).fill hx
      refine ⟨t, _, mendRedLoop_stop (.inr hstop) _, .refl t, holds_fill.mpr h, rfl, m, ?_⟩
      rwa [← hm.color_eq, Shape.paint_self, hm.color_eq]
    | red hf ho hu =>
      rename_i f up
      obtain ⟨g, up, c', rfl, hg, hgo, hu'⟩ := hu.exists_under
      have h' := focus_under.mp (focus_under.mp h)
      simp only [Crumb.fill, hf, hg] at h'
      obtain ⟨i, hi⟩ : ∃ i, x.link = some i := by cases hx; exact ⟨_, rfl⟩
      simp only [Trail.length] at hp
      cases hc : g.other.color with
      | red =>
        rw [mendRedLoop_under h' (by simp [hi]), if_pos hc]
        obtain ⟨t', sh, hrun, hw, hsh, hitems, hm⟩ :=
          ih h'.recolor_uncle (balanced_recolor_uncle hx ho hgo hc) hu' (by omega)
        refine ⟨t', sh, by simpa using hrun, ?_, hsh, ?_, hm⟩
        · exact (((Rewired.recolor ..).trans (Rewired.recolor ..)).trans
            (Rewired.recolor ..)).trans hw
        · rw [hitems]
          simp only [Trail.items_fill, Trail.fill_under, Crumb.fill]
          cases g.side <;> cases f.side <;> simp [Shape.branch, Shape.items]
      | black =>
        have hgo' : g.other.Balanced .black n := by rwa [← hgo.color_eq, hc] at hgo
        obtain ⟨k, rfl⟩ : ∃ k, passes = k + 1 := ⟨passes - 1, by omega⟩
        obtain ⟨t', sh, hrun, hw, hsh, hbal, hitems⟩ := mendRedLoop_rotate h' hx ho hgo' k
        obtain ⟨m, hm⟩ := hu'.fill hbal
        refine ⟨t', _, hrun, hw, holds_fill.mpr hsh, ?_, m, ?_⟩
        · simp only [Trail.items_fill, Trail.fill_under, Crumb.fill, hf, hg, hitems]
        · rwa [← hm.color_eq, Shape.paint_self, hm.color_eq]

/-- A tree whose only fault may be a red node below a red parent is red-black
after the repair, with the same items in the same order. -/
theorem mendRed_ok {x : Shape K V} {n : Nat} (h : t.Focus up x) (hx : x.Balanced .red n)
    (hup : up.Takes .black n) (hp : up.length < t.patience) :
    ∃ t' sh, t.mendRed x.link = .ok t' ∧ t.Rewired t' ∧ t'.Holds sh ∧
      sh.items = (up.fill x).items ∧ ∃ m, sh.Balanced .black m := by
  obtain ⟨t', sh, hrun, hw, hsh, hitems, hm⟩ := mendRedLoop_ok h hx hup hp
  have hf : t'.Focus .top sh := holds_fill.mp hsh
  refine ⟨_, sh.paint .black, ?_, hw.trans (Rewired.recolor t' t'.root .black),
    holds_fill.mpr (hsh.root ▸ hf.recolor .black), ?_, hm⟩
  · simp [mendRed, hrun]
  · simpa using hitems

end SlotTree.Tree
