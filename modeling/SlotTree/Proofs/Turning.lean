import SlotTree.Proofs.Rotation
import SlotTree.Proofs.Sequence

/-
  Turning — a rotation of any linked tree, and the rotation back.

  A rotation is known by what it makes of the shape (`rotate_ok`). Here it is
  said what that means for the links: which nodes are written at all
  (`turn_ok`), and that the way that led to the pivot leads to the child that
  has taken its place (`Turned`). Colours are not looked at, so they may be any.

  The rotation to the other side makes the old shape again. Two trees that hold
  one shape and agree in all that a rotation leaves alone are one tree
  (`Holds.ext`), so it restores the tree down to the last slot
  (`linked_turn_undone`).
-/
namespace SlotTree

variable {K V : Type}

/-! ## What fixes a tree -/

theorem Slots.ext_get? {α : Type} {s s' : Slots α} (hsize : s'.size = s.size)
    (hfree : s'.free = s.free) (hlive : s'.live = s.live)
    (hget : ∀ i, s'.get? (some i) = s.get? (some i)) : s' = s := by
  have hcells : s'.cells = s.cells := by
    apply Array.ext hsize
    intro i hi' hi
    have := hget i
    simpa [get?, hi', hi] using this
  obtain ⟨cells, free, live⟩ := s
  obtain ⟨cells', free', live'⟩ := s'
  cases hcells
  cases hfree
  cases hlive
  rfl

namespace Slots

variable {s s' : Slots (Node K V)} {p l l' : Link} {sh : Shape K V} {up : Trail K V}

theorem Lays.agree (h : s.Lays p sh) (h' : s'.Lays p sh) :
    ∀ i ∈ sh.ids, s'.get? (some i) = s.get? (some i) := by
  induction sh generalizing p with
  | nil => nofun
  | node c left i e right ihl ihr =>
    obtain ⟨hn, hl, hr⟩ := h
    obtain ⟨hn', hl', hr'⟩ := h'
    intro j hj
    simp only [Shape.ids_node, List.mem_append, List.mem_cons] at hj
    rcases hj with hj | rfl | hj
    · exact ihl hl hl' j hj
    · rw [hn, hn']
    · exact ihr hr hr' j hj

theorem Leads.agree (h : s.Leads up l) (h' : s'.Leads up l) :
    ∀ i ∈ up.ids, s'.get? (some i) = s.get? (some i) := by
  induction up generalizing l with
  | top => nofun
  | under f up ih =>
    obtain ⟨hn, ho, hu⟩ := h
    obtain ⟨hn', ho', hu'⟩ := h'
    intro j hj
    simp only [Trail.ids, List.cons_append, List.mem_cons, List.mem_append] at hj
    rcases hj with rfl | hj | hj
    · rw [hn, hn']
    · exact ho.agree ho' j hj
    · exact ih hu hu' j hj

/-- Only the node above the hole depends on what is in the hole. -/
theorem Leads.agree_above (h : s.Leads up l) (h' : s'.Leads up l') :
    ∀ i ∈ up.ids, up.hook ≠ some i → s'.get? (some i) = s.get? (some i) := by
  cases up with
  | top => nofun
  | under f up =>
    obtain ⟨-, ho, hu⟩ := h
    obtain ⟨-, ho', hu'⟩ := h'
    intro j hj hne
    simp only [Trail.ids, List.cons_append, List.mem_cons, List.mem_append] at hj
    rcases hj with rfl | hj | hj
    · exact absurd rfl hne
    · exact ho.agree ho' j hj
    · exact hu.agree hu' j hj

end Slots

namespace Tree

variable {t t' : Tree K V} {up : Trail K V} {sh : Shape K V} {s : Side} {p r : Nat}

/-- A tree is fixed by its shape, by what changes of links leave alone and by
the slots that do not belong to it. -/
theorem Holds.ext (h : t.Holds sh) (h' : t'.Holds sh) (hw : t.Rewired t')
    (hoff : ∀ i, i ∉ sh.ids → t'.slots.get? (some i) = t.slots.get? (some i)) : t' = t := by
  have hslots : t'.slots = t.slots := by
    apply Slots.ext_get? hw.room hw.free hw.live
    intro i
    by_cases hi : i ∈ sh.ids
    · exact h.lays.agree h'.lays i hi
    · exact hoff i hi
  have hroot : t'.root = t.root := h'.root.trans h.root.symm
  have hsize := hw.size
  have hrevision := hw.revision
  cases t
  cases t'
  simp_all

end Tree

/-! ## The way to a hole -/

theorem Shape.down_append (sh : Shape K V) (way rest : List Side) :
    sh.down (way ++ rest) = (sh.down way).down rest := by
  induction way generalizing sh with
  | nil => rfl
  | cons s way ih => exact ih (sh.child s)

/-- The way from the root to the hole. -/
def Trail.way : Trail K V → List Side
  | top => []
  | under f up => up.way ++ [f.side]

theorem Trail.down_way (up : Trail K V) (sh : Shape K V) : (up.fill sh).down up.way = sh := by
  induction up generalizing sh with
  | top => rfl
  | under f up ih =>
    rw [fill_under, way, Shape.down_append, ih]
    obtain ⟨s, c, i, e, other⟩ := f
    cases s <;> rfl

namespace Tree

variable {t t' : Tree K V} {up : Trail K V} {sh : Shape K V} {s : Side} {p r : Nat}

theorem Focus.follow_way (h : t.Focus up sh) : t.follow t.root up.way = sh.link := by
  rw [(holds_fill.mpr h).follow, Trail.down_way]

theorem Holds.focus_pivot (h : t.Holds sh) (hp : p ∈ sh.ids)
    (hr : t.childOf s.other (some p) = some r) :
    ∃ (up : Trail K V) (c : Color) (a : Shape K V) (ep : K × V) (c' : Color) (b : Shape K V)
      (er : K × V) (d : Shape K V),
      sh = up.fill (.branch s c a p ep (.branch s c' b r er d)) := by
  obtain ⟨⟨i, e⟩, hm, rfl⟩ := List.mem_map.mp hp
  obtain ⟨up, c, left, right, rfl⟩ := Shape.exists_trail hm
  obtain ⟨a, ep, far, hbranch⟩ := Shape.eq_branch (Shape.link_node c left i e right) s
  rw [hbranch] at h ⊢
  rw [(holds_fill.mp h).childOf_other] at hr
  obtain ⟨b, er, d, hfar⟩ := Shape.eq_branch hr s
  rw [hfar]
  exact ⟨up, _, a, ep, _, b, er, d, rfl⟩

/-! ## One rotation -/

variable {c c' : Color} {a b d : Shape K V} {ep er : K × V}

/-- A rotation writes the pivot, the child that rises, the root of the subtree
between them and the parent, and no other slot. -/
theorem turn_ok (h : t.Focus up (.branch s c a p ep (.branch s c' b r er d))) :
    ∃ t', t.rotate s (some p) = .ok t' ∧ t.Rewired t' ∧
      t'.Focus up (.branch s c' (.branch s c a p ep b) r er d) ∧
      ∀ j, j ≠ p → j ≠ r → b.link ≠ some j → up.hook ≠ some j →
        t'.slots.get? (some j) = t.slots.get? (some j) := by
  have hlift : t.rotate s (some p) = t.lift s p r := by
    simp only [rotate, h.childOf_other, Shape.link_branch]
  obtain ⟨t', hrun, hw, h'⟩ := lift_ok h
  obtain ⟨t'', hrun', -, -, -, -, -, hget⟩ := lift_run h
  obtain rfl := Except.ok.inj (hrun.symm.trans hrun')
  refine ⟨t', hlift.trans hrun, hw, h', fun j hjp hjr hinner hhook => ?_⟩
  by_cases hj : j ∈ up.ids
  · exact h.leads.agree_above h'.leads j hj hhook
  · rw [hget j hjp hjr hj, if_neg hinner]

/-- What a rotation does to the links of a tree: `r`, a child of `p`, has risen
above `p`, which is its child on side `s`. -/
structure Turned (t : Tree K V) (s : Side) (p r : Nat) (t' : Tree K V) : Prop where
  /-- The way that led to `p` leads to `r`. -/
  place : ∀ way, t.follow t.root way = some p → t'.follow t'.root way = some r
  /-- The node `r` has the parent that `p` had. -/
  parent : t'.parentOf (some r) = t.parentOf (some p)
  /-- The node `p` hangs from `r`. -/
  below : t'.childOf s (some r) = some p
  /-- The root is the same unless it was `p`. -/
  root : t.root ≠ some p → t'.root = t.root
  /-- Only four nodes are written. -/
  frame : ∀ l, l ≠ some p → l ≠ some r → l ≠ t.childOf s (some r) → l ≠ t.parentOf (some p) →
    t'.slots.get? l = t.slots.get? l
  /-- No node has another colour. -/
  colors : ∀ l, t'.colorOf l = t.colorOf l
  /-- Entries, counters, the free stack and the occupied slots are the same. -/
  rewired : t.Rewired t'

theorem turned_of_focus (h : t.Focus up (.branch s c a p ep (.branch s c' b r er d)))
    (h' : t'.Focus up (.branch s c' (.branch s c a p ep b) r er d)) (hw : t.Rewired t')
    (hframe : ∀ j, j ≠ p → j ≠ r → b.link ≠ some j → up.hook ≠ some j →
      t'.slots.get? (some j) = t.slots.get? (some j)) : t.Turned s p r t' := by
  have hparent : t.parentOf (some p) = up.hook := by simpa using h.parentOf (by simp)
  have hinner : t.childOf s (some r) = b.link := h.far.childOf
  constructor
  · intro way hway
    have hpivot : t.follow t.root up.way = some p := by simpa using h.follow_way
    rw [(holds_fill.mpr h).linked.once way up.way p hway hpivot]
    simpa using h'.follow_way
  · rw [hparent]
    simpa using h'.parentOf (by simp)
  · simpa using h'.childOf
  · intro hne
    have hroot := h.root
    have hroot' := h'.root
    rw [Shape.link_branch] at hroot hroot'
    cases up with
    | top => exact absurd hroot hne
    | under f up => exact hroot'.trans hroot.symm
  · intro l hp hr hb hq
    rw [hinner] at hb
    rw [hparent] at hq
    cases l with
    | none => rfl
    | some j =>
      exact hframe j (fun he => hp (by rw [he])) (fun he => hr (by rw [he])) hb.symm hq.symm
  · -- Each of the four nodes is painted as its place in the shapes says.
    intro l
    by_cases hp : l = some p
    · subst hp
      have hcol : t'.colorOf (some p) = c := by simpa using h'.near.colorOf
      rw [hcol]
      simpa using h.colorOf.symm
    by_cases hr : l = some r
    · subst hr
      have hcol : t.colorOf (some r) = c' := by simpa using h.far.colorOf
      rw [hcol]
      simpa using h'.colorOf
    by_cases hb : l = b.link
    · rw [hb, h'.near.far.colorOf, h.far.near.colorOf]
    by_cases hq : l = up.hook
    · subst hq
      cases up with
      | top => rfl
      | under f up =>
        have hcol := (focus_under.mp h).colorOf
        have hcol' := (focus_under.mp h').colorOf
        rw [Crumb.link_fill, Crumb.color_fill] at hcol hcol'
        exact hcol'.trans hcol.symm
    cases l with
    | none => rfl
    | some j =>
      have hget := hframe j (fun he => hp (by rw [he])) (fun he => hr (by rw [he])) (Ne.symm hb)
        (Ne.symm hq)
      simp only [Tree.colorOf, hget]
  · exact hw

/-- The rotation of the risen child to the other side restores the tree. -/
theorem turn_back (h : t.Focus up (.branch s c a p ep (.branch s c' b r er d)))
    (h' : t'.Focus up (.branch s c' (.branch s c a p ep b) r er d)) (hw : t.Rewired t')
    (hframe : ∀ j, j ≠ p → j ≠ r → b.link ≠ some j → up.hook ≠ some j →
      t'.slots.get? (some j) = t.slots.get? (some j)) :
    t'.rotate s.other (some r) = .ok t := by
  rw [← Shape.branch_other s c', ← Shape.branch_other s c] at h'
  obtain ⟨t'', hrun, hw', h'', hframe'⟩ := turn_ok h'
  rw [Shape.branch_other, Shape.branch_other] at h''
  have hback : t'' = t := by
    apply (holds_fill.mpr h).ext (holds_fill.mpr h'') (hw.trans hw')
    intro i hi
    simp only [Trail.mem_ids_fill, not_or, (Shape.ids_branch_perm ..).mem_iff, List.mem_cons,
      List.mem_append] at hi
    obtain ⟨⟨hip, -, hir, hib, -⟩, hiu⟩ := hi
    have hinner : b.link ≠ some i := fun he => hib (Shape.mem_ids_of_link he)
    have hhook : up.hook ≠ some i := fun he => hiu (Trail.mem_ids_of_hook he)
    rw [hframe' i hir hip hinner hhook, hframe i hip hir hinner hhook]
  rw [hrun, hback]

end Tree

/-- In any linked tree, a node that is reached and has a child on the other side
can be turned. The tree is then linked again, with the same sequence of slots,
the child has taken the place of the node, and no other links, colours, entries or
counters are touched; turning the child to the other side restores the tree as it
was. Without a node, or without such a child, nothing happens. -/
theorem linked_turn_undone {t : Tree K V} (h : t.Linked) (s : Side) :
    (∀ vs p r, t.Lists t.root vs → (∃ way, t.follow t.root way = some p) →
      t.childOf s.other (some p) = some r →
      ∃ t', t.rotate s (some p) = .ok t' ∧ t'.Linked ∧ t'.Lists t'.root vs ∧ t.Turned s p r t' ∧
        t'.rotate s.other (some r) = .ok t) ∧
    ∀ l, (l = none ∨ t.slots.get? l = none ∨ t.childOf s.other l = none) →
      t.rotate s l = .ok t := by
  constructor
  · intro vs p r hv hp hr
    obtain ⟨sh, hsh, rfl⟩ := h.holds hv
    obtain ⟨up, c, a, ep, c', b, er, d, rfl⟩ := hsh.focus_pivot (hsh.mem_iff.mpr hp) hr
    have hf := Tree.holds_fill.mp hsh
    obtain ⟨t', hrun, hw, hf', hframe⟩ := Tree.turn_ok hf
    have hsh' := Tree.holds_fill.mpr hf'
    have hids : (up.fill (.branch s c' (.branch s c a p ep b) r er d)).ids =
        (up.fill (.branch s c a p ep (.branch s c' b r er d))).ids := by
      simp only [Shape.ids, Trail.items_fill]
      cases s <;> simp [Shape.branch, Shape.items]
    refine ⟨t', hrun, hsh'.linked, ?_, Tree.turned_of_focus hf hf' hw hframe,
      Tree.turn_back hf hf' hw hframe⟩
    rw [← hids]
    exact hsh'.lists
  · intro l hl
    have hchild : t.childOf s.other l = none := by
      rcases hl with rfl | hvacant | hnone
      · rfl
      · simp [Tree.childOf, hvacant]
      · exact hnone
    cases l with
    | none => rfl
    | some i => simp only [Tree.rotate, hchild]

/-- Turned to the right at its root, the example tree has the slot 0 at the root;
a leaf is not turned at all. -/
theorem unevenTree_turned :
    unevenTree.Linked ∧ unevenTree.childOf .left (some 2) = some 0 ∧
      (∃ t', unevenTree.rotate .right (some 2) = .ok t' ∧ t'.Linked ∧
        t'.Lists t'.root [0, 4, 2, 1] ∧ t'.root = some 0 ∧ t'.childOf .right (some 0) = some 2 ∧
        t'.rotate .left (some 0) = .ok unevenTree) ∧
      unevenTree.rotate .left (some 4) = .ok unevenTree := by
  have hlinked := unevenTree_holds.linked
  obtain ⟨hturn, -⟩ := linked_turn_undone hlinked .right
  obtain ⟨t', hrun, hl, hlists, hturned, hback⟩ :=
    hturn [0, 4, 2, 1] 2 0 unevenTree_holds.lists ⟨[], rfl⟩ rfl
  have hleaf := (linked_turn_undone hlinked .left).2 (some 4) (.inr (.inr rfl))
  exact ⟨hlinked, rfl, ⟨t', hrun, hl, hlists, hturned.place [] rfl, hturned.below, hback⟩, hleaf⟩

end SlotTree
