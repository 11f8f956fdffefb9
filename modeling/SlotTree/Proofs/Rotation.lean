import SlotTree.Tree.Balance
import SlotTree.Proofs.Layout

/-
  Rotations — what they do to the shape a tree holds.

  `replaceChild_ok` exchanges the link into a hole. `rotate_ok` is the
  specification of a rotation at any place of a well-linked tree: the child
  takes the place of the pivot, the subtree between the two changes hands, and
  nothing else changes. It is read off the slots (`lift_run`), which say node
  by node what the steps of a rotation leave.
-/
namespace SlotTree.Tree

variable {K V : Type} {t : Tree K V} {up : Trail K V}

theorem setChild_ok {i : Nat} (h : t.slots.contains (some i) = true) (s : Side) (l : Link) :
    t.setChild s i l = .ok { t with slots := t.slots.update (some i) (·.setChild s l) } :=
  reviseNode_ok h _

theorem setParent_ok {i : Nat} (h : t.slots.contains (some i) = true) (l : Link) :
    t.setParent i l =
      .ok { t with slots := t.slots.update (some i) (fun n => { n with parent := l }) } :=
  reviseNode_ok h _

theorem replaceChild_ok {old : Nat} (hl : t.slots.Leads up (some old))
    (hr : t.root = up.root (some old)) (hnd : (old :: up.ids).Nodup) (new : Link) :
    ∃ t', t.replaceChild up.hook old new = .ok t' ∧ t.Rewired t' ∧ t'.root = up.root new ∧
      t'.slots.Leads up new ∧
      ∀ j, j ∉ up.ids → t'.slots.get? (some j) = t.slots.get? (some j) := by
  cases up with
  | top => exact ⟨{ t with root := new }, rfl, Rewired.reroot t new, rfl, trivial, fun _ _ => rfl⟩
  | under f up =>
    have hf := hl.1
    have hc : t.slots.contains (some f.id) = true := by simp [Slots.contains, hf]
    obtain ⟨hout, hnd⟩ := List.nodup_cons.mp hnd
    -- The hole is on the side on which the parent links to `old`.
    have hside :
        (if (Node.of f.side f.color f.entry (some old) f.other.link up.hook).left = some old
          then Side.left else Side.right) = f.side := by
      have hne : f.other.link ≠ some old := fun he =>
        hout (by simp [Trail.ids, Shape.mem_ids_of_link he])
      cases hs : f.side <;> simp [Node.of, hne]
    have off : ∀ j, j ≠ f.id → (t.slots.update (some f.id) (·.setChild f.side new)).get? (some j) =
        t.slots.get? (some j) :=
      fun j hj => Slots.get?_update_of_ne _ _ (by simpa using Ne.symm hj)
    refine ⟨{ t with slots := t.slots.update (some f.id) (·.setChild f.side new) }, ?_,
      Rewired.setChild t f.side (some f.id) new, hr, ?_, ?_⟩
    · simp only [replaceChild, Trail.hook_under, node_ok hf, ok_bind, hside, setChild_ok hc]
    · exact hl.relink hnd (Slots.get?_update_self t.slots (some f.id) _) (fun j _ hj => off j hj)
    · intro j hj
      simp only [Trail.ids, List.cons_append, List.mem_cons, not_or] at hj
      exact off j hj.1

variable {s : Side} {c c' : Color} {a b d : Shape K V} {p r : Nat} {ep er : K × V}

theorem Focus.nodup_pivot (h : t.Focus up (.branch s c a p ep (.branch s c' b r er d))) :
    (p :: r :: (a.ids ++ b.ids ++ d.ids) ++ up.ids).Nodup := by
  refine (List.Perm.append_right up.ids ?_).nodup_iff.mp h.nodup_branch
  refine List.Perm.cons p ?_
  refine (List.Perm.append_left a.ids (Shape.ids_branch_perm s c' b r er d)).trans ?_
  simp

/-- The tree half way through a rotation: the pivot has the riser's subtree on
side `s`, which knows its new parent, and the riser has the pivot's parent. -/
def handedOver (t : Tree K V) (s : Side) (p r : Nat) (inner hook : Link) : Tree K V :=
  { t with slots :=
      ((t.slots.update (some p) (·.setChild s.other inner)).update inner
        (fun n => { n with parent := some p })).update (some r) (fun n => { n with parent := hook }) }

theorem rewired_handedOver (t : Tree K V) (s : Side) (p r : Nat) (inner hook : Link) :
    t.Rewired (t.handedOver s p r inner hook) :=
  ((Rewired.setChild t s.other (some p) inner).trans (Rewired.setParent _ inner (some p))).trans
    (Rewired.setParent _ (some r) hook)

theorem lift_eq (h : t.Focus up (.branch s c a p ep (.branch s c' b r er d))) :
    t.lift s p r = (do
      let t ← (t.handedOver s p r b.link up.hook).replaceChild up.hook p (some r)
      let t ← t.setChild s r (some p)
      t.setParent p (some r)) := by
  obtain ⟨hp, -, hbd⟩ := Slots.lays_branch.mp h.lays
  obtain ⟨hr, hb, -⟩ := Slots.lays_branch.mp hbd
  rw [Shape.link_branch] at hp
  have hcp : t.slots.contains (some p) = true := by simp [Slots.contains, hp]
  have hcr : t.slots.contains (some r) = true := by simp [Slots.contains, hr]
  have hnd := h.nodup_pivot
  have hbp : b.link ≠ some p := fun he => by
    have := Shape.mem_ids_of_link he
    simp_all
  -- The trees after the first two of the three steps; the second one is idle without a subtree.
  let t₁ : Tree K V := { t with slots := t.slots.update (some p) (·.setChild s.other b.link) }
  let t₂ : Tree K V :=
    { t₁ with slots := t₁.slots.update b.link (fun n => { n with parent := some p }) }
  have h₁ : t.setChild s.other p b.link = .ok t₁ := setChild_ok hcp _ _
  have hp₂ : t₂.node p = .ok (.of s c ep a.link b.link up.hook) :=
    node_ok (by simp [t₂, t₁, Slots.get?_update, hbp, hp])
  have h₃ : t₂.setParent r up.hook = .ok (t.handedOver s p r b.link up.hook) :=
    setParent_ok (by simp [t₂, t₁, hcr]) _
  simp only [lift, node_ok hr, Node.child_of, ok_bind, h₁]
  cases hi : b.link with
  | none =>
    have hidle : t₁ = t₂ := by simp [t₂, hi, Slots.update]
    simp only [hidle, pure_ok, ok_bind, hp₂, Node.parent_of, h₃, hi]
  | some i =>
    obtain ⟨x, y, z, hx⟩ := Shape.eq_branch hi .left
    rw [hx] at hb
    have hci : t₁.slots.contains (some i) = true := by
      simp [t₁, Slots.contains_iff, (Slots.lays_branch.mp hb).1]
    have h₂ : t₁.setParent i (some p) = .ok t₂ := by
      simp only [t₂, hi]
      exact setParent_ok hci (some p)
    simp only [h₂, ok_bind, hp₂, Node.parent_of, h₃, hi]

/-- What the steps of a rotation leave in the slots: the trail leads to the
riser, pivot and riser have changed places, and the subtree between them has
another parent. -/
theorem lift_run (h : t.Focus up (.branch s c a p ep (.branch s c' b r er d))) :
    ∃ t', t.lift s p r = .ok t' ∧ t.Rewired t' ∧ t'.root = up.root (some r) ∧
      t'.slots.Leads up (some r) ∧
      t'.slots.get? (some p) = some (.of s c ep a.link b.link (some r)) ∧
      t'.slots.get? (some r) = some (.of s c' er (some p) d.link up.hook) ∧
      ∀ j, j ≠ p → j ≠ r → j ∉ up.ids → t'.slots.get? (some j) =
        if b.link = some j then (t.slots.get? (some j)).map (fun n => { n with parent := some p })
        else t.slots.get? (some j) := by
  obtain ⟨hp, -, hbd⟩ := Slots.lays_branch.mp h.lays
  obtain ⟨hr, -, -⟩ := Slots.lays_branch.mp hbd
  have hl := h.leads
  have hroot := h.root
  rw [Shape.link_branch] at hl hroot hp
  have hcp : t.slots.contains (some p) = true := by simp [Slots.contains, hp]
  have hcr : t.slots.contains (some r) = true := by simp [Slots.contains, hr]
  have hnd := h.nodup_pivot
  simp only [List.cons_append, List.append_assoc, List.nodup_cons, List.mem_cons,
    List.mem_append, not_or, List.nodup_append] at hnd
  obtain ⟨⟨hpr, hpa, hpb, hpd, hpu⟩, ⟨hra, hrb, hrd, hru⟩, hdis⟩ := hnd
  have hbp : b.link ≠ some p := fun he => hpb (Shape.mem_ids_of_link he)
  have hbr : b.link ≠ some r := fun he => hrb (Shape.mem_ids_of_link he)
  have hl₁ : (t.handedOver s p r b.link up.hook).slots.Leads up (some p) := by
    refine hl.congr (fun j hj => ?_)
    have h₁ : j ≠ r := fun he => hru (he ▸ hj)
    have h₂ : b.link ≠ some j := fun he => by grind [Shape.mem_ids_of_link he]
    have h₃ : j ≠ p := fun he => hpu (he ▸ hj)
    simp [handedOver, Slots.get?_update, Ne.symm h₁, h₂, Ne.symm h₃]
  obtain ⟨t₂, h₂, hw, hroot₂, hl₂, hget₂⟩ := replaceChild_ok hl₁ hroot
    (List.nodup_cons.mpr ⟨hpu, by grind⟩) (some r)
  have hw₂ : t.Rewired t₂ := (rewired_handedOver t s p r b.link up.hook).trans hw
  -- Riser and pivot are linked to each other.
  let t₃ : Tree K V := { t₂ with slots := t₂.slots.update (some r) (·.setChild s (some p)) }
  let t₄ : Tree K V :=
    { t₃ with slots := t₃.slots.update (some p) (fun n => { n with parent := some r }) }
  have hw₃ : t.Rewired t₃ := hw₂.trans (Rewired.setChild t₂ s (some r) (some p))
  have h₃ : t₂.setChild s r (some p) = .ok t₃ :=
    setChild_ok (by rw [hw₂.contains]; exact hcr) _ _
  have h₄ : t₃.setParent p (some r) = .ok t₄ :=
    setParent_ok (by rw [hw₃.contains]; exact hcp) _
  refine ⟨t₄, ?_, hw₃.trans (Rewired.setParent t₃ (some p) (some r)), hroot₂, ?_, ?_, ?_, ?_⟩
  · rw [lift_eq h, h₂, ok_bind, h₃, ok_bind, h₄]
  · refine hl₂.congr (fun j hj => ?_)
    have h₁ : j ≠ r := fun he => hru (he ▸ hj)
    have h₃ : j ≠ p := fun he => hpu (he ▸ hj)
    simp [t₄, t₃, Slots.get?_update, Ne.symm h₁, Ne.symm h₃]
  · simp [t₄, t₃, Slots.get?_update, Ne.symm hpr, hget₂ p hpu, handedOver, hbp, hp]
  · simp [t₄, t₃, Slots.get?_update, hpr, hget₂ r hru, handedOver, hbr, hr]
  · intro j hjp hjr hju
    simp [t₄, t₃, Slots.get?_update, Ne.symm hjp, Ne.symm hjr, hget₂ j hju, handedOver]

/-- The riser takes the place of the pivot, which becomes its child on side
`s`. -/
theorem lift_ok (h : t.Focus up (.branch s c a p ep (.branch s c' b r er d))) :
    ∃ t', t.lift s p r = .ok t' ∧ t.Rewired t' ∧
      t'.Focus up (.branch s c' (.branch s c a p ep b) r er d) := by
  obtain ⟨t', hrun, hw, hroot, hleads, hp, hr, hget⟩ := lift_run h
  obtain ⟨-, ha, hbd⟩ := Slots.lays_branch.mp h.lays
  obtain ⟨-, hb, hd⟩ := Slots.lays_branch.mp hbd
  have hnd := h.nodup_pivot
  have hnd' := hnd
  simp only [List.cons_append, List.append_assoc, List.nodup_cons, List.mem_cons,
    List.mem_append, not_or, List.nodup_append] at hnd'
  obtain ⟨⟨hpr, hpa, hpb, hpd, hpu⟩, ⟨hra, hrb, hrd, hru⟩, hna, ⟨hnb, hnd, -⟩, hdis⟩ := hnd'
  have off : ∀ j, j ∉ b.ids → j ≠ p → j ≠ r → j ∉ up.ids →
      t'.slots.get? (some j) = t.slots.get? (some j) := by
    intro j hjb hjp hjr hju
    rw [hget j hjp hjr hju, if_neg (fun he => hjb (Shape.mem_ids_of_link he))]
  have hb' : t'.slots.Lays (some p) b := by
    refine hb.hang hnb ?_ ?_
    · cases hi : b.link with
      | none => rfl
      | some i =>
        have hm := Shape.mem_ids_of_link hi
        rw [hget i (by grind) (by grind) (by grind), if_pos hi]
    · intro j hj hne
      rw [hget j (by grind) (by grind) (by grind), if_neg (Ne.symm hne)]
  refine ⟨t', hrun, hw, ?_, ?_, ?_, ?_⟩
  · rw [hroot, Shape.link_branch]
  · rw [Shape.link_branch]
    exact hleads
  · refine Slots.lays_branch.mpr ⟨?_, Slots.lays_branch.mpr ⟨hp, ?_, hb'⟩, ?_⟩
    · rw [Shape.link_branch]
      exact hr
    · exact ha.congr (fun j hj => off j (by grind) (by grind) (by grind) (by grind))
    · exact hd.congr (fun j hj => off j (by grind) (by grind) (by grind) (by grind))
  · refine (List.Perm.append_right up.ids ?_).nodup_iff.mp h.nodup_pivot
    refine List.Perm.symm ((Shape.ids_branch_perm ..).trans ?_)
    refine (List.Perm.cons r ((Shape.ids_branch_perm ..).append_right d.ids)).trans ?_
    exact List.Perm.swap p r _

theorem rotate_ok (h : t.Focus up (.branch s c a p ep (.branch s c' b r er d))) :
    ∃ t', t.rotate s (some p) = .ok t' ∧ t.Rewired t' ∧
      t'.Focus up (.branch s c' (.branch s c a p ep b) r er d) := by
  simp only [rotate, h.childOf_other, Shape.link_branch]
  exact lift_ok h

end SlotTree.Tree
