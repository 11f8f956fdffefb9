import SlotTree.Tree.Audit
import SlotTree.Proofs.Sound

/-
  Audits — what an audit finds in a sound tree.

  Links, colours, black counts and counters of a sound tree are in order under
  any comparison. The one thing an audit can still object to is a key outside
  the bounds that the search path sets for it (`Shape.Placed`), which happens
  if the comparison is not the one the tree was built by, or is lawless
  (`audit_ok`).
-/
namespace SlotTree

variable {K V : Type}

namespace Shape

/-- Every key lies between the bounds that the keys above it set. -/
def Placed (cmp : K → K → Ordering) : Option K → Option K → Shape K V → Prop
  | _, _, nil => True
  | lower, upper, node _ l _ e r =>
    Tree.liesWithin cmp lower upper e.1 = true ∧ l.Placed cmp lower (some e.1) ∧
      r.Placed cmp (some e.1) upper

/-- The shape as a list, without a missing one. -/
def toList : Shape K V → List (Shape K V)
  | nil => []
  | node c l id e r => [node c l id e r]

theorem filterMap_link_toList (sh : Shape K V) :
    sh.toList.filterMap link = sh.link.toList := by
  cases sh <;> rfl

theorem flatMap_ids_toList (sh : Shape K V) : sh.toList.flatMap ids = sh.ids := by
  cases sh <;> simp [toList]

theorem mem_toList {sh sh' : Shape K V} : sh' ∈ sh.toList ↔ sh' = sh ∧ sh ≠ nil := by
  cases sh <;> simp [toList]

/-- The number of nodes of several shapes. -/
def total : List (Shape K V) → Nat
  | [] => 0
  | sh :: shs => sh.ids.length + total shs

theorem total_append (xs ys : List (Shape K V)) : total (xs ++ ys) = total xs + total ys := by
  induction xs with
  | nil => simp [total]
  | cons sh xs ih => simp [total, ih, Nat.add_assoc]

theorem total_toList (sh : Shape K V) : total sh.toList = sh.ids.length := by
  cases sh <;> simp [total, toList]

end Shape

namespace Tree

variable {t : Tree K V} {sh : Shape K V}

/-! ## Links -/

theorem checkBack_ok {i : Nat} (h : t.slots.Lays (some i) sh) : t.checkBack i sh.link = .ok () := by
  cases hl : sh.link with
  | none => rfl
  | some j =>
    have hp := parentOf_lays h (by simp [hl])
    rw [hl] at hp
    simp [checkBack, hp]

theorem pending_below {i : Nat} {l r : Shape K V} {shs : List (Shape K V)}
    (hl : t.slots.Lays (some i) l) (hr : t.slots.Lays (some i) r)
    (h : ∀ sh ∈ shs, sh ≠ .nil ∧ ∃ p, t.slots.Lays p sh) :
    ∀ sh ∈ r.toList ++ l.toList ++ shs, sh ≠ .nil ∧ ∃ p, t.slots.Lays p sh := by
  intro sh hm
  simp only [List.mem_append, Shape.mem_toList] at hm
  rcases hm with (⟨rfl, hne⟩ | ⟨rfl, hne⟩) | hm
  · exact ⟨hne, _, hr⟩
  · exact ⟨hne, _, hl⟩
  · exact h sh hm

theorem checkPending_ok {budget : Nat} (shs : List (Shape K V))
    (h : ∀ sh ∈ shs, sh ≠ .nil ∧ ∃ p, t.slots.Lays p sh) (hb : Shape.total shs ≤ budget) :
    t.checkPending budget (shs.filterMap Shape.link) = .ok () := by
  induction budget generalizing shs with
  | zero =>
    cases shs with
    | nil => rfl
    | cons sh shs =>
      obtain ⟨hne, -⟩ := h sh (by simp)
      cases sh with
      | nil => exact absurd rfl hne
      | node c l i e r => simp [Shape.total] at hb
  | succ budget ih =>
    cases shs with
    | nil => rfl
    | cons sh shs =>
      obtain ⟨hne, p, hlays⟩ := h sh (by simp)
      cases sh with
      | nil => exact absurd rfl hne
      | node c l i e r =>
        obtain ⟨hn, hl, hr⟩ := hlays
        have hbelow := pending_below hl hr (fun sh' hm => h sh' (List.mem_cons_of_mem _ hm))
        have hnext := ih (r.toList ++ l.toList ++ shs) hbelow ?_
        · simp only [List.filterMap_append, Shape.filterMap_link_toList] at hnext
          simp [checkPending, hn, Node.of, checkBack_ok hl, checkBack_ok hr] at hnext ⊢
          exact hnext
        · simp only [Shape.total_append, Shape.total_toList]
          simp only [Shape.total, Shape.ids_node, List.length_append, List.length_cons] at hb ⊢
          omega

/-- Links that are those of a shape pass, if the shape has no more nodes than there
are occupied slots. -/
theorem checkLinks_of_lays (hroot : t.root = sh.link) (h : t.slots.Lays none sh)
    (hle : sh.ids.length ≤ t.slots.live) : t.checkLinks = .ok () := by
  cases hl : sh.link with
  | none => simp [checkLinks, hroot, hl]
  | some i =>
    have hne : sh ≠ .nil := by
      rintro rfl
      cases hl
    have hp := parentOf_lays h (by simp [hl])
    rw [hl] at hp
    have hpending := @checkPending_ok K V t t.slots.live [sh]
      (by simpa using ⟨hne, _, h⟩) (by simpa [Shape.total] using hle)
    simp only [List.filterMap_cons, hl, List.filterMap_nil] at hpending
    simp [checkLinks, hroot, hl, hp, hpending]

theorem checkLinks_ok (h : t.Sound sh) : t.checkLinks = .ok () :=
  checkLinks_of_lays h.holds.root h.holds.lays (Nat.le_of_eq h.live.symm)

/-! ## Order, colours and black counts -/

theorem checkSubtree_ok (cmp : K → K → Ordering) (lower upper : Option K) {p : Link} {c : Color}
    {n depth : Nat} (h : t.slots.Lays p sh) (hb : sh.Balanced c n)
    (hd : sh.ids.length ≤ depth) :
    (sh.Placed cmp lower upper ∧
        t.checkSubtree cmp depth lower upper sh.link = .ok (.ok (sh.ids.length, n + 1))) ∨
      (¬ sh.Placed cmp lower upper ∧
        ∃ i, t.checkSubtree cmp depth lower upper sh.link = .ok (.error (.misplacedKey i))) := by
  induction depth generalizing sh p c n lower upper with
  | zero =>
    cases hb with
    | nil => exact .inl ⟨trivial, rfl⟩
    | red => simp at hd
    | black => simp at hd
  | succ depth ih =>
    cases sh with
    | nil =>
      cases hb
      exact .inl ⟨trivial, rfl⟩
    | node d l i e r =>
      obtain ⟨hn, hl, hr⟩ := h
      -- What balance says of the two subtrees and of the colours that meet.
      obtain ⟨c₁, c₂, m, hbl, hbr, hcount, hpair⟩ : ∃ c₁ c₂ m, l.Balanced c₁ m ∧ r.Balanced c₂ m ∧
          m + 1 + (if d = .black then 1 else 0) = n + 1 ∧
          ¬ (d = .red ∧ (t.colorOf l.link = .red ∨ t.colorOf r.link = .red)) := by
        cases hb with
        | red hbl hbr =>
          exact ⟨_, _, n, hbl, hbr, rfl, by simp [colorOf_lays hl, colorOf_lays hr, hbl.color_eq,
            hbr.color_eq]⟩
        | black hbl hbr => exact ⟨_, _, _, hbl, hbr, rfl, by simp⟩
      simp only [Shape.ids_node, List.length_append, List.length_cons] at hd ⊢
      by_cases hw : liesWithin cmp lower upper e.1 = true
      · have hleft := ih lower (some e.1) hl hbl (by omega)
        have hright := ih (some e.1) upper hr hbr (by omega)
        rcases hleft with ⟨hpl, hrunl⟩ | ⟨hpl, j, hrunl⟩
        · rcases hright with ⟨hpr, hrunr⟩ | ⟨hpr, j, hrunr⟩
          · refine .inl ⟨⟨hw, hpl, hpr⟩, ?_⟩
            simp [checkSubtree, hn, Node.of, hw, hpair, hrunl, hrunr, hcount]
            omega
          · refine .inr ⟨fun hp => hpr hp.2.2, j, ?_⟩
            simp [checkSubtree, hn, Node.of, hw, hpair, hrunl, hrunr]
        · refine .inr ⟨fun hp => hpl hp.2.1, j, ?_⟩
          simp [checkSubtree, hn, Node.of, hw, hpair, hrunl]
      · refine .inr ⟨fun hp => hw hp.1, i, ?_⟩
        simp [checkSubtree, hn, Node.of, hw]

/-- An audit of a sound tree passes if the keys are in their places, and finds
a misplaced key otherwise. -/
theorem audit_ok (cmp : K → K → Ordering) (h : t.Sound sh) :
    (sh.Placed cmp none none ∧ t.audit cmp = .ok (.ok ())) ∨
      (¬ sh.Placed cmp none none ∧ ∃ i, t.audit cmp = .ok (.error (.misplacedKey i))) := by
  obtain ⟨n, hn⟩ := h.balanced
  have hcolor : t.colorOf t.root = .black := by
    rw [h.holds.root, colorOf_lays h.holds.lays, hn.color_eq]
  have hdepth : sh.ids.length ≤ t.horizon := Nat.le_succ_of_le h.holds.length_le
  have hsize : sh.ids.length = t.size := h.size.symm
  have hlive : t.slots.live = t.size := h.live.trans hsize
  have hroot := h.holds.root
  rcases checkSubtree_ok cmp none none h.holds.lays hn hdepth with
    ⟨hp, hrun⟩ | ⟨hp, i, hrun⟩
  · exact .inl ⟨hp, by simp [audit, checkLinks_ok h, hcolor, hroot ▸ hrun, hsize, hlive]⟩
  · exact .inr ⟨hp, i, by simp [audit, checkLinks_ok h, hcolor, hroot ▸ hrun]⟩

end Tree

end SlotTree
