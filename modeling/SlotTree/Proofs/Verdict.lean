import SlotTree.Proofs.Linked
import SlotTree.Proofs.Order

/-
  Verdicts — an audit passes exactly the trees that are what they should be.

  `Tree.WellFormed` says what that is, of the links, the colours, the keys in
  order and the two counters, for a tree about which nothing is known. The
  audit looks at less: it asks for matched links and a bound on its steps, and
  then compares every key with the bounds that the keys above it set. Two facts
  make up for the difference. Keys within their bounds are keys in ascending
  order, and the other way round (`Shape.placed_iff`). And where keys ascend no
  slot occurs twice (`nodup_of_ascending`), which the link check alone does not
  rule out.

  Both sides of the equivalence are that the tree is sound, for some shape, and
  its keys ascend (`audit_ok_iff`, `wellFormed_iff`). The audit always comes to
  a verdict (`audit_answers`).
-/
namespace SlotTree

variable {K V : Type} {cmp : K → K → Ordering}

/-! ## Keys between bounds -/

theorem Tree.liesWithin_iff {lower upper : Option K} {key : K} :
    liesWithin cmp lower upper key = true ↔
      (∀ lo ∈ lower, cmp key lo = .gt) ∧ ∀ hi ∈ upper, cmp key hi = .lt := by
  cases lower <;> cases upper <;> simp [liesWithin]

/-- Every key lies between the bounds above it if and only if the keys ascend
and all lie between the outermost bounds. -/
theorem Shape.placed_iff [Std.TransCmp cmp] {lower upper : Option K} {sh : Shape K V} :
    sh.Placed cmp lower upper ↔
      Ascending cmp sh.entries ∧ ∀ e ∈ sh.entries, Tree.liesWithin cmp lower upper e.1 = true := by
  induction sh generalizing lower upper with
  | nil => exact ⟨fun _ => ⟨List.Pairwise.nil, nofun⟩, fun _ => trivial⟩
  | node c l id e r ihl ihr =>
    have hentries : (Shape.node c l id e r).entries = l.entries ++ e :: r.entries := by
      simp [Shape.entries, Shape.items]
    simp only [Shape.Placed, ihl, ihr, hentries, Ascending, List.pairwise_append,
      List.pairwise_cons, List.mem_append, List.mem_cons, Tree.liesWithin_iff]
    constructor
    · rintro ⟨⟨hlo, hhi⟩, ⟨hl, hboundl⟩, hr, hboundr⟩
      have hleft : ∀ x ∈ l.entries, cmp x.1 e.1 = .lt := fun x hx => (hboundl x hx).2 e.1 rfl
      have hright : ∀ y ∈ r.entries, cmp e.1 y.1 = .lt := fun y hy =>
        Std.OrientedCmp.lt_of_gt ((hboundr y hy).1 e.1 rfl)
      refine ⟨⟨hl, ⟨hright, hr⟩, ?_⟩, ?_⟩
      · rintro x hx y (rfl | hy)
        · exact hleft x hx
        · exact Std.TransCmp.lt_trans (hleft x hx) (hright y hy)
      · -- A bound above is a bound below, by way of the key in between.
        rintro x (hx | rfl | hx)
        · exact ⟨(hboundl x hx).1, fun hi hm =>
            Std.TransCmp.lt_trans (hleft x hx) (hhi hi hm)⟩
        · exact ⟨hlo, hhi⟩
        · exact ⟨fun lo hm => Std.TransCmp.gt_trans
            (Std.OrientedCmp.gt_of_lt (hright x hx)) (hlo lo hm), (hboundr x hx).2⟩
    · rintro ⟨⟨hl, ⟨hright, hr⟩, hcross⟩, hbound⟩
      refine ⟨hbound e (.inr (.inl rfl)), ⟨hl, fun x hx => ?_⟩, hr, fun y hy => ?_⟩
      · refine ⟨(hbound x (.inl hx)).1, ?_⟩
        rintro _ ⟨⟩
        exact hcross x hx e (.inl rfl)
      · refine ⟨?_, (hbound y (.inr (.inr hy))).2⟩
        rintro _ ⟨⟩
        exact Std.OrientedCmp.gt_of_lt (hright y hy)

/-! ## Colours and black counts -/

theorem Shape.balanced_node {c c' : Color} {l r : Shape K V} {id : Nat} {e : K × V} {n : Nat} :
    (Shape.node c l id e r).Balanced c' n ↔
      c' = c ∧ ¬ (c = .red ∧ (l.color = .red ∨ r.color = .red)) ∧
        ∃ c₁ c₂ m, l.Balanced c₁ m ∧ r.Balanced c₂ m ∧
          n = m + if c = .black then 1 else 0 := by
  constructor
  · intro h
    cases h with
    | red hl hr => exact ⟨rfl, by simp [hl.color_eq, hr.color_eq], _, _, n, hl, hr, rfl⟩
    | black hl hr => exact ⟨rfl, by simp, _, _, _, hl, hr, rfl⟩
  · rintro ⟨rfl, hpair, c₁, c₂, m, hl, hr, rfl⟩
    cases c' with
    | red =>
      simp only [true_and, not_or] at hpair
      have hcl : c₁ = .black := by
        cases c₁ with
        | red => exact absurd hl.color_eq hpair.1
        | black => rfl
      have hcr : c₂ = .black := by
        cases c₂ with
        | red => exact absurd hr.color_eq hpair.2
        | black => rfl
      subst hcl hcr
      exact .red hl hr
    | black => exact .black hl hr

namespace Tree

variable {t : Tree K V} {sh : Shape K V} {p : Link} {i : Nat}

theorem checkSubtree_answers (cmp : K → K → Ordering) (lower upper : Option K) {depth : Nat}
    (h : t.slots.Lays p sh) (hd : sh.height ≤ depth) :
    ∃ r, t.checkSubtree cmp depth lower upper sh.link = .ok r := by
  induction sh generalizing p depth lower upper with
  | nil => exact ⟨.ok (0, 1), by cases depth <;> rfl⟩
  | node d l i e r ihl ihr =>
    obtain ⟨hn, hl, hr⟩ := h
    simp only [Shape.height] at hd
    obtain ⟨depth, rfl⟩ : ∃ k, depth = k + 1 := ⟨depth - 1, by omega⟩
    obtain ⟨left, hleft⟩ := ihl lower (some e.1) hl (show l.height ≤ depth by omega)
    obtain ⟨right, hright⟩ := ihr (some e.1) upper hr (show r.height ≤ depth by omega)
    simp only [Shape.link_node, checkSubtree, hn, Node.of, hleft, hright, ok_bind]
    split
    · exact ⟨_, rfl⟩
    · split
      · exact ⟨_, rfl⟩
      · cases left with
        | error finding => exact ⟨_, rfl⟩
        | ok countsl =>
          cases right with
          | error finding => exact ⟨_, rfl⟩
          | ok countsr =>
            dsimp only
            split <;> exact ⟨_, rfl⟩

/-- A check that passes has found the keys in their places and the shape
red-black, and has counted its nodes. -/
theorem placed_of_checkSubtree {lower upper : Option K} {depth count blacks : Nat}
    (h : t.slots.Lays p sh)
    (hrun : t.checkSubtree cmp depth lower upper sh.link = .ok (.ok (count, blacks))) :
    sh.Placed cmp lower upper ∧ count = sh.ids.length ∧ ∃ c n, blacks = n + 1 ∧ sh.Balanced c n := by
  induction sh generalizing p depth lower upper count blacks with
  | nil =>
    have hnil : t.checkSubtree cmp depth lower upper none = .ok (.ok (0, 1)) := by
      cases depth <;> rfl
    cases hnil.symm.trans hrun
    exact ⟨trivial, rfl, .black, 0, rfl, .nil⟩
  | node d l i e r ihl ihr =>
    obtain ⟨hn, hl, hr⟩ := h
    cases depth with
    | zero => cases hrun
    | succ depth =>
      simp only [Shape.link_node, checkSubtree, hn, Node.of, colorOf_lays hl,
        colorOf_lays hr] at hrun
      split at hrun
      · cases hrun
      next hw =>
      split at hrun
      · cases hrun
      next hpair =>
      obtain ⟨left, hleft, hrun⟩ := bind_eq_ok.mp hrun
      cases left with
      | error finding => cases hrun
      | ok countsl =>
        obtain ⟨right, hright, hrun⟩ := bind_eq_ok.mp hrun
        cases right with
        | error finding => cases hrun
        | ok countsr =>
          obtain ⟨hpl, hcl, c₁, m, hml, hbl⟩ := ihl hl hleft
          obtain ⟨hpr, hcr, c₂, k, hkr, hbr⟩ := ihr hr hright
          dsimp only at hrun
          split at hrun
          · next heven =>
            -- As many black nodes on either side: the node joins the two.
            obtain rfl : m = k := by omega
            cases hrun
            rw [Bool.not_eq_false] at hw
            refine ⟨⟨hw, hpl, hpr⟩, ?_, d, m + if d = .black then 1 else 0, ?_, ?_⟩
            · simp only [hcl, hcr, Shape.ids_node, List.length_append, List.length_cons]
              omega
            · omega
            · exact Shape.balanced_node.mpr ⟨rfl, hpair, c₁, c₂, m, hbl, hbr, rfl⟩
          · cases hrun

/-! ## Slots and counters -/

theorem entryOf_lays (h : t.slots.Lays p sh) : ∀ x ∈ sh.items, t.entryOf (some x.1) = some x.2 := by
  induction sh generalizing p with
  | nil => nofun
  | node c l i e r ihl ihr =>
    obtain ⟨hn, hl, hr⟩ := h
    intro x hx
    rcases List.mem_append.mp hx with hx | hx
    · exact ihl hl x hx
    · rcases List.mem_cons.mp hx with rfl | hx
      · simp [entryOf, hn]
      · exact ihr hr x hx

/-- Where keys ascend no slot occurs twice. -/
theorem nodup_of_ascending [Std.TransCmp cmp] (h : t.slots.Lays p sh)
    (hasc : Ascending cmp sh.entries) : sh.ids.Nodup := by
  have hitems : sh.items.Pairwise (fun a b => cmp a.2.1 b.2.1 = .lt) := List.pairwise_map.mp hasc
  refine List.pairwise_map.mpr (hitems.imp_of_mem ?_)
  intro a b ha hb hlt heq
  have hentry : a.2 = b.2 := by
    have h₁ := entryOf_lays h a ha
    have h₂ := entryOf_lays h b hb
    rw [heq, h₂] at h₁
    exact (Option.some.inj h₁).symm
  have hself : cmp b.2.1 b.2.1 = .eq := Std.ReflCmp.compare_self
  rw [hentry, hself] at hlt
  cases hlt

theorem Holds.sound (h : t.Holds sh) {n : Nat} (hb : sh.Balanced .black n) (ht : t.slots.Tidy)
    (hsize : t.size = sh.ids.length) (hlive : t.slots.live = sh.ids.length) : t.Sound sh where
  holds := h
  balanced := ⟨n, hb⟩
  tidy := ht
  occupied := by
    have hocc : ∀ i ∈ sh.ids, t.slots.contains (some i) = true := fun i hi =>
      Slots.contains_iff.mpr (get?_of_mem h.lays hi)
    exact fun i => ⟨ht.mem_of_contains h.nodup hocc hlive, hocc i⟩
  size := hsize
  live := hlive

/-! ## The audit -/

theorem audit_answers (cmp : K → K → Ordering) (t : Tree K V) : ∃ r, t.audit cmp = .ok r := by
  unfold audit
  split
  · exact ⟨_, rfl⟩
  · next hlinks =>
    obtain ⟨hroot, hmatched⟩ := checkLinks_matched hlinks
    obtain ⟨sh, hlink, hlays, hheight⟩ := hmatched.exists_lays hroot
    have hdepth : sh.height ≤ t.horizon := Nat.le_succ_of_le hheight
    obtain ⟨r, hrun⟩ := checkSubtree_answers cmp none none hlays hdepth
    split
    · exact ⟨_, rfl⟩
    · rw [hlink, hrun, ok_bind]
      cases r with
      | error finding => exact ⟨_, rfl⟩
      | ok counts =>
        dsimp only
        split
        · exact ⟨_, rfl⟩
        · split <;> exact ⟨_, rfl⟩

/-- A tree that passes is sound and its keys ascend. -/
theorem sound_of_audit [Std.TransCmp cmp] (ht : t.slots.Tidy)
    (h : t.audit cmp = .ok (.ok ())) : ∃ sh, t.Sound sh ∧ Ascending cmp sh.entries := by
  unfold audit at h
  split at h
  · cases h
  next hlinks =>
  obtain ⟨hroot, hmatched⟩ := checkLinks_matched hlinks
  obtain ⟨sh, hlink, hlays, -⟩ := hmatched.exists_lays hroot
  split at h
  · cases h
  next hcolor =>
  obtain ⟨r, hrun, h⟩ := bind_eq_ok.mp h
  cases r with
  | error finding => cases h
  | ok counts =>
    obtain ⟨count, blacks⟩ := counts
    rw [hlink] at hrun
    obtain ⟨hplaced, rfl, c, n, -, hb⟩ := placed_of_checkSubtree hlays hrun
    have hasc : Ascending cmp sh.entries := (Shape.placed_iff.mp hplaced).1
    dsimp only at h
    split at h
    · cases h
    next hsize =>
    split at h
    · cases h
    next hlive =>
    rw [not_not] at hsize hlive
    have hblack : c = .black := by
      rw [hlink, colorOf_lays hlays, hb.color_eq] at hcolor
      cases c with
      | red => exact absurd rfl hcolor
      | black => rfl
    subst hblack
    have hholds : t.Holds sh := ⟨hlink, hlays, nodup_of_ascending hlays hasc⟩
    exact ⟨sh, hholds.sound hb ht hsize.symm (hlive.trans hsize.symm), hasc⟩

theorem audit_ok_iff [Std.TransCmp cmp] (ht : t.slots.Tidy) :
    t.audit cmp = .ok (.ok ()) ↔ ∃ sh, t.Sound sh ∧ Ascending cmp sh.entries := by
  constructor
  · exact sound_of_audit ht
  · rintro ⟨sh, hsound, hasc⟩
    have hplaced : sh.Placed cmp none none :=
      Shape.placed_iff.mpr ⟨hasc, fun _ _ => rfl⟩
    rcases audit_ok cmp hsound with ⟨-, hrun⟩ | ⟨hno, -⟩
    · exact hrun
    · exact absurd hplaced hno

/-! ## Well-formed trees -/

/-- What a tree should be: its links, its colours, the order of its keys and its
two counters. -/
structure WellFormed (cmp : K → K → Ordering) (t : Tree K V) : Prop where
  /-- The root is black and has no parent. -/
  root : ∀ i, t.root = some i → t.parentOf (some i) = none ∧ t.colorOf (some i) = .black
  /-- The nodes that are reached are in occupied slots. -/
  live : ∀ way i, t.follow t.root way = some i → t.slots.contains (some i) = true
  /-- A link down to a node is matched by the link up from it. -/
  back : ∀ way s i j, t.follow t.root way = some i → t.childOf s (some i) = some j →
    t.parentOf (some j) = some i
  /-- No node is reached twice. -/
  once : ∀ way way' i, t.follow t.root way = some i → t.follow t.root way' = some i → way = way'
  /-- The keys in order ascend strictly. -/
  ordered : ∃ es, t.entries = .ok es ∧ Ascending cmp es
  /-- A red node has no red child. -/
  red : ∀ way s i, t.follow t.root way = some i → t.colorOf (some i) = .red →
    t.colorOf (t.childOf s (some i)) = .black
  /-- All ways down to a missing node pass the same number of black nodes. -/
  black : ∃ n, ∀ way, t.follow t.root way = none → t.blacksOn t.root way = n
  /-- There are as many nodes that are reached as both counters say. -/
  counted : ∃ ids : List Nat, ids.Nodup ∧ (∀ i, i ∈ ids ↔ ∃ way, t.follow t.root way = some i) ∧
    t.size = ids.length ∧ t.slots.live = ids.length

theorem WellFormed.matched (h : t.WellFormed cmp) : t.Matched t.root where
  live := fun way i hi => Slots.contains_iff.mp (h.live way i hi)
  back := h.back

theorem WellFormed.sound (h : t.WellFormed cmp) (ht : t.slots.Tidy) :
    ∃ sh, t.Sound sh ∧ Ascending cmp sh.entries := by
  have hroot : t.parentOf t.root = none := by
    cases hr : t.root with
    | none => rfl
    | some i => exact (h.root i hr).1
  obtain ⟨sh, hlink, hlays, -⟩ := h.matched.exists_lays hroot
  have hfollow : ∀ way, t.follow t.root way = (sh.down way).link := fun way => by
    rw [hlink, (follow_lays hlays way).1]
  have hnd : sh.ids.Nodup := by
    apply Shape.nodup_of_down
    intro way way' i hi hi'
    exact h.once way way' i ((hfollow way).trans hi) ((hfollow way').trans hi')
  have hholds : t.Holds sh := ⟨hlink, hlays, hnd⟩
  obtain ⟨n, hblack⟩ := h.black
  have hbal : sh.Balanced .black n := by
    have hb := balanced_of_ways hlays (hlink ▸ h.red) (hlink ▸ hblack)
    cases hl : sh.link with
    | none =>
      obtain rfl := Shape.link_eq_none.mp hl
      exact hb
    | some i =>
      have hcolor := (h.root i (hlink.trans hl)).2
      rw [← hl, colorOf_lays hlays] at hcolor
      exact hcolor ▸ hb
  obtain ⟨ids, hids, hreached, hsize, hlive⟩ := h.counted
  have hperm : ids.Perm sh.ids := by
    refine (List.perm_ext_iff_of_nodup hids hnd).mpr (fun i => ?_)
    rw [hreached, hlink]
    exact (mem_ids_iff hlays).symm
  obtain ⟨es, hes, hasc⟩ := h.ordered
  obtain rfl : sh.entries = es := Except.ok.inj (hholds.entries.symm.trans hes)
  exact ⟨sh, hholds.sound hbal ht (hsize.trans hperm.length_eq) (hlive.trans hperm.length_eq), hasc⟩

theorem wellFormed_iff (ht : t.slots.Tidy) :
    t.WellFormed cmp ↔ ∃ sh, t.Sound sh ∧ Ascending cmp sh.entries := by
  constructor
  · exact fun h => h.sound ht
  · rintro ⟨sh, hsound, hasc⟩
    have hintact := hsound.intact
    obtain ⟨ids, hids, hreached, hocc, hsize, hlive⟩ := hintact.counted
    exact
      { root := hintact.root
        live := fun way i hi => (hocc i).mp ((hreached i).mpr ⟨way, hi⟩)
        back := hintact.back
        once := hintact.once
        ordered := ⟨sh.entries, hsound.holds.entries, hasc⟩
        red := hintact.red
        black := hintact.black
        counted := ⟨ids, hids, hreached, hsize, hlive⟩ }

end Tree

/-- Whatever is in the slots and in the fields of a tree, an audit under a lawful
comparison comes to a verdict, and the verdict is that the tree is in order
exactly if it is well-formed. -/
theorem validate_iff_wellFormed [Std.TransCmp cmp] {t : Tree K V} (ht : t.slots.Tidy) :
    (∃ r, t.validate cmp = .ok r) ∧ (t.validate cmp = .ok (.ok ()) ↔ t.WellFormed cmp) ∧
      ∃ b, t.isSound cmp = .ok b ∧ (b = true ↔ t.WellFormed cmp) := by
  have hiff : t.audit cmp = .ok (.ok ()) ↔ t.WellFormed cmp :=
    (Tree.audit_ok_iff ht).trans (Tree.wellFormed_iff ht).symm
  obtain ⟨r, hr⟩ := Tree.audit_answers cmp t
  cases r with
  | ok u =>
    have hwell : t.WellFormed cmp := hiff.mp hr
    have hvalidate : t.validate cmp = .ok (.ok ()) := by simp [Tree.validate, hr]
    have hsound : t.isSound cmp = .ok true := by simp [Tree.isSound, hr, Except.isOk, Except.toBool]
    exact ⟨⟨_, hvalidate⟩, ⟨fun _ => hwell, fun _ => hvalidate⟩, _, hsound,
      fun _ => hwell, fun _ => rfl⟩
  | error finding =>
    have hno : ¬ t.WellFormed cmp := fun h => by cases hr.symm.trans (hiff.mpr h)
    have hvalidate : t.validate cmp = .ok (.error (.corrupted finding)) := by
      simp [Tree.validate, hr]
    have hsound : t.isSound cmp = .ok false := by
      simp [Tree.isSound, hr, Except.isOk, Except.toBool]
    rw [hvalidate]
    exact ⟨⟨_, rfl⟩, ⟨nofun, fun h => absurd h hno⟩, _, hsound, nofun, fun h => absurd h hno⟩

/-- A tree of a root and a red node that is its right child. -/
def rightChild : Tree Int Int where
  slots := ((Slots.empty.occupy ⟨1, 10, none, some 1, none, .black⟩).2.occupy
    ⟨2, 20, none, none, some 0, .red⟩).2
  root := some 0
  size := 2
  revision := 0

/-- The same two nodes, but the red one is both children of the root, beside a
slot that nothing links to. -/
def sharedChild : Tree Int Int where
  slots := (((Slots.empty.occupy ⟨1, 10, some 1, some 1, none, .black⟩).2.occupy
    ⟨2, 20, none, none, some 0, .red⟩).2.occupy ⟨3, 30, none, none, none, .red⟩).2
  root := some 0
  size := 3
  revision := 0

/-- The slot that nothing links to leaves the link check the step that it needs
to come twice to the child; the order of the keys gives the tree away. -/
theorem sharedChild_not_wellFormed :
    sharedChild.slots.Tidy ∧ sharedChild.checkLinks = .ok () ∧
      ¬ sharedChild.WellFormed compare ∧ rightChild.slots.Tidy ∧ rightChild.WellFormed compare := by
  have htidy : rightChild.slots.Tidy :=
    Slots.tidy_occupy (Slots.tidy_occupy Slots.tidy_empty _) _
  have htidy' : sharedChild.slots.Tidy :=
    Slots.tidy_occupy (Slots.tidy_occupy (Slots.tidy_occupy Slots.tidy_empty _) _) _
  have hpass : rightChild.validate compare = .ok (.ok ()) := rfl
  have hfail : sharedChild.validate compare = .ok (.error (.corrupted (.misplacedKey 1))) := rfl
  refine ⟨htidy', rfl, ?_, htidy, (validate_iff_wellFormed htidy).2.1.mp hpass⟩
  intro h
  have hverdict := (validate_iff_wellFormed htidy').2.1.mpr h
  cases hfail.symm.trans hverdict

end SlotTree
