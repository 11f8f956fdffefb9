import SlotTree.Tree.Erase
import SlotTree.Proofs.MendBlack
import SlotTree.Proofs.Search
import SlotTree.Proofs.Sound

/-
  Removal — what taking a node out does to the list of items.

  A node with one child is black and its child is red, so the child takes its
  place and its colour (`unlink_child`). A leaf is cut off after the repair, if
  it needs one, has made room for the missing black node (`unlink_leaf`). A
  node with two children hands its slot to the entry that follows and the slot
  of that one is freed instead (`Vacates`).

  `eraseNode_vacates` is the specification that everything which removes entries
  rests on. Where it does not matter which slot becomes vacant, `eraseNode_ok`
  says the rest: the items after the removed one are the old ones, of which the
  first may have moved (`Shifted`).
-/
namespace SlotTree.Tree

variable {K V : Type} {t : Tree K V} {up : Trail K V} {s : Side} {c : Color} {sub : Shape K V}
  {i j : Nat} {e e' : K × V} {items before after : List (Nat × K × V)}

/-! ## Taking a node out of the links -/

theorem splice_ok (h : t.Focus up (.branch s c sub i e .nil)) (hj : sub.link = some j) :
    ∃ t₁ t', t.setParent j up.hook = .ok t₁ ∧ t₁.replaceChild up.hook i (some j) = .ok t' ∧
      t.Rewired t' ∧ t'.Focus up sub := by
  obtain ⟨-, hsub, -⟩ := Slots.lays_branch.mp h.lays
  have hnd := h.nodup_branch
  simp only [Shape.ids_nil, List.append_nil, List.cons_append, List.nodup_cons, List.mem_append,
    not_or] at hnd
  obtain ⟨⟨hisub, hiup⟩, hnd⟩ := hnd
  have hjsub := Shape.mem_ids_of_link hj
  have hjup : j ∉ up.ids := fun hm => (List.nodup_append.mp hnd).2.2 j hjsub j hm rfl
  obtain ⟨n, hn⟩ := get?_of_mem hsub hjsub
  have hcj : t.slots.contains (some j) = true := by simp [Slots.contains, hn]
  -- The child is linked to its new parent first; the trail does not see this.
  let t₁ : Tree K V :=
    { t with slots := t.slots.update (some j) (fun n => { n with parent := up.hook }) }
  have off : ∀ k, k ≠ j → t₁.slots.get? (some k) = t.slots.get? (some k) :=
    fun k hk => Slots.get?_update_of_ne _ _ (fun he => hk (Option.some.inj he).symm)
  have hl := h.leads
  have hroot := h.root
  rw [Shape.link_branch] at hl hroot
  have hl₁ : t₁.slots.Leads up (some i) := hl.congr (fun k hk => off k (fun he => hjup (he ▸ hk)))
  obtain ⟨t', hrun, hw, hroot', hl', hget⟩ := replaceChild_ok hl₁ hroot
    (List.nodup_cons.mpr ⟨hiup, (List.nodup_append.mp hnd).2.1⟩) (some j)
  have hsub₁ : t₁.slots.Lays up.hook sub := by
    refine hsub.hang (List.nodup_append.mp hnd).1 ?_ (fun k _ hk => off k (by simpa [hj] using hk))
    rw [hj]
    exact Slots.get?_update_self t.slots (some j) _
  refine ⟨t₁, t', setParent_ok hcj _, hrun, (Rewired.setParent t _ _).trans hw, ?_⟩
  refine ⟨by rw [hroot', hj], by rwa [hj], hsub₁.congr (fun k hk => hget k (fun hu => ?_)), hnd⟩
  exact (List.nodup_append.mp hnd).2.2 k hk k hu rfl

theorem prune_ok (h : t.Focus up (.branch s c .nil i e .nil)) :
    ∃ t', t.replaceChild up.hook i none = .ok t' ∧ t.Rewired t' ∧ t'.Focus up .nil := by
  have hnd := h.nodup_branch
  have hl := h.leads
  have hroot := h.root
  rw [Shape.link_branch] at hl hroot
  simp only [Shape.ids_nil, List.append_nil, List.cons_append, List.nil_append] at hnd
  obtain ⟨t', hrun, hw, hroot', hl', -⟩ := replaceChild_ok hl hroot hnd none
  exact ⟨t', hrun, hw, hroot', hl', trivial, (List.nodup_cons.mp hnd).2⟩

theorem unlink_child (h : t.Focus up (.branch s c sub i e .nil)) (hj : sub.link = some j)
    {m : Nat} (hb : (up.fill (.branch s c sub i e .nil)).Balanced .black m) :
    ∃ t', t.unlink i = .ok t' ∧ t.Rewired t' ∧ t'.Focus up (sub.paint .black) ∧
      ∃ m, (up.fill (sub.paint .black)).Balanced .black m := by
  obtain ⟨c', n, hup, hbal⟩ := Trail.takes_of_fill hb
  obtain ⟨rfl, rfl, rfl, hred⟩ := hbal.only_child hj
  obtain ⟨t₁, t₂, hset, hreplace, hw, hf⟩ := splice_ok h hj
  have hmend := mendBlack_red hf hred.color_eq (Nat.lt_of_le_of_lt (Nat.zero_le _)
    hf.length_lt_patience)
  refine ⟨_, ?_, hw.trans (.recolor ..), hf.recolor .black, hup.fill hred.paint_red⟩
  rw [hj] at hmend
  simp only [unlink, node_ok h.get?, ok_bind, Shape.link_nil, Node.left_or_right_of, hj,
    Node.parent_of, hset, hreplace, Node.color_of, if_true, hmend]

/-- A leaf below a node is cut off after the repair, if it is black and needs one. -/
theorem unlink_below {f : Crumb K V} {t₁ : Tree K V} {up₁ : Trail K V}
    (h : t.Focus (.under f up) (.branch s c .nil i e .nil))
    (hrun : (if c = .black then t.mendBlack (some i) else pure t) = .ok t₁) (hw : t.Rewired t₁)
    (hf : t₁.Focus up₁ (.branch s c .nil i e .nil)) (hbeside : (Trail.under f up).Beside up₁) :
    ∃ t', t.unlink i = .ok t' ∧ t.Rewired t' ∧ t'.Focus up₁ .nil := by
  obtain ⟨t', hreplace, hw', hf'⟩ := prune_ok hf
  refine ⟨t', ?_, hw.trans hw', hf'⟩
  -- The trail has not lost the node `f`.
  obtain ⟨g, up₁, rfl⟩ := hbeside.exists_under
  simp only [unlink, node_ok h.get?, ok_bind, Shape.link_nil, Node.left_or_right_of,
    Node.parent_of, Trail.hook_under, Node.color_of]
  by_cases hc : c = .black
  · rw [if_pos hc] at hrun
    simp only [hc, if_true, hrun, ok_bind]
    rw [hc] at hf
    simp only [node_ok hf.get?, ok_bind, Node.parent_of, Trail.hook_under]
    exact hreplace
  · rw [if_neg hc] at hrun
    obtain rfl := Except.ok.inj hrun
    simp only [hc, if_false, pure_ok, ok_bind, node_ok hf.get?, Node.parent_of, Trail.hook_under]
    exact hreplace

theorem unlink_leaf (h : t.Focus up (.branch s c .nil i e .nil)) {m : Nat}
    (hb : (up.fill (.branch s c .nil i e .nil)).Balanced .black m) :
    ∃ t' up', t.unlink i = .ok t' ∧ t.Rewired t' ∧ t'.Focus up' .nil ∧ up.Beside up' ∧
      ∃ m, (up'.fill .nil).Balanced .black m := by
  obtain ⟨c', n, hup, hbal⟩ := Trail.takes_of_fill hb
  cases up with
  | top =>
    refine ⟨{ t with root := none }, .top, ?_, .reroot t none,
      ⟨rfl, trivial, trivial, by simp [Trail.ids]⟩, .refl _, 0, .nil⟩
    simp only [unlink, node_ok h.get?, ok_bind, Shape.link_nil, Node.left_or_right_of,
      Node.parent_of, Trail.hook_top, pure_ok]
  | under f up =>
    cases c with
    | red =>
      obtain ⟨rfl, hnil, -⟩ := Shape.balanced_red.mp hbal
      cases hnil
      obtain ⟨t', hrun, hw, hf⟩ := unlink_below h rfl (.refl t) h (.refl _)
      exact ⟨t', _, hrun, hw, hf, .refl _, (hup.of_red _).fill .nil⟩
    | black =>
      obtain ⟨rfl, k, c₁, c₂, rfl, hnil, -⟩ := Shape.balanced_black.mp hbal
      cases hnil
      obtain ⟨t₁, up₁, hmend, hw₁, hf₁, htakes, hbeside⟩ :=
        mendBlack_ok h (by simp) (by simp) hup h.length_lt_patience
      obtain ⟨t', hrun, hw, hf⟩ := unlink_below h (by simpa using hmend) hw₁ hf₁ hbeside
      exact ⟨t', _, hrun, hw, hf, hbeside, htakes.fill .nil⟩

theorem unlink_ok {sh : Shape K V} (h : t.Sound sh) (hs : sh.items = before ++ (i, e) :: after)
    {n : Node K V} (hn : t.slots.get? (some i) = some n) (hone : n.left = none ∨ n.right = none) :
    ∃ t' sh', t.unlink i = .ok t' ∧ t.Rewired t' ∧ t'.Holds sh' ∧
      (∃ m, sh'.Balanced .black m) ∧ sh'.items = before ++ after := by
  obtain ⟨up, c, l, r, rfl, hf, rfl, rfl⟩ := h.holds.focus_at hs
  obtain ⟨m, hm⟩ := h.balanced
  obtain rfl := Option.some.inj (hn.symm.trans (Focus.get? (s := .left) hf))
  -- The node, seen from the side on which it may have a child.
  obtain ⟨s, sub, hnode, hitems⟩ : ∃ (s : Side) (sub : Shape K V),
      Shape.node c l i e r = .branch s c sub i e .nil ∧ l.items ++ r.items = sub.items := by
    rcases hone with hl | hr
    · obtain rfl := Shape.link_eq_none.mp hl
      exact ⟨.right, r, rfl, rfl⟩
    · obtain rfl := Shape.link_eq_none.mp hr
      exact ⟨.left, l, rfl, by simp [Shape.items]⟩
  rw [hnode] at hf hm
  have hout : up.beyond .left ++ l.items ++ (r.items ++ up.beyond .right) =
      up.beyond .left ++ sub.items ++ up.beyond .right := by
    simp [← hitems]
  rw [hout]
  cases hj : sub.link with
  | none =>
    obtain rfl := Shape.link_eq_none.mp hj
    obtain ⟨t', up', hrun, hw, hf', hbeside, hb⟩ := unlink_leaf hf hm
    refine ⟨t', _, hrun, hw, holds_fill.mpr hf', hb, ?_⟩
    rw [Trail.items_fill, hbeside, hbeside]
  | some j =>
    obtain ⟨t', hrun, hw, hf', hb⟩ := unlink_child hf hj hm
    refine ⟨t', _, hrun, hw, holds_fill.mpr hf', hb, ?_⟩
    rw [Trail.items_fill, Shape.items_paint]

/-! ## Removing an entry -/

/-- The items after a removed one: those from before, of which the first may
have moved to the slot `i`. -/
inductive Shifted (i : Nat) : List (Nat × K × V) → List (Nat × K × V) → Prop where
  | same {after : List (Nat × K × V)} : Shifted i after after
  | moved {j : Nat} {e : K × V} {rest : List (Nat × K × V)} :
    Shifted i ((j, e) :: rest) ((i, e) :: rest)

theorem Shifted.entries {after' : List (Nat × K × V)} (h : Shifted i after after') :
    after'.map (·.2) = after.map (·.2) := by
  cases h <;> rfl

/-- The items after the removed one in slot `i`, before and afterwards, and the
slot that becomes vacant: `i` itself, or the slot of the following item, which
moves to `i`, if the node has two children. -/
inductive Vacates (t : Tree K V) (i : Nat) :
    List (Nat × K × V) → List (Nat × K × V) → Nat → Prop where
  | stays {after : List (Nat × K × V)} :
    (∃ s, t.childOf s (some i) = none) → Vacates t i after after i
  | moves {j : Nat} {e : K × V} {rest : List (Nat × K × V)} :
    (∀ s, t.childOf s (some i) ≠ none) → Vacates t i ((j, e) :: rest) ((i, e) :: rest) j

theorem Vacates.shifted {after' : List (Nat × K × V)} (h : t.Vacates i after after' j) :
    Shifted i after after' := by
  cases h with
  | stays => exact .same
  | moves => exact .moved

/-- Taking a node with at most one child out and freeing its slot removes its
item. -/
theorem free_ok (h : t.Keeps (before ++ (i, e) :: after)) {n : Node K V}
    (hn : t.slots.get? (some i) = some n) (hone : n.left = none ∨ n.right = none) :
    ∃ t₁ gone slots, t.unlink i = .ok t₁ ∧ t₁.slots.release (some i) = .ok (some (gone, slots)) ∧
      gone.entry = e ∧ t₁.revision = t.revision ∧ t₁.size = (before ++ after).length + 1 ∧
      ({ t₁ with slots := slots, size := (before ++ after).length } : Tree K V).Keeps
        (before ++ after) ∧ slots.free = i :: t.slots.free := by
  obtain ⟨hfits, sh, hsound, hs⟩ := h
  obtain ⟨t₁, sh', hrun, hw, hsh, hb, hitems⟩ := unlink_ok hsound hs hn hone
  have hentry : t₁.entryOf (some i) = some e := by
    rw [hw.entryOf]
    exact hsound.holds.entryOf hs
  obtain ⟨gone, hgone, rfl⟩ : ∃ gone, t₁.slots.get? (some i) = some gone ∧ gone.entry = e := by
    simpa [Tree.entryOf] using hentry
  have htidy := hw.tidy hsound.tidy
  -- The slots of the old shape are those of the new one and `i`.
  have hids : sh.ids.Perm (i :: sh'.ids) := by
    rw [Shape.ids, hs, Shape.ids, hitems]
    simp
  have hout : i ∉ sh'.ids := (List.nodup_cons.mp (hids.nodup_iff.mp hsound.holds.nodup)).1
  have hlen : sh.ids.length = (before ++ after).length + 1 := by
    rw [hids.length_eq, List.length_cons, Shape.ids, List.length_map, hitems]
  have hfits' : (t₁.slots.released i).size ≤ absentNumber := by
    rw [Slots.size_released, hw.room]
    exact hfits
  have hlays : (t₁.slots.released i).Lays none sh' := by
    refine hsh.lays.congr (fun j hj => ?_)
    have hne : j ≠ i := fun he => hout (he ▸ hj)
    rw [Slots.get?_released, if_neg (by simpa using hne)]
  refine ⟨t₁, gone, t₁.slots.released i, hrun, Slots.release_ok htidy hgone, rfl, hw.revision, ?_,
    ⟨hfits', sh', ⟨⟨hsh.root, hlays, hsh.nodup⟩, hb, Slots.tidy_released htidy hgone, fun j => ?_,
      ?_, ?_⟩, hitems⟩, congrArg (i :: ·) hw.free⟩
  · rw [hw.size, hsound.size, hlen]
  · have hocc := hsound.occupied j
    rw [← hw.contains, hids.mem_iff, List.mem_cons] at hocc
    simp only [Slots.contains, Slots.get?_released, Option.some.injEq] at hocc ⊢
    by_cases hj : j = i
    · subst hj
      simpa using hout
    · simpa [hj] using hocc
  · rw [Shape.ids, List.length_map, hitems]
  · have hlive : (t₁.slots.released i).live = t₁.slots.live - 1 := rfl
    have hl := hsound.live
    rw [← hw.live, hids.length_eq, List.length_cons] at hl
    rw [hlive, hl]
    rfl

theorem swapEntries_ok (h : t.Keeps (before ++ (i, e) :: (j, e') :: after)) :
    (t.swapEntries i j).Keeps (before ++ (i, e') :: (j, e) :: after) ∧
      (t.swapEntries i j).revision = t.revision ∧
      (t.swapEntries i j).slots.free = t.slots.free ∧
      ∀ s, (t.swapEntries i j).childOf s (some j) = t.childOf s (some j) := by
  have hnd := h.nodup
  have hij : i ≠ j := by
    simp only [List.map_append, List.map_cons, List.nodup_append, List.nodup_cons,
      List.mem_cons] at hnd
    exact fun he => hnd.2.1.1 (.inl he)
  obtain ⟨x, hx, hxe⟩ := h.get?
  obtain ⟨y, hy, hye⟩ : ∃ n, t.slots.get? (some j) = some n ∧ n.entry = e' := by
    have h' : t.Keeps ((before ++ [(i, e)]) ++ (j, e') :: after) := by simpa using h
    exact h'.get?
  -- The two slots are changed one after the other, each with its item in the list.
  let slots₁ := t.slots.update (some i) (fun _ => x.withEntry y.entry)
  let slots₂ := slots₁.update (some j) (fun _ => y.withEntry x.entry)
  have hswap : t.swapEntries i j = { t with slots := slots₂ } := by
    simp [swapEntries, Slots.updatePair_eq, hx, hy, hij, slots₁, slots₂]
  have hy₁ : slots₁.get? (some j) = some y :=
    (Slots.get?_update_of_ne _ _ (by simpa using hij)).trans hy
  have h₁ : ({ t with slots := slots₁ } : Tree K V).Keeps
      ((before ++ [(i, e')]) ++ (j, e') :: after) := by
    rw [List.append_assoc, List.singleton_append]
    refine h.update (fun n hn => ?_)
    rw [← Option.some.inj (hx.symm.trans hn), hye]
  have h₂ : ({ t with slots := slots₂ } : Tree K V).Keeps
      ((before ++ [(i, e')]) ++ (j, e) :: after) := by
    refine h₁.update (fun n hn => ?_)
    rw [← Option.some.inj (hy₁.symm.trans hn), hxe]
  rw [hswap]
  refine ⟨by simpa using h₂, rfl, by simp [slots₂, slots₁], fun s => ?_⟩
  simp only [Tree.childOf, slots₂, Slots.get?_update_self, hy₁, hy, Option.map_some,
    Option.bind_some]
  cases s <;> rfl

theorem slide_child {s : Side} {steps : Nat} (h : t.slide s steps i = .ok j) :
    t.childOf s (some j) = none := by
  induction steps generalizing i with
  | zero => cases h
  | succ steps ih =>
    cases hn : t.slots.get? (some i) with
    | none => simp [slide, node, Slots.fetch, hn] at h
    | some n =>
      simp only [slide, node_ok hn, ok_bind] at h
      cases hc : n.child s with
      | none =>
        simp only [hc, Except.ok.injEq] at h
        subst h
        simp [Tree.childOf, hn, hc]
      | some k =>
        simp only [hc] at h
        exact ih h

/-! ## The slot to free -/

/-- A tree prepared for the removal of the item in slot `i`: its entry lies in the
slot `j`, whose node lacks a child. Once that slot is free, the items after the
removed one start at `next`. -/
structure Prepared (t : Tree K V) (before : List (Nat × K × V)) (i : Nat) (e : K × V)
    (after : List (Nat × K × V)) (t₁ : Tree K V) (j : Nat) (next : Link) : Prop where
  revision : t₁.revision = t.revision
  free : t₁.slots.free = t.slots.free
  lacks : ∃ n, t₁.slots.get? (some j) = some n ∧ (n.left = none ∨ n.right = none)
  items : ∃ before' rest after', t₁.Keeps (before' ++ (j, e) :: rest) ∧
    before' ++ rest = before ++ after' ∧ next = after'.head?.map (·.1) ∧
    t.Vacates i after after' j

theorem chooseTarget_single (h : t.Keeps (before ++ (i, e) :: after)) {n : Node K V}
    (hn : t.slots.get? (some i) = some n) (hone : n.left = none ∨ n.right = none) :
    ∃ t₁ j next, t.chooseTarget i n = .ok (t₁, j, next) ∧
      t.Prepared before i e after t₁ j next := by
  have hlacks : ∃ s, t.childOf s (some i) = none := by
    rcases hone with hl | hr
    · exact ⟨.left, (childOf_eq hn .left).trans hl⟩
    · exact ⟨.right, (childOf_eq hn .right).trans hr⟩
  refine ⟨t, i, _, ?_, rfl, rfl, ⟨n, hn, hone⟩, before, after, after, h, rfl, rfl, .stays hlacks⟩
  have hnext := h.neighbour_right
  rcases hone with hl | hr
  · simp [chooseTarget, hl, hnext]
  · cases hl : n.left <;> simp [chooseTarget, hl, hr, hnext]

/-- A node with two children exchanges entries with the following one, which is
the leftmost one below its right child. -/
theorem chooseTarget_double (h : t.Keeps (before ++ (i, e) :: after)) {n : Node K V}
    (hn : t.slots.get? (some i) = some n) (hl : n.left ≠ none) (hr : n.right ≠ none) :
    ∃ t₁ j next, t.chooseTarget i n = .ok (t₁, j, next) ∧
      t.Prepared before i e after t₁ j next := by
  have hfull : ∀ s, t.childOf s (some i) ≠ none := by
    intro s
    rw [childOf_eq hn]
    cases s
    · exact hl
    · exact hr
  obtain ⟨hfits, sh, hsound, hs⟩ := h
  obtain ⟨up, c, l, r, rfl, hf, hbefore, hafter⟩ := hsound.holds.focus_at hs
  have hnode := Option.some.inj (hn.symm.trans (Focus.get? (s := .left) hf))
  obtain ⟨a, ha⟩ := Option.ne_none_iff_exists'.mp hl
  obtain ⟨b, hb⟩ := Option.ne_none_iff_exists'.mp hr
  have hlink : r.link = some b := by rw [← hb, hnode]; rfl
  obtain ⟨j, hrun, hj⟩ := outermost_ok (s := .left) (Focus.far (s := .left) hf) hlink
  obtain ⟨e', rest, rfl⟩ : ∃ e' rest, after = (j, e') :: rest := by
    cases hr : r.items with
    | nil => simp [Side.tip, hr] at hj
    | cons x xs =>
      obtain ⟨k, e'⟩ := x
      simp only [Side.tip, hr, List.head?_cons, Option.map_some, Option.some.injEq] at hj
      subst hj
      exact ⟨e', xs ++ up.beyond .right, by simp [hafter, hr]⟩
  have hk : t.Keeps (before ++ (i, e) :: (j, e') :: rest) := ⟨hfits, _, hsound, hs⟩
  obtain ⟨hswap, hrev, hstack, hkept⟩ := swapEntries_ok hk
  have hswap' : (t.swapEntries i j).Keeps ((before ++ [(i, e')]) ++ (j, e) :: rest) := by
    simpa using hswap
  obtain ⟨m, hm, -⟩ := hswap'.get?
  have hleft : m.left = none := by
    have hchild := (hkept .left).trans (slide_child hrun)
    simpa [Tree.childOf, hm, Node.child] using hchild
  have hchoose : t.chooseTarget i n = .ok (t.swapEntries i j, j, some i) := by
    simp [chooseTarget, ha, hb, hrun]
  exact ⟨t.swapEntries i j, j, some i, hchoose, hrev, hstack, ⟨m, hm, .inl hleft⟩,
    before ++ [(i, e')], rest, (i, e') :: rest, hswap', by simp, rfl, .moves hfull⟩

/-- Removing a node answers its entry and where the entry that followed is
now, and puts the slot that it vacates on top of the free stack; all other
entries stay where they are. -/
theorem eraseNode_vacates (h : t.Keeps (before ++ (i, e) :: after)) :
    ∃ r after' freed, t.eraseNode (some i) = .ok (some r) ∧ (r.key, r.value) = e ∧
      r.next = after'.head?.map (·.1) ∧ r.tree.revision = t.revision + 1 ∧
      r.tree.Keeps (before ++ after') ∧ t.Vacates i after after' freed ∧
      r.tree.slots.free = freed :: t.slots.free := by
  obtain ⟨n, hn, -⟩ := h.get?
  obtain ⟨t₁, j, next, hchoose, hprepared⟩ : ∃ t₁ j next,
      t.chooseTarget i n = .ok (t₁, j, next) ∧ t.Prepared before i e after t₁ j next := by
    by_cases hone : n.left = none ∨ n.right = none
    · exact chooseTarget_single h hn hone
    · rw [not_or] at hone
      exact chooseTarget_double h hn hone.1 hone.2
  obtain ⟨m, hm, hlacks⟩ := hprepared.lacks
  obtain ⟨before', rest, after', hk, hlist, hnext, hvacates⟩ := hprepared.items
  obtain ⟨t₂, gone, slots, hunlink, hrelease, hgone, hrev, hsize, hk₂, hfree⟩ :=
    free_ok hk hm hlacks
  rw [hlist] at hk₂ hsize
  refine ⟨⟨gone.key, gone.value, next,
    { t₂ with slots := slots, size := (before ++ after').length }.touched⟩, after', j, ?_, hgone,
    hnext, ?_, hk₂.touched, hvacates, ?_⟩
  · simp [eraseNode, hn, hchoose, hunlink, hrelease, hsize, countDown]
  · simp [touched, hrev, hprepared.revision]
  · rw [← hprepared.free]
    exact hfree

theorem eraseNode_ok (h : t.Keeps (before ++ (i, e) :: after)) :
    ∃ r after', t.eraseNode (some i) = .ok (some r) ∧ (r.key, r.value) = e ∧
      r.next = after'.head?.map (·.1) ∧ r.tree.revision = t.revision + 1 ∧
      r.tree.Keeps (before ++ after') ∧ Shifted i after after' := by
  obtain ⟨r, after', freed, hrun, he, hnext, hrev, hk, hvacates, -⟩ := eraseNode_vacates h
  exact ⟨r, after', hrun, he, hnext, hrev, hk, hvacates.shifted⟩

end SlotTree.Tree
