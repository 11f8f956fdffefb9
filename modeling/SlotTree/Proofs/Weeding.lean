import SlotTree.Proofs.Confined
import SlotTree.Proofs.Placing
import SlotTree.Proofs.Roaming

/-
  Weeding — all ways of removing some of the entries leave the same tree.

  A tree is weeded from its first entry to its last one by taking each entry
  that is meant and passing over the others (`Tree.Weeds`). What is taken out is
  the node that a removal is called on, and the run goes on with the entries
  that followed it, wherever the removal has put them.

  Some removals go on from the link that the last one reported, and some search
  again from the root, by a key or for the end of a window. All of them take the
  same step: a search among sorted entries finds the slot that was reported
  (`find_at`, `Window.pop_first`). So each of them is a weeding, and since a
  weeding is determined by the tree it starts from, they all leave that one tree
  down to the last slot, the free stack and the revision (`Window.Emptied`).

  For one key there are more ways to remove it, and these agree as well
  (`Tree.Rid`).
-/
namespace SlotTree

variable {K V : Type} {cmp : K → K → Ordering}

/-! ## Removals that name several keys -/

/-- Removes keys one after the other and answers the stored entries. -/
def Tree.removeEntries (cmp : K → K → Ordering) :
    Tree K V → List K → Except Fault (List (Option (K × V)) × Tree K V)
  | t, [] => .ok ([], t)
  | t, key :: rest => do
    let (e, t) ← t.removeEntry cmp key
    let (es, t) ← removeEntries cmp t rest
    return (e :: es, t)

/-- Taking the least entry of a window until there is none takes these entries
and leaves this tree. -/
inductive Window.Drains (cmp : K → K → Ordering) (w : Window K) :
    Tree K V → List (K × V) → Tree K V → Prop where
  | done {t t' : Tree K V} : w.pop cmp t .left = .ok (none, t') → Drains cmp w t [] t'
  | take {t t₁ t' : Tree K V} {e : K × V} {es : List (K × V)} :
    w.pop cmp t .left = .ok (some e, t₁) → Drains cmp w t₁ es t' → Drains cmp w t (e :: es) t'

/-- Whether a visit leaves all values alone and removes the keys that are
meant. -/
def Spares {σ : Type} (visit : σ → K → V → σ × V × Bool) (meant : K → Bool) : Prop :=
  ∀ state key value, (visit state key value).2 = (value, !meant key)

namespace Tree

variable {t t' : Tree K V} {items before after pre : List (Nat × K × V)} {i : Nat} {e : K × V}
  {key : K} {meant : K → Bool}

/-! ## One removal -/

/-- The removal of a node: what it answers, and the items after the gap. -/
structure Erases (t : Tree K V) (before : List (Nat × K × V)) (i : Nat) (e : K × V)
    (after : List (Nat × K × V)) (r : Removed K V) (after' : List (Nat × K × V)) : Prop where
  run : t.eraseNode (some i) = .ok (some r)
  entry : (r.key, r.value) = e
  next : r.next = after'.head?.map (·.1)
  keeps : r.tree.Keeps (before ++ after')
  entries : after'.map (·.2) = after.map (·.2)

theorem exists_erases (h : t.Keeps (before ++ (i, e) :: after)) :
    ∃ r after', t.Erases before i e after r after' := by
  obtain ⟨r, after', hrun, hentry, hnext, -, hk, hshift⟩ := eraseNode_ok h
  exact ⟨r, after', hrun, hentry, hnext, hk, hshift.entries⟩

namespace Erases

variable {r : Removed K V} {after' : List (Nat × K × V)} (he : t.Erases before i e after r after')
include he

theorem takeNode : t.takeNode (some i) = .ok (some e, r.tree) := by
  simp [Tree.takeNode, he.run, he.entry]

theorem length_eq : after'.length = after.length := by
  simpa using congrArg List.length he.entries

theorem ascending (ha : Ascending cmp ((before ++ (i, e) :: after).map (·.2))) :
    Ascending cmp ((before ++ after').map (·.2)) := by
  rw [List.map_append, List.map_cons] at ha
  rw [List.map_append, he.entries]
  exact List.Pairwise.sublist (List.Sublist.append_left (List.sublist_cons_self _ _) _) ha

end Erases

theorem find_at [Std.TransCmp cmp] (h : t.Keeps (before ++ (i, e) :: after))
    (ha : Ascending cmp ((before ++ (i, e) :: after).map (·.2))) (hkey : cmp key e.1 = .eq) :
    t.find cmp key = .ok (some i) := by
  obtain ⟨l, hrun, hl⟩ := find_found cmp h key
  cases hl with
  | absent hnone => exact absurd hkey (hnone ha e (by simp))
  | @present before₁ after₁ j e₁ hitems heq =>
    -- All other keys lie before or after this one.
    have hp := parts_at ha hkey
    have hm : (j, e₁) ∈ before ++ (i, e) :: after := by simp [hitems]
    rcases List.mem_append.mp hm with hb | hm
    · have hgt := hp.before e₁ (List.mem_map_of_mem hb)
      rw [heq] at hgt
      cases hgt
    · rcases List.mem_cons.mp hm with hi | hafter
      · obtain ⟨rfl, rfl⟩ := Prod.mk.inj hi
        exact hrun
      · have hlt := hp.after e₁ (List.mem_map_of_mem hafter)
        rw [heq] at hlt
        cases hlt

/-! ## Weeding -/

/-- From the gap between two lists of items onwards, every entry that is meant
is taken. -/
inductive Weeds (meant : K → Bool) :
    Tree K V → List (Nat × K × V) → List (Nat × K × V) → Tree K V → Prop where
  | done {t : Tree K V} {before : List (Nat × K × V)} : Weeds meant t before [] t
  | keep {t t' : Tree K V} {before after : List (Nat × K × V)} {i : Nat} {e : K × V} :
    meant e.1 = false → Weeds meant t (before ++ [(i, e)]) after t' →
    Weeds meant t before ((i, e) :: after) t'
  | take {t t' : Tree K V} {before after after' : List (Nat × K × V)} {i : Nat} {e : K × V}
    {r : Removed K V} :
    meant e.1 = true → t.Erases before i e after r after' → Weeds meant r.tree before after' t' →
    Weeds meant t before ((i, e) :: after) t'

theorem exists_weeds (meant : K → Bool) (h : t.Keeps (before ++ after)) :
    ∃ t', Weeds meant t before after t' := by
  -- A removal may move the entry that follows: the induction is on how many are left.
  induction hn : after.length generalizing t before after with
  | zero =>
    obtain rfl := List.length_eq_zero_iff.mp hn
    exact ⟨t, .done⟩
  | succ n ih =>
    cases after with
    | nil => cases hn
    | cons x after =>
      obtain ⟨i, e⟩ := x
      have hlen : after.length = n := Nat.succ.inj hn
      cases hmeant : meant e.1 with
      | false =>
        have hk : t.Keeps ((before ++ [(i, e)]) ++ after) := by rwa [← List.append_cons]
        obtain ⟨t', hw⟩ := ih hk hlen
        exact ⟨t', .keep hmeant hw⟩
      | true =>
        obtain ⟨r, after', he⟩ := exists_erases h
        obtain ⟨t', hw⟩ := ih he.keeps (he.length_eq.trans hlen)
        exact ⟨t', .take hmeant he hw⟩

namespace Weeds

theorem idle (hw : Weeds meant t before after t')
    (hnone : ∀ e ∈ after.map (·.2), meant e.1 = false) : t' = t := by
  induction hw with
  | done => rfl
  | keep _ _ ih => exact ih (fun e he => hnone e (List.mem_cons_of_mem _ he))
  | take hmeant =>
    rw [hnone _ (List.mem_cons_self ..)] at hmeant
    cases hmeant

theorem skip (hw : Weeds meant t before (pre ++ after) t')
    (hnone : ∀ e ∈ pre.map (·.2), meant e.1 = false) : Weeds meant t (before ++ pre) after t' := by
  induction pre generalizing before with
  | nil => simpa using hw
  | cons x pre ih =>
    cases hw with
    | keep _ hw =>
      rw [List.append_cons]
      exact ih hw (fun e he => hnone e (List.mem_cons_of_mem _ he))
    | take hmeant =>
      rw [hnone _ (List.mem_cons_self ..)] at hmeant
      cases hmeant

theorem congr {meant' : K → Bool} (hw : Weeds meant t before after t')
    (heq : ∀ e ∈ after.map (·.2), meant' e.1 = meant e.1) : Weeds meant' t before after t' := by
  induction hw with
  | done => exact .done
  | keep hmeant _ ih =>
    refine .keep ?_ (ih (fun e he => heq e (List.mem_cons_of_mem _ he)))
    rw [heq _ (List.mem_cons_self ..), hmeant]
  | take hmeant he _ ih =>
    rw [he.entries] at ih
    refine .take ?_ he (ih (fun e he => heq e (List.mem_cons_of_mem _ he)))
    rw [heq _ (List.mem_cons_self ..), hmeant]

/-! ## Removals by key -/

theorem removeEntries [Std.TransCmp cmp] (hw : Weeds meant t before after t')
    (h : t.Keeps (before ++ after)) (ha : Ascending cmp ((before ++ after).map (·.2)))
    {keys : List K} (hkeys : List.Forall₂ (fun key e => cmp key e.1 = .eq) keys
      ((after.map (·.2)).filter (fun e => meant e.1))) :
    t.removeEntries cmp keys =
      .ok (((after.map (·.2)).filter (fun e => meant e.1)).map some, t') := by
  induction hw generalizing keys with
  | done =>
    cases hkeys
    rfl
  | keep hmeant _ ih =>
    rw [List.append_cons] at h ha
    simp only [List.map_cons, List.filter_cons, hmeant, Bool.false_eq_true, if_false] at hkeys ⊢
    exact ih h ha hkeys
  | @take t t' before after after' i e r hmeant he _ ih =>
    simp only [List.map_cons, List.filter_cons, hmeant, if_true] at hkeys ⊢
    cases hkeys with
    | cons hkey hkeys =>
      rw [← he.entries] at hkeys
      have hrest := ih he.keeps (he.ascending ha) hkeys
      rw [he.entries] at hrest
      simp [Tree.removeEntries, removeEntry, find_at h ha hkey, he.takeNode, hrest]

end Weeds

/-! ## Visits -/

theorem setValue_same {n : Node K V} (hn : t.slots.get? (some i) = some n) :
    t.setValue i n.value = .ok t := by
  have hc : t.slots.contains (some i) = true := by simp [Slots.contains, hn]
  have hsame : t.slots.update (some i) (fun m => { m with value := n.value }) = t.slots := by
    apply Slots.update_same
    intro m hm
    obtain rfl := Option.some.inj (hn.symm.trans hm)
    rfl
  rw [setValue, reviseNode_ok hc, hsame]

theorem Weeds.retainFrom {σ : Type} {visit : σ → K → V → σ × V × Bool}
    (hvisit : Spares visit meant) (hw : Weeds meant t before after t')
    (h : t.Keeps (before ++ after)) {steps : Nat} (hp : after.length ≤ steps) (state : σ) :
    ∃ last, retainFrom visit steps t state (after.head?.map (·.1)) = .ok (last, t') := by
  induction hw generalizing steps state with
  | done => exact ⟨state, by cases steps <;> rfl⟩
  | @keep t t' before after i e hmeant _ ih =>
    obtain ⟨n, hn, rfl⟩ := h.get?
    obtain ⟨steps, rfl⟩ := Nat.exists_eq_add_one.mpr (Nat.zero_lt_of_lt hp)
    obtain ⟨state₁, hstate⟩ : ∃ state₁, visit state n.key n.value = (state₁, n.value, true) :=
      ⟨_, Prod.ext rfl (by rw [hvisit, show meant n.key = false from hmeant]; rfl)⟩
    have hk : t.Keeps ((before ++ [(i, n.entry)]) ++ after) := by rwa [← List.append_cons]
    obtain ⟨last, hrun⟩ := ih hk (Nat.le_of_succ_le_succ hp) state₁
    refine ⟨last, ?_⟩
    simp [Tree.retainFrom, node_ok hn, hstate, setValue_same hn, h.neighbour_right, hrun]
  | @take t t' before after after' i e r hmeant he _ ih =>
    obtain ⟨n, hn, rfl⟩ := h.get?
    obtain ⟨steps, rfl⟩ := Nat.exists_eq_add_one.mpr (Nat.zero_lt_of_lt hp)
    obtain ⟨state₁, hstate⟩ : ∃ state₁, visit state n.key n.value = (state₁, n.value, false) :=
      ⟨_, Prod.ext rfl (by rw [hvisit, show meant n.key = true from hmeant]; rfl)⟩
    have hlen : after'.length ≤ steps := by
      rw [he.length_eq]
      exact Nat.le_of_succ_le_succ hp
    obtain ⟨last, hrun⟩ := ih he.keeps hlen state₁
    refine ⟨last, ?_⟩
    simp [Tree.retainFrom, node_ok hn, hstate, setValue_same hn, he.run, he.next, hrun]

theorem Weeds.retain {σ : Type} {visit : σ → K → V → σ × V × Bool} (hvisit : Spares visit meant)
    (hw : Weeds meant t [] items t') (h : t.Keeps items) (start : σ) :
    ∃ last, t.retain visit start = .ok (last, t') := by
  have hfirst : t.firstNode = .ok (items.head?.map (·.1)) := h.endNode .left
  have hlen : items.length ≤ t.patience := Nat.le_of_lt h.length_lt_patience
  obtain ⟨last, hrun⟩ := hw.retainFrom hvisit h hlen start
  exact ⟨last, by simp [Tree.retain, hfirst, hrun]⟩

end Tree

/-! ## Cursors -/

section Sweeping

variable {t t' : Tree K V} {c : Cursor} {items before after : List (Nat × K × V)} {i : Nat}
  {e : K × V} {held : Option Side} {meant : K → Bool}

/-- A cursor that has just passed an entry removes its node and stands in the
gap. -/
theorem Cursor.Stands.remove_erases {after' : List (Nat × K × V)} {r : Removed K V}
    (h : Stands t c (before ++ [(i, e)]) after (some .left))
    (he : t.Erases before i e after r after') :
    ∃ c', c.remove t = .ok (.ok (e, c', r.tree)) ∧ Stands r.tree c' before after' none := by
  have hi : c.held = some i := by simpa [Side.beside] using h.inHand
  have hk : t.Keeps (before ++ (i, e) :: after) := by
    rw [List.append_cons]
    exact h.keeps
  refine ⟨_, ?_, stands_between he.keeps⟩
  simp [Cursor.remove, h.heldNode_ok hi, hk.neighbour_left, he.run, he.entry, he.next]

theorem Tree.Weeds.runSweep (hw : Weeds meant t before after t') (h : c.Stands t before after held)
    {steps : Nat} (hp : after.length < steps) (seen : List K) :
    ∃ c', CursorOp.runSweep .right (fun _ => meant) steps t c seen =
      .ok (.ok (seen.reverse ++ after.map (·.2.1)), c', t') := by
  induction hw generalizing steps c held seen with
  | done =>
    obtain ⟨steps, rfl⟩ := Nat.exists_eq_add_one.mpr (Nat.zero_lt_of_lt hp)
    have hend : c.hasEntry .right = false := by simp [Cursor.hasEntry, h.beside_eq, Side.beside]
    exact ⟨c, by simp [CursorOp.runSweep, hend]⟩
  | @keep t t' before after i e hmeant _ ih =>
    obtain ⟨steps, rfl⟩ := Nat.exists_eq_add_one.mpr (Nat.zero_lt_of_lt hp)
    have hnext : c.hasEntry .right = true := by simp [Cursor.hasEntry, h.beside_eq, Side.beside]
    obtain ⟨c₁, hstep, hstands⟩ := h.step_right rfl
    obtain ⟨c', hrun⟩ := ih hstands (Nat.lt_of_succ_lt_succ hp) (e.1 :: seen)
    refine ⟨c', ?_⟩
    simp [CursorOp.runSweep, hnext, hstep, hmeant, hrun]
  | @take t t' before after after' i e r hmeant he _ ih =>
    obtain ⟨steps, rfl⟩ := Nat.exists_eq_add_one.mpr (Nat.zero_lt_of_lt hp)
    have hnext : c.hasEntry .right = true := by simp [Cursor.hasEntry, h.beside_eq, Side.beside]
    obtain ⟨c₁, hstep, hstands⟩ := h.step_right rfl
    obtain ⟨c₂, hremove, hgap⟩ := hstands.remove_erases he
    have hlen : after'.length < steps := by
      rw [he.length_eq]
      exact Nat.lt_of_succ_lt_succ hp
    obtain ⟨c', hrun⟩ := ih hgap hlen (e.1 :: seen)
    have hkeys : after'.map (·.2.1) = after.map (·.2.1) := by
      have := congrArg (List.map (·.1)) he.entries
      simpa [List.map_map, Function.comp_def] using this
    refine ⟨c', ?_⟩
    simp [CursorOp.runSweep, hnext, hstep, hmeant, hremove, hrun, hkeys]

theorem Tree.Weeds.sweep (hw : Weeds meant t [] items t') (h : t.Keeps items) :
    ∃ c c', Cursor.front t = .ok c ∧ (CursorOp.sweep .right (fun _ => meant)).run t c =
      .ok (.list ((items.map (·.2.1)).map .key), c', t') := by
  obtain ⟨c, hfront, hstands⟩ := Cursor.front_stands h
  obtain ⟨c', hrun⟩ := hw.runSweep hstands h.length_lt_patience []
  refine ⟨c, c', hfront, ?_⟩
  simp [CursorOp.run, hrun, Reply.result]

theorem Cursor.seek_at [Std.TransCmp cmp] (h : t.Keeps (before ++ (i, e) :: after))
    (ha : Ascending cmp ((before ++ (i, e) :: after).map (·.2))) {key : K}
    (hkey : cmp key e.1 = .eq) :
    ∃ c, seek cmp t key = .ok c ∧ Stands t c before ((i, e) :: after) none := by
  have hp := Tree.parts_at ha hkey
  have hnear := Tree.nearest_tip h ha .right true key
  rw [Side.cut_inclusive, List.filter_append, List.filter_cons, hp.filter_before, hp.filter_after,
    hkey] at hnear
  refine ⟨_, ?_, stands_between h⟩
  simp [seek, hnear, Side.tip, Side.other, Side.order, h.neighbour_left]

end Sweeping

/-! ## Windows -/

theorem Interval.not_within_of_beyond [Std.OrientedCmp cmp] {i : Interval K} {s : Side} {key : K}
    (h : i.isBeyond cmp s key = true) : i.within cmp key = false := by
  rw [Bool.eq_false_iff]
  intro hin
  rw [not_isBeyond hin s] at h
  cases h

namespace Window

variable {t t' : Tree K V} {items before after : List (Nat × K × V)} {i : Nat} {e : K × V}
  {w : Window K}

/-- The least entry of a window is found at the first item that lies in it. -/
theorem pop_first [Std.TransCmp cmp] {r : Removed K V} {after' : List (Nat × K × V)}
    (h : t.Keeps (before ++ (i, e) :: after))
    (ha : Ascending cmp ((before ++ (i, e) :: after).map (·.2)))
    (hbefore : ∀ e ∈ before.map (·.2), w.interval.within cmp e.1 = false)
    (hin : w.interval.within cmp e.1 = true) (he : t.Erases before i e after r after') :
    w.pop cmp t .left = .ok (some e, r.tree) := by
  have hnone : w.interval.stretch cmp before = [] := by
    apply List.filter_eq_nil_iff.mpr
    intro x hx
    have hout : w.interval.within cmp x.2.1 = false := hbefore x.2 (List.mem_map.mpr ⟨x, hx, rfl⟩)
    simp [hout]
  have hend : w.endNode cmp t .left = .ok (some i) := by
    rw [endNode_inside h ha]
    rw [Interval.stretch] at hnone ⊢
    simp [List.filter_append, hnone, hin, Side.tip]
  simp [pop, hend, he.takeNode]

end Window

namespace Tree.Weeds

variable {t t' : Tree K V} {items before after : List (Nat × K × V)} {w : Window K}
  [Std.TransCmp cmp]

/-- Taking the least entry of a window again and again is a weeding. -/
theorem drains (hw : Weeds (w.interval.within cmp) t before after t')
    (h : t.Keeps (before ++ after)) (ha : Ascending cmp ((before ++ after).map (·.2)))
    (hbefore : ∀ e ∈ before.map (·.2), w.interval.within cmp e.1 = false) :
    w.Drains cmp t (w.interval.inside cmp (after.map (·.2))) t' := by
  induction hw with
  | @done t before =>
    rw [List.append_nil] at h ha
    have hnone : w.interval.inside cmp (before.map (·.2)) = [] := by
      apply List.filter_eq_nil_iff.mpr
      intro e he
      simp [hbefore e he]
    apply Window.Drains.done
    apply Window.pop_none h ha
    rw [hnone]
    rfl
  | @keep t t' before after i e hout _ ih =>
    rw [List.append_cons] at h ha
    have hskip : w.interval.inside cmp (((i, e) :: after).map (·.2)) =
        w.interval.inside cmp (after.map (·.2)) := by
      simp [Interval.inside, hout]
    rw [hskip]
    apply ih h ha
    intro x hx
    rw [List.map_append] at hx
    rcases List.mem_append.mp hx with hx | hx
    · exact hbefore x hx
    · obtain rfl := List.mem_singleton.mp hx
      exact hout
  | @take t t' before after after' i e r hin he _ ih =>
    have hrest := ih he.keeps (he.ascending ha) hbefore
    rw [he.entries] at hrest
    have hfirst : w.interval.inside cmp (((i, e) :: after).map (·.2)) =
        e :: w.interval.inside cmp (after.map (·.2)) := by
      simp [Interval.inside, hin]
    rw [hfirst]
    exact .take (Window.pop_first h ha hbefore hin he) hrest

theorem clearFrom (hw : Weeds (w.interval.within cmp) t before after t')
    (h : t.Keeps (before ++ after)) (ha : Ascending cmp ((before ++ after).map (·.2)))
    (hwithin : ∀ e ∈ after.map (·.2),
      w.interval.within cmp e.1 = !w.interval.isBeyond cmp .right e.1) {steps : Nat}
    (hp : after.length < steps) :
    w.clearFrom cmp steps t (after.head?.map (·.1)) = .ok t' := by
  induction hw generalizing steps with
  | done =>
    obtain ⟨steps, rfl⟩ := Nat.exists_eq_add_one.mpr (Nat.zero_lt_of_lt hp)
    rfl
  | @keep t t' before after i e hout hw _ =>
    obtain ⟨steps, rfl⟩ := Nat.exists_eq_add_one.mpr (Nat.zero_lt_of_lt hp)
    have hbeyond : w.interval.isBeyond cmp .right e.1 = true := by
      have he := hwithin e (by simp)
      rw [hout] at he
      simpa using he.symm
    -- All that follows is greater, so it is beyond the upper end too.
    have hrest : ∀ e' ∈ after.map (·.2), w.interval.within cmp e'.1 = false := by
      intro e' he'
      have hlt : cmp e.1 e'.1 = .lt := by
        rw [List.map_append, List.map_cons] at ha
        exact List.rel_of_pairwise_cons (List.pairwise_append.mp ha).2.1 he'
      have hgt : cmp e'.1 e.1 = Side.right.order := Std.OrientedCmp.gt_of_lt hlt
      rw [hwithin e' (by simp [he']), Interval.isBeyond, Bound.isBeyond_mono hgt hbeyond]
      rfl
    obtain rfl := hw.idle hrest
    simp [Window.clearFrom, h.keyOf, hbeyond]
  | @take t t' before after after' i e r hin he _ ih =>
    obtain ⟨steps, rfl⟩ := Nat.exists_eq_add_one.mpr (Nat.zero_lt_of_lt hp)
    have hnot : w.interval.isBeyond cmp .right e.1 = false := Interval.not_isBeyond hin .right
    have hlen : after'.length < steps := by
      rw [he.length_eq]
      exact Nat.lt_of_succ_lt_succ hp
    have hrest : ∀ e' ∈ after'.map (·.2),
        w.interval.within cmp e'.1 = !w.interval.isBeyond cmp .right e'.1 := by
      intro e' he'
      rw [he.entries] at he'
      exact hwithin e' (List.mem_cons_of_mem _ he')
    have hrun := ih he.keeps (he.ascending ha) hrest hlen
    simp [Window.clearFrom, h.keyOf, hnot, he.run, he.next, hrun]

/-- Removing all entries of a window at once, from a gap that has none of them
before it. -/
theorem clear_onwards (hw : Weeds (w.interval.within cmp) t [] (before ++ after) t')
    (h : t.Keeps (before ++ after)) (ha : Ascending cmp ((before ++ after).map (·.2)))
    (hend : w.endNode cmp t .left = .ok (after.head?.map (·.1)))
    (hbefore : ∀ e ∈ before.map (·.2), w.interval.within cmp e.1 = false)
    (hwithin : ∀ e ∈ after.map (·.2),
      w.interval.within cmp e.1 = !w.interval.isBeyond cmp .right e.1) :
    w.clear cmp t = .ok t' := by
  have hrun := (hw.skip hbefore).clearFrom h ha hwithin h.after_lt_patience
  rw [Window.clear, hend, ok_bind, hrun]

theorem clear (hw : Weeds (w.interval.within cmp) t [] items t') (h : t.Keeps items)
    (ha : Ascending cmp (items.map (·.2))) : w.clear cmp t = .ok t' := by
  obtain ⟨before, after, hitems, hbefore, hafter⟩ := w.interval.stretch_split ha
  have hend := Window.endNode_inside (w := w) h ha .left
  have outside : ∀ {s : Side} {l : List (Nat × K × V)},
      (∀ x ∈ l, w.interval.isBeyond cmp s x.2.1 = true) →
      ∀ e ∈ l.map (·.2), w.interval.within cmp e.1 = false := by
    intro s l hl e he
    obtain ⟨x, hx, rfl⟩ := List.mem_map.mp he
    exact Interval.not_within_of_beyond (hl x hx)
  cases hstretch : w.interval.stretch cmp items with
  | nil =>
    -- With nothing inside, the removal stands behind the whole list.
    have hrest : ∀ e ∈ items.map (·.2), w.interval.within cmp e.1 = false := by
      rw [hstretch, List.append_nil] at hitems
      rw [hitems, List.map_append]
      intro e he
      rcases List.mem_append.mp he with he | he
      · exact outside hbefore e he
      · exact outside hafter e he
    rw [hstretch] at hend
    rw [← List.append_nil items] at hw h ha
    exact hw.clear_onwards h ha hend hrest (by simp)
  | cons x stretch =>
    have hhead : w.endNode cmp t .left =
        .ok ((w.interval.stretch cmp items ++ after).head?.map (·.1)) := by
      rw [hend, hstretch]
      rfl
    have hwithin : ∀ e ∈ (w.interval.stretch cmp items ++ after).map (·.2),
        w.interval.within cmp e.1 = !w.interval.isBeyond cmp .right e.1 := by
      intro e he
      rw [List.map_append] at he
      rcases List.mem_append.mp he with he | he
      · rw [Interval.entries_stretch] at he
        have hin := (List.mem_filter.mp he).2
        rw [hin, Interval.not_isBeyond hin .right]
        rfl
      · obtain ⟨x, hx, rfl⟩ := List.mem_map.mp he
        rw [outside hafter x.2 he, hafter x hx]
        rfl
    rw [List.append_assoc] at hitems
    generalize w.interval.stretch cmp items ++ after = rest at hitems hhead hwithin
    subst hitems
    exact hw.clear_onwards h ha hhead (outside hbefore) hwithin

end Tree.Weeds

/-! ## All removals -/

variable {t t' : Tree K V} {items before after : List (Nat × K × V)} {i : Nat} {e : K × V}

/-- Every way of removing the entries of a window from a tree with the entries
of a list leaves the tree `t'`. -/
structure Window.Emptied (cmp : K → K → Ordering) (t : Tree K V) (es : List (K × V))
    (w : Window K) (t' : Tree K V) : Prop where
  /-- All entries of the window are removed at once. -/
  clear : w.clear cmp t = .ok t'
  /-- The least entry of the window is taken until there is none. -/
  drain : w.Drains cmp t (w.interval.inside cmp es) t'
  /-- The whole tree is visited, and the visit keeps the keys outside. -/
  retain : ∀ {σ : Type} (visit : σ → K → V → σ × V × Bool) (start : σ),
    Spares visit (w.interval.within cmp) → ∃ last, t.retain visit start = .ok (last, t')
  /-- A cursor goes from the front to the end and removes what it passes inside. -/
  sweep : ∃ c c', Cursor.front t = .ok c ∧
    (CursorOp.sweep .right (fun _ => w.interval.within cmp)).run t c =
      .ok (.list ((es.map (·.1)).map .key), c', t')
  /-- Each key is removed by itself, in increasing order. -/
  removals : ∀ keys, List.Forall₂ (fun key e => cmp key e.1 = .eq) keys (w.interval.inside cmp es) →
    t.removeEntries cmp keys = .ok ((w.interval.inside cmp es).map some, t')

theorem Tree.Weeds.emptied [Std.TransCmp cmp] {w : Window K}
    (hw : Weeds (w.interval.within cmp) t [] items t') (h : t.Keeps items)
    (ha : Ascending cmp (items.map (·.2))) : w.Emptied cmp t (items.map (·.2)) t' where
  clear := hw.clear h ha
  drain := hw.drains h ha nofun
  retain := fun _ start hvisit => hw.retain hvisit h start
  sweep := by simpa [Function.comp_def] using hw.sweep h
  removals := fun _ hkeys => hw.removeEntries h ha hkeys

/-- Every way of removing one key from a tree answers its entry and leaves the
tree `t'`. -/
structure Tree.Rid (cmp : K → K → Ordering) (t : Tree K V) (key : K) (e : K × V)
    (t' : Tree K V) : Prop where
  entry : t.removeEntry cmp key = .ok (some e, t')
  value : t.remove cmp key = .ok (some e.2, t')
  /-- The key is removed through any window that it lies in. -/
  view : ∀ w : Window K, w.interval.within cmp key = true →
    w.remove cmp t key = .ok (.ok (some e.2, t'))
  /-- A cursor placed before the key steps over the entry and removes it. -/
  cursor : ∃ c c₁ c₂, Cursor.seek cmp t key = .ok c ∧ c.step t .right = .ok (.ok (e, c₁)) ∧
    c₁.remove t = .ok (.ok (e, c₂, t'))
  /-- The whole tree is visited, and the visit keeps all other keys. -/
  retain : ∀ {σ : Type} (visit : σ → K → V → σ × V × Bool) (start : σ),
    Spares visit (fun k => cmp key k == .eq) → ∃ last, t.retain visit start = .ok (last, t')

theorem Tree.Weeds.rid [Std.TransCmp cmp] {key : K}
    (hw : Weeds (fun k => cmp key k == .eq) t [] (before ++ (i, e) :: after) t')
    (h : t.Keeps (before ++ (i, e) :: after))
    (ha : Ascending cmp ((before ++ (i, e) :: after).map (·.2))) (hkey : cmp key e.1 = .eq) :
    t.Rid cmp key e t' := by
  have hp := parts_at ha hkey
  have hbefore : ∀ x ∈ before.map (·.2), (cmp key x.1 == .eq) = false := by
    intro x hx
    rw [hp.before x hx]
    rfl
  have hafter : ∀ x ∈ after.map (·.2), (cmp key x.1 == .eq) = false := by
    intro x hx
    rw [hp.after x hx]
    rfl
  -- The one entry that is meant is taken, and nothing after it.
  cases hw.skip hbefore with
  | keep hother =>
    simp [hkey] at hother
  | @take _ _ _ _ after' _ _ r _ he hrest =>
    have hnone : ∀ x ∈ after'.map (·.2), (cmp key x.1 == .eq) = false := by
      rw [he.entries]
      exact hafter
    obtain rfl := hrest.idle hnone
    have hentry : t.removeEntry cmp key = .ok (some e, r.tree) := by
      simp [removeEntry, find_at h ha hkey, he.takeNode]
    have hvalue : t.remove cmp key = .ok (some e.2, r.tree) := by simp [remove, hentry]
    refine ⟨hentry, hvalue, ?_, ?_, ?_⟩
    · intro w hin
      rw [Interval.within_eq] at hin
      have hadmits : w.admits cmp key = true := hin
      simp [Window.remove, Window.checkKey, hadmits, hvalue]
    · obtain ⟨c, hseek, hstands⟩ := Cursor.seek_at h ha hkey
      obtain ⟨c₁, hstep, hpassed⟩ := hstands.step_right rfl
      obtain ⟨c₂, hremove, -⟩ := hpassed.remove_erases he
      exact ⟨c, c₁, c₂, hseek, hstep, hremove⟩
    · intro σ visit start hvisit
      exact hw.retain hvisit h start

variable [Written K] [Written V] [DecidableEq K] [DecidableEq V]
  {C : (K → K → Ordering) → Prop} {s : Session K V} {number : Nat}

/-- After any run under a lawful comparison all ways of removing the entries of
a window leave one and the same tree, and so do all ways of removing a key that
is there; where the key is the only one in a window, the two trees are one. -/
theorem roamed_removals_agree (h : Roams C s) (hgov : Governs C cmp) (ht : s.tree number = .ok t) :
    ∃ es, t.entries = .ok es ∧ (∀ w : Window K, ∃ t', w.Emptied cmp t es t') ∧
      ∀ key, ∀ e ∈ es, cmp key e.1 = .eq → ∃ t', t.Rid cmp key e t' ∧
        ∀ w : Window K, (∀ x ∈ es, w.interval.within cmp x.1 = (cmp key x.1 == .eq)) →
          w.Emptied cmp t es t' := by
  obtain ⟨items, hk, hasc⟩ := h.keeps number t ht
  have := hgov.lawful
  have ha := hasc cmp hgov
  have weeds : ∀ meant : K → Bool, ∃ t', t.Weeds meant [] items t' := by
    intro meant
    apply Tree.exists_weeds
    exact hk
  refine ⟨items.map (·.2), hk.entries, ?_, ?_⟩
  · intro w
    obtain ⟨t', hw⟩ := weeds (w.interval.within cmp)
    exact ⟨t', hw.emptied hk ha⟩
  · intro key e he hkey
    obtain ⟨t', hw⟩ := weeds (fun k => cmp key k == .eq)
    refine ⟨t', ?_, ?_⟩
    · obtain ⟨⟨i, e⟩, hm, rfl⟩ := List.mem_map.mp he
      obtain ⟨before, after, rfl⟩ := List.append_of_mem hm
      exact hw.rid hk ha hkey
    · intro w honly
      exact (hw.congr honly).emptied hk ha

/-- Entries 3 and 5 removed in all ways, of which the first one has two children,
and 5 alone. -/
theorem fourEntries_removed :
    ∃ (s : Session Int Int) (l : Ledger) (t t' t'' : Tree Int Int),
      Session.blank.follow .blank fourEntries = some (s, l) ∧ s.tree 0 = .ok t ∧
        Window.Emptied compare t [(1, 10), (3, 30), (5, 50), (7, 70)]
          ⟨⟨.included 3, .excluded 7⟩⟩ t' ∧
        t'.entries = .ok [(1, 10), (7, 70)] ∧ t.Rid compare 5 (5, 50) t'' ∧
        Window.Emptied compare t [(1, 10), (3, 30), (5, 50), (7, 70)]
          ⟨⟨.excluded 3, .excluded 7⟩⟩ t'' := by
  have hrun : Session.blank.follow .blank fourEntries = some _ := rfl
  have hreach := Reaches.follow (C := (· = compare)) .blank (by simp [fourEntries]) hrun
  obtain ⟨es, hes, hall, hone⟩ :=
    @roamed_removals_agree Int Int compare _ _ _ _ _ _ _ 0 hreach.roams
      ⟨inferInstance, fun _ h => h⟩ rfl
  have hentries : es = [(1, 10), (3, 30), (5, 50), (7, 70)] := Except.ok.inj (hes.symm.trans rfl)
  rw [hentries] at hall hone
  obtain ⟨t', hempty⟩ := hall ⟨⟨.included 3, .excluded 7⟩⟩
  obtain ⟨t'', hrid, honly⟩ := hone 5 (5, 50) (by decide) rfl
  refine ⟨_, _, _, t', t'', hrun, rfl, hempty, ?_, hrid, honly _ (by decide)⟩
  obtain rfl := Except.ok.inj (hempty.clear.symm.trans rfl)
  rfl

end SlotTree
