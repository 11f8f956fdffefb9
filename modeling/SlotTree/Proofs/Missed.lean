import SlotTree.Proofs.Gap

/-
  Missed modifications — what a cursor does that may not have seen the tree
  last.

  A tree that has gone through `now` counted modifications has that number as
  its revision, up to a multiple of 2^64. A cursor that saw the first `seen` of
  them either saw all and stands in a gap of the list, or missed some
  (`Cursor.Saw`). What it refuses to do depends on these two numbers and on
  what it has beside it and in hand (`CursorOp.objection`), as long as it
  missed fewer than 2^64 (`CursorOp.run_saw`).
-/
namespace SlotTree

variable {K V : Type}

theorem Side.beside_map {α β : Type} (f : α → β) (s : Side) (before after : List α) :
    (s.beside before after).map f = s.beside (before.map f) (after.map f) := by
  cases s <;> simp [Side.beside]

/-- Two counts that differ by less than 2^64 are different revisions. -/
theorem revision_ne {seen now : Nat} (hlt : seen < now) (hnear : now - seen < UInt64.size) :
    UInt64.ofNat seen ≠ UInt64.ofNat now := by
  intro h
  have hmod := congrArg UInt64.toNat h
  simp only [UInt64.toNat_ofNat'] at hmod
  simp only [UInt64.size] at hnear
  omega

namespace Cursor

variable {t t' : Tree K V} {c : Cursor} {before after items items' : List (Nat × K × V)}
  {held : Option Side} {seen now n : Nat} {cmp : K → K → Ordering}

theorem Stands.moved (h : Stands t c before after held) (hk : t'.Keeps items)
    (hids : items.map (·.1) = (before ++ after).map (·.1)) (hrev : t'.revision = t.revision) :
    ∃ before' after', Stands t' c before' after' held := by
  rw [List.map_append] at hids
  obtain ⟨before', after', rfl, hbefore, hafter⟩ := List.map_eq_append_iff.mp hids
  have hbeside : ∀ s : Side,
      (s.beside before' after').map (·.1) = (s.beside before after).map (·.1) := by
    intro s
    rw [Side.beside_map, Side.beside_map, hbefore, hafter]
  refine ⟨before', after', hk, ?_, ?_, ?_, ?_, h.synced.trans hrev.symm⟩
  · exact h.previous.trans (hbeside .left).symm
  · exact h.next.trans (hbeside .right).symm
  · rw [h.inHand]
    simp only [hbeside]
  · intro s hs
    rw [← Option.isSome_map, hbeside, Option.isSome_map]
    exact h.full s hs

/-- Of the `now` modifications of a tree the cursor saw the first `seen`; one
that saw all stands in a gap of the list. -/
structure Saw (t : Tree K V) (now : Nat) (c : Cursor) (seen : Nat) : Prop where
  le : seen ≤ now
  expected : c.expected = UInt64.ofNat seen
  stands : seen = now → ∃ before after held, Stands t c before after held

/-- Modifications that go past a cursor. -/
theorem Saw.evolves (h : Saw t now c seen) (hk : t.Keeps items)
    (hev : Tree.Evolves cmp t items n t' items') : Saw t' (now + n) c seen where
  le := Nat.le_add_right_of_le h.le
  expected := h.expected
  stands := by
    intro heq
    obtain rfl : n = 0 := by
      have := h.le
      omega
    obtain ⟨before, after, held, hstands⟩ := h.stands (by simpa using heq)
    obtain rfl := hk.unique hstands.keeps
    obtain ⟨before', after', h'⟩ :=
      hstands.moved hev.keeps (hev.still rfl) (by simpa using hev.revision)
    exact ⟨before', after', held, h'⟩

theorem Stands.saw (h : Stands t c before after held) (hrev : t.revision = UInt64.ofNat now) :
    Saw t now c now :=
  ⟨Nat.le_refl _, h.synced.trans hrev, fun _ => ⟨before, after, held, h⟩⟩

/-! ## Objections -/

/-- The refusal of a cursor that saw the first `seen` of `now` modifications. -/
def lag (seen now : Nat) : Option Refusal :=
  if seen < now then some (.concurrentModification (.ofNat seen) (.ofNat now)) else none

/-- The refusal of such a cursor to do something with the entry in hand. -/
def lagInHand (c : Cursor) (seen now : Nat) (action : HeldAction) : Option Refusal :=
  if c.held = none then some (.nothingHeld action) else lag seen now

@[simp] theorem lag_self (n : Nat) : lag n n = none := by simp [lag]

end Cursor

namespace CursorOp

open Cursor

variable {t : Tree K V} {c : Cursor} {before after items : List (Nat × K × V)} {held : Option Side}
  {seen now : Nat}

/-- The refusal that an operation meets with a cursor that saw the first `seen`
of `now` modifications. -/
def objection (c : Cursor) (seen now : Nat) (op : CursorOp K V) : Option Refusal :=
  match op with
  | step s => (lag seen now).or (if c.hasEntry s then none else some .noSuchElement)
  | key => c.lagInHand seen now .readKey
  | value => c.lagInHand seen now .readValue
  | setValue _ => c.lagInHand seen now .setValue
  | remove => c.lagInHand seen now .remove
  | sweep s _ => if c.hasEntry s then lag seen now else none
  | hasEntry _ | reset | text => none

/-- Whether an operation has the cursor take note of the tree: a reset has, and
so has a change that the cursor makes itself. -/
def syncs (t : Tree K V) (c : Cursor) (op : CursorOp K V) : Bool :=
  match op with
  | reset => true
  | _ => op.changes t c != 0

/-- The operations after which, unless they are refused, the cursor has missed
nothing. -/
def settles : CursorOp K V → Bool
  | setValue _ | remove | reset => true
  | hasEntry _ | step _ | key | value | text | sweep _ _ => false

/-! ## A cursor that missed a modification -/

section Lagging

variable (hexp : c.expected = .ofNat seen) (hrev : t.revision = .ofNat now) (hlt : seen < now)
  (hnear : now - seen < UInt64.size)
include hexp hrev hlt hnear

theorem checkRevision_lag :
    ∃ x, c.checkRevision t = .error x ∧ lag seen now = some x := by
  have hne : t.revision ≠ c.expected := by
    rw [hexp, hrev]
    exact (revision_ne hlt hnear).symm
  exact ⟨_, by simp only [checkRevision, hne, if_false]; rfl, by simp [lag, hlt, hexp, hrev]⟩

theorem heldNode_lag (action : HeldAction) :
    ∃ x, c.heldNode t action = .error x ∧ c.lagInHand seen now action = some x := by
  cases hi : c.held with
  | none => exact ⟨.nothingHeld action, by simp [heldNode, hi], by simp [lagInHand, hi]⟩
  | some i =>
    obtain ⟨x, hcheck, hx⟩ := checkRevision_lag hexp hrev hlt hnear
    exact ⟨x, by simp [heldNode, hi, hcheck], by simp [lagInHand, hi, hx]⟩

/-- A cursor that missed a modification changes nothing, and refuses what needs
the tree as it saw it. Only a reset helps. -/
theorem run_lagging (op : CursorOp K V) (hop : op ≠ .reset) :
    ∃ r, op.run t c = .ok (r, c, t) ∧ op.changes t c = 0 ∧
      ∀ x, r = .refused x ↔ op.objection c seen now = some x := by
  obtain ⟨x, hcheck, hx⟩ := checkRevision_lag hexp hrev hlt hnear
  have hheld := heldNode_lag hexp hrev hlt hnear
  cases op with
  | reset => exact absurd rfl hop
  | hasEntry s => exact ⟨_, rfl, rfl, by simp [objection]⟩
  | text => exact ⟨_, rfl, rfl, by simp [objection]⟩
  | step s =>
    have hrun : run t c (.step s) = .ok (.refused x, c, t) := by simp [run, Cursor.step, hcheck]
    exact ⟨_, hrun, rfl, by simp [objection, hx]⟩
  | key =>
    obtain ⟨y, hnode, hy⟩ := hheld .readKey
    exact ⟨_, rfl, rfl, by simp [Cursor.key, heldEntry, hnode, Reply.result, objection, hy]⟩
  | value =>
    obtain ⟨y, hnode, hy⟩ := hheld .readValue
    exact ⟨_, rfl, rfl, by simp [Cursor.value, heldEntry, hnode, Reply.result, objection, hy]⟩
  | setValue v =>
    obtain ⟨y, hnode, hy⟩ := hheld .setValue
    have hrun : run t c (.setValue v) = .ok (.refused y, c, t) := by
      simp [run, Cursor.setValue, hnode]
    exact ⟨_, hrun, by simp [changes, hrun], by simp [objection, hy]⟩
  | remove =>
    obtain ⟨y, hnode, hy⟩ := hheld .remove
    have hrun : run t c .remove = .ok (.refused y, c, t) := by simp [run, Cursor.remove, hnode]
    exact ⟨_, hrun, by simp [changes, hrun], by simp [objection, hy]⟩
  | sweep s meant =>
    obtain ⟨steps, hsteps⟩ : ∃ k, t.patience = k + 1 := by
      have := t.horizon_le_patience
      simp only [Tree.horizon] at this
      exact ⟨t.patience - 1, by omega⟩
    cases hhas : c.hasEntry s with
    | false =>
      have hrun : run t c (.sweep s meant) = .ok (.list [], c, t) := by
        simp [run, hsteps, runSweep, hhas, Reply.result]
      exact ⟨_, hrun, by simp [changes, hrun], by simp [objection, hhas]⟩
    | true =>
      have hrun : run t c (.sweep s meant) = .ok (.refused x, c, t) := by
        simp [run, hsteps, runSweep, hhas, Cursor.step, hcheck, Reply.result]
      exact ⟨_, hrun, by simp [changes, hrun], by simp [objection, hhas, hx]⟩

end Lagging

/-! ## A cursor that saw everything -/

/-- What a gap refuses is what is objected to a cursor that missed nothing. -/
theorem gap_refused (h : Stands t c before after held) (op : CursorOp K V) (x : Refusal) :
    ((Gap.between before after held).run op).1 = .refused x ↔ op.objection c now now = some x := by
  have onHeld : ∀ (action : HeldAction) (f : K × V → Reply K V × Gap K V),
      (∀ e, (f e).1 ≠ .refused x) →
      (((Gap.between before after held).withHeld action f).1 = .refused x ↔
        c.lagInHand now now action = some x) := by
    intro action f hf
    cases held with
    | none =>
      have hi : c.held = none := h.inHand
      simp [Gap.withHeld, Gap.heldEntry, lagInHand, hi]
    | some s =>
      obtain ⟨i, e, -, hi, hentry⟩ := h.holding
      simp [Gap.withHeld, hentry, lagInHand, hi, hf e]
  cases op with
  | hasEntry s => simp [Gap.run, objection]
  | reset => simp [Gap.run, objection]
  | text => simp [Gap.run, objection]
  | sweep s meant => simp [Gap.run, objection]
  | step s =>
    rcases h.step_gap s with ⟨hhas, -, hgap⟩ | ⟨e, c', before', after', hhas, -, hgap, -, -, -⟩
    · simp [Gap.run, hgap, objection, hhas]
    · simp [Gap.run, hgap, objection, hhas, Reply.entry]
  | key => simpa [Gap.run, objection] using onHeld .readKey _ (by simp)
  | value => simpa [Gap.run, objection] using onHeld .readValue _ (by simp)
  | setValue v => simpa [Gap.run, objection] using onHeld .setValue _ (by simp)
  | remove => simpa [Gap.run, objection] using onHeld .remove _ (by simp [Reply.entry])

/-! ## Any cursor -/

theorem changes_of_syncs {op : CursorOp K V} (h : op.syncs t c = false) : op.changes t c = 0 := by
  cases op with
  | reset => cases h
  | _ => simpa [syncs] using h

theorem syncs_of_changes {op : CursorOp K V} (hop : op ≠ .reset) (h : op.changes t c = 0) :
    op.syncs t c = false := by
  cases op with
  | reset => exact absurd rfl hop
  | _ => simp [syncs, h]

/-- What becomes of a cursor that saw the first `seen` of the `now`
modifications of its tree, and of the tree, by an operation. -/
structure Carried (op : CursorOp K V) (t : Tree K V) (items : List (Nat × K × V)) (now : Nat)
    (c : Cursor) (seen : Nat) (r : Reply K V) (c' : Cursor) (t' : Tree K V)
    (items' : List (Nat × K × V)) : Prop where
  run : op.run t c = .ok (r, c', t')
  refused : ∀ x, r = .refused x ↔ op.objection c seen now = some x
  unchanged : ∀ x, r = .refused x → c' = c ∧ t' = t
  evolves : ∀ cmp, Tree.Evolves cmp t items (op.changes t c) t' items'
  settled : op.settles = true → (∀ x, r ≠ .refused x) → op.syncs t c = true
  saw : c'.Saw t' (now + op.changes t c) (if op.syncs t c then now + op.changes t c else seen)

theorem Carried.still {op : CursorOp K V} {r : Reply K V} (hk : t.Keeps items)
    (h : c.Saw t now seen) (hrun : op.run t c = .ok (r, c, t)) (hop : op ≠ .reset)
    (hzero : op.changes t c = 0)
    (hrefused : ∀ x, r = .refused x ↔ op.objection c seen now = some x)
    (hsettles : op.settles = true → ∃ x, op.objection c seen now = some x) :
    Carried op t items now c seen r c t items where
  run := hrun
  refused := hrefused
  settled := by
    intro hs hr
    obtain ⟨x, hx⟩ := hsettles hs
    exact absurd ((hrefused x).mpr hx) (hr x)
  unchanged := fun _ _ => ⟨rfl, rfl⟩
  evolves := by
    intro cmp
    rw [hzero]
    exact .refl cmp hk
  saw := by
    rw [syncs_of_changes hop hzero, hzero]
    exact h

/-- A cursor that missed a modification settles nothing but by a reset. -/
theorem objection_lagging {op : CursorOp K V} (hlt : seen < now) (hop : op ≠ .reset)
    (hs : op.settles = true) : ∃ x, op.objection c seen now = some x := by
  have hheld : ∀ action, ∃ x, c.lagInHand seen now action = some x := by
    intro action
    unfold lagInHand
    split
    · exact ⟨_, rfl⟩
    · exact ⟨_, by simp [lag, hlt]; rfl⟩
  cases op with
  | reset => exact absurd rfl hop
  | setValue v => exact hheld .setValue
  | remove => exact hheld .remove
  | _ => cases hs

theorem syncs_of_settles {op : CursorOp K V} (h : Stands t c before after held)
    (hs : op.settles = true) (hfine : ∀ x, op.objection c now now ≠ some x) :
    op.syncs t c = true := by
  have hheld : ∀ {action}, c.lagInHand now now action = op.objection c now now →
      ∃ s, held = some s := by
    intro action haction
    cases held with
    | some s => exact ⟨s, rfl⟩
    | none =>
      have hi : c.held = none := h.inHand
      exact absurd (by rw [← haction, lagInHand, if_pos hi]) (hfine (.nothingHeld action))
  cases op with
  | reset => rfl
  | setValue v =>
    obtain ⟨s, rfl⟩ := hheld rfl
    obtain ⟨e, c', t', -, -, hset, -⟩ := h.setValue_ok v
    simp [syncs, changes, run, hset]
  | remove =>
    obtain ⟨s, rfl⟩ := hheld rfl
    obtain ⟨e, c', t', -, -, hremove, -, -, -, hsize, -⟩ := h.remove_ok
    have hgone : t.size - t'.size ≠ 0 := by omega
    simp [syncs, changes, run, hremove, hgone]
  | _ => cases hs

theorem run_saw (hk : t.Keeps items) (hrev : t.revision = .ofNat now) (h : c.Saw t now seen)
    (hnear : now - seen < UInt64.size) (op : CursorOp K V) :
    ∃ r c' t' items', Carried op t items now c seen r c' t' items' := by
  rcases Nat.lt_or_eq_of_le h.le with hlt | rfl
  · by_cases hop : op = .reset
    · subst hop
      obtain ⟨c', hfront, hstands⟩ := front_stands hk
      exact ⟨.nothing, c', t, items, by simp [run, hfront], by simp [objection], by simp,
        fun cmp => .refl cmp hk, fun _ _ => rfl, hstands.saw hrev⟩
    · obtain ⟨r, hrun, hzero, hrefused⟩ := run_lagging h.expected hrev hlt hnear op hop
      exact ⟨r, c, t, items, .still hk h hrun hop hzero hrefused (objection_lagging hlt hop)⟩
  · obtain ⟨before, after, held, hstands⟩ := h.stands rfl
    by_cases hop : op = .text
    · subst hop
      exact ⟨.text c.text, c, t, items,
        .still hk h rfl (by simp) rfl (by simp [objection]) (by simp [settles])⟩
    · obtain ⟨r, c', t', before', after', held', hrun, hgap, hstands', hunchanged, hev⟩ :=
        run_gap hstands op hop
      obtain rfl := hk.unique hstands.keeps
      have hrev' : t'.revision = .ofNat (seen + op.changes t c) := by
        rw [(hev fun _ _ => .eq).revision, hrev, UInt64.ofNat_add]
      have hrefused : ∀ x, r = .refused x ↔ op.objection c seen seen = some x := by
        intro x
        rw [← gap_refused hstands, hgap]
      refine ⟨r, c', t', before' ++ after', hrun, hrefused, hunchanged, hev, ?_, ?_⟩
      · intro hs hr
        apply syncs_of_settles hstands hs
        intro x hx
        exact hr x ((hrefused x).mpr hx)
      · -- The cursor stands in the new tree, so it saw all there is to see, noted or not.
        have hsaw := hstands'.saw hrev'
        cases hs : op.syncs t c with
        | true => simpa using hsaw
        | false => simpa [changes_of_syncs hs] using hsaw

end CursorOp

end SlotTree
