import SlotTree.Session.CursorOp
import SlotTree.Proofs.Changes

/-
  Gaps — a cursor is a gap in the list of entries.

  A `Gap` is the list of entries before it, the list after it and the side on
  which the entry returned last lies, if it is still there. What a cursor's
  operations do to a gap is said without links, slots or colours (`Gap.run`).

  `Cursor.Stands` relates the two: the cursor's links are those of the items
  beside the gap. Each operation keeps the relation and answers what the gap
  answers (`CursorOp.run_gap`), also when a removal has moved the following
  entry to another slot.
-/
namespace SlotTree

variable {K V : Type}

/-- The item beside a gap on one side. -/
def Side.beside {α : Type} (s : Side) (before after : List α) : Option α :=
  match s with
  | .left => before.getLast?
  | .right => after.head?

/-- A gap in a list of entries, and the side on which the entry returned last
lies. -/
structure Gap (K V : Type) where
  before : List (K × V)
  after : List (K × V)
  held : Option Side

namespace Gap

/-- All entries. -/
def entries (g : Gap K V) : List (K × V) := g.before ++ g.after

/-- The entry beside the gap on one side. -/
def beside (g : Gap K V) (s : Side) : Option (K × V) := s.beside g.before g.after

/-- The entry returned last, if it is still there. -/
def heldEntry (g : Gap K V) : Option (K × V) := g.held.bind g.beside

/-- Steps over the entry on one side. -/
def step (g : Gap K V) : Side → Option ((K × V) × Gap K V)
  | .right =>
    match g.after with
    | [] => none
    | e :: after => some (e, ⟨g.before ++ [e], after, some .left⟩)
  | .left =>
    match g.before.getLast? with
    | none => none
    | some e => some (e, ⟨g.before.dropLast, e :: g.after, some .right⟩)

/-- Puts a value in place of the value returned last. -/
def setValue (g : Gap K V) (v : V) : Gap K V :=
  match g.held with
  | some .left => { g with before := g.before.dropLast ++ (g.before.getLast?.map (·.1, v)).toList }
  | some .right => { g with after := (g.after.head?.map (·.1, v)).toList ++ g.after.tail }
  | none => g

/-- Removes the entry returned last. -/
def remove (g : Gap K V) : Gap K V :=
  match g.held with
  | some .left => ⟨g.before.dropLast, g.after, none⟩
  | some .right => ⟨g.before, g.after.tail, none⟩
  | none => g

/-- The number of entries on one side. -/
def distance (g : Gap K V) : Side → Nat
  | .left => g.before.length
  | .right => g.after.length

/-- Steps to the end on one side and removes the entries that are meant; lists
the keys passed. -/
def sweep (s : Side) (meant : Nat → K → Bool) : Nat → Gap K V → List K → List K × Gap K V
  | 0, g, seen => (seen.reverse, g)
  | n + 1, g, seen =>
    match g.step s with
    | none => (seen.reverse, g)
    | some (e, g) =>
      sweep s meant n (if meant seen.length e.1 then g.remove else g) (e.1 :: seen)

/-- What is done with the entry returned last, or the refusal that there is
none. -/
def withHeld (g : Gap K V) (action : HeldAction) (f : K × V → Reply K V × Gap K V) :
    Reply K V × Gap K V :=
  match g.heldEntry with
  | none => (.refused (.nothingHeld action), g)
  | some e => f e

/-- Carries out an operation. The text of a cursor shows slots and is left
out. -/
def run (g : Gap K V) : CursorOp K V → Reply K V × Gap K V
  | .hasEntry s => (.flag (g.beside s).isSome, g)
  | .step s =>
    match g.step s with
    | none => (.refused .noSuchElement, g)
    | some (e, g) => (.entry e, g)
  | .key => g.withHeld .readKey (fun e => (.key e.1, g))
  | .value => g.withHeld .readValue (fun e => (.value e.2, g))
  | .setValue v => g.withHeld .setValue (fun e => (.value e.2, g.setValue v))
  | .remove => g.withHeld .remove (fun e => (.entry e, g.remove))
  | .reset => (.nothing, ⟨[], g.entries, none⟩)
  | .text => (.nothing, g)
  | .sweep s meant =>
    let (keys, g) := g.sweep s meant (g.distance s) []
    (.list (keys.map .key), g)

/-- The gap between two lists of items. -/
def between (before after : List (Nat × K × V)) (held : Option Side) : Gap K V :=
  ⟨before.map (·.2), after.map (·.2), held⟩

@[simp] theorem beside_between (before after : List (Nat × K × V)) (held : Option Side) (s : Side) :
    (between before after held).beside s = (s.beside before after).map (·.2) := by
  cases s <;> simp [between, beside, Side.beside]

@[simp] theorem held_between (before after : List (Nat × K × V)) (held : Option Side) :
    (between before after held).held = held := rfl

@[simp] theorem entries_between (before after : List (Nat × K × V)) (held : Option Side) :
    (between before after held).entries = (before ++ after).map (·.2) := by
  simp [between, entries]

end Gap

namespace Cursor

/-- The cursor stands between two lists of items of a tree that it has seen
last, with the item on one side in hand or none. -/
structure Stands (t : Tree K V) (c : Cursor) (before after : List (Nat × K × V))
    (held : Option Side) : Prop where
  keeps : t.Keeps (before ++ after)
  previous : c.previous = before.getLast?.map (·.1)
  next : c.next = after.head?.map (·.1)
  inHand : c.held = held.bind (fun s => (s.beside before after).map (·.1))
  full : ∀ s, held = some s → (s.beside before after).isSome
  synced : c.expected = t.revision

variable {t : Tree K V} {c : Cursor} {before after : List (Nat × K × V)} {held : Option Side}

theorem checkRevision_ok (h : c.expected = t.revision) : c.checkRevision t = .ok () := by
  simp [checkRevision, h]

theorem stands_between (h : t.Keeps (before ++ after)) :
    Stands t (between t (before.getLast?.map (·.1)) (after.head?.map (·.1))) before after none :=
  ⟨h, rfl, rfl, rfl, nofun, rfl⟩

/-- Every gap of the list has a cursor, which a placement may find. -/
theorem front_stands {items : List (Nat × K × V)} (h : t.Keeps items) :
    ∃ c, front t = .ok c ∧ Stands t c [] items none := by
  have hfirst : t.firstNode = .ok (items.head?.map (·.1)) := h.endNode .left
  exact ⟨_, by simp only [front, hfirst, ok_bind, pure_ok]; rfl, @stands_between K V t [] items h⟩

theorem back_stands {items : List (Nat × K × V)} (h : t.Keeps items) :
    ∃ c, back t = .ok c ∧ Stands t c items [] none := by
  have hlast : t.lastNode = .ok (items.getLast?.map (·.1)) := h.endNode .right
  have h' : t.Keeps (items ++ []) := by simpa using h
  exact ⟨_, by simp only [back, hlast, ok_bind, pure_ok]; rfl, stands_between h'⟩

namespace Stands

variable (h : Stands t c before after held)
include h

theorem beside_eq (s : Side) : c.beside s = (s.beside before after).map (·.1) := by
  cases s with
  | left => exact h.previous
  | right => exact h.next

/-! ## Steps -/

theorem step_right {i : Nat} {e : K × V} {rest : List (Nat × K × V)} (hs : after = (i, e) :: rest) :
    ∃ c', c.step t .right = .ok (.ok (e, c')) ∧
      Stands t c' (before ++ [(i, e)]) rest (some .left) := by
  subst hs
  have hk := h.keeps
  refine ⟨c.passed .right i (rest.head?.map (·.1)), ?_, ?_⟩
  · simp [Cursor.step, checkRevision_ok h.synced, h.beside_eq, Side.beside, hk.neighbour_right,
      hk.entryOf]
  · refine ⟨by simpa using hk, by simp [passed], rfl, by simp [passed, Side.beside], ?_, h.synced⟩
    rintro s hs
    obtain rfl := Option.some.inj hs
    simp [Side.beside]

theorem step_left {i : Nat} {e : K × V} {rest : List (Nat × K × V)}
    (hs : before = rest ++ [(i, e)]) :
    ∃ c', c.step t .left = .ok (.ok (e, c')) ∧
      Stands t c' rest ((i, e) :: after) (some .right) := by
  subst hs
  have hk : t.Keeps (rest ++ (i, e) :: after) := by simpa using h.keeps
  refine ⟨c.passed .left i (rest.getLast?.map (·.1)), ?_, ?_⟩
  · simp [Cursor.step, checkRevision_ok h.synced, h.beside_eq, Side.beside, hk.neighbour_left,
      hk.entryOf]
  · refine ⟨hk, rfl, rfl, rfl, ?_, h.synced⟩
    rintro s hs
    obtain rfl := Option.some.inj hs
    simp [Side.beside]

theorem step_gap (s : Side) :
    (c.hasEntry s = false ∧ c.step t s = .ok (.error .noSuchElement) ∧
        (Gap.between before after held).step s = none) ∨
      ∃ e c' before' after', c.hasEntry s = true ∧ c.step t s = .ok (.ok (e, c')) ∧
        (Gap.between before after held).step s =
          some (e, Gap.between before' after' (some s.other)) ∧
        Stands t c' before' after' (some s.other) ∧ before' ++ after' = before ++ after ∧
        (Gap.between before' after' (some s.other)).distance s + 1 =
          (Gap.between before after held).distance s := by
  have hbeside := h.beside_eq s
  cases s with
  | right =>
    cases after with
    | nil =>
      have hnone : c.beside .right = none := hbeside
      exact .inl ⟨by simp [hasEntry, hnone], by
        simp [Cursor.step, checkRevision_ok h.synced, hnone], rfl⟩
    | cons x rest =>
      obtain ⟨i, e⟩ := x
      obtain ⟨c', hrun, hstands⟩ := h.step_right rfl
      refine .inr ⟨e, c', before ++ [(i, e)], rest, ?_, hrun, ?_, hstands, by simp, rfl⟩
      · simp [hasEntry, hbeside, Side.beside]
      · simp [Gap.between, Gap.step, Side.other]
  | left =>
    rcases List.eq_nil_or_concat before with rfl | ⟨rest, ⟨i, e⟩, rfl⟩
    · have hnone : c.beside .left = none := hbeside
      exact .inl ⟨by simp [hasEntry, hnone], by
        simp [Cursor.step, checkRevision_ok h.synced, hnone], rfl⟩
    · rw [List.concat_eq_append] at *
      obtain ⟨c', hrun, hstands⟩ := h.step_left rfl
      refine .inr ⟨e, c', rest, (i, e) :: after, ?_, hrun, ?_, hstands, by simp, ?_⟩
      · simp [hasEntry, hbeside, Side.beside]
      · simp [Gap.between, Gap.step, Side.other]
      · simp [Gap.between, Gap.distance]

/-! ## The entry in hand -/

end Stands

theorem Stands.heldNode_none (h : Stands t c before after none) (action : HeldAction) :
    c.heldNode t action = .error (.nothingHeld action) := by
  have hc : c.held = none := h.inHand
  simp [heldNode, hc]

/-- What it means to have the item on side `s` in hand: the two lists, and
where the item lies in them. -/
inductive Holding : Side → List (Nat × K × V) → List (Nat × K × V) → Nat → K × V → Prop where
  | left {before after : List (Nat × K × V)} {i : Nat} {e : K × V} :
    Holding .left (before ++ [(i, e)]) after i e
  | right {before after : List (Nat × K × V)} {i : Nat} {e : K × V} :
    Holding .right before ((i, e) :: after) i e

namespace Stands

theorem holding {s : Side} (h : Stands t c before after (some s)) :
    ∃ i e, Holding s before after i e ∧ c.held = some i ∧
      (Gap.between before after (some s)).heldEntry = some e := by
  obtain ⟨⟨i, e⟩, hi⟩ := Option.isSome_iff_exists.mp (h.full s rfl)
  have hc : c.held = some i := by simpa [hi] using h.inHand
  refine ⟨i, e, ?_, hc, by simp [Gap.heldEntry, hi]⟩
  cases s with
  | left =>
    obtain ⟨rest, rfl⟩ := List.getLast?_eq_some_iff.mp hi
    exact .left
  | right =>
    cases after with
    | nil => cases hi
    | cons x after =>
      obtain rfl : x = (i, e) := Option.some.inj hi
      exact .right

theorem heldNode_ok {s : Side} (h : Stands t c before after (some s)) {i : Nat}
    (hi : c.held = some i) (action : HeldAction) : c.heldNode t action = .ok i := by
  simp [heldNode, hi, checkRevision_ok h.synced]

theorem heldEntry_eq (h : Stands t c before after held) (action : HeldAction) :
    c.heldEntry t action =
      (Gap.between before after held).heldEntry.elim (.error (.nothingHeld action)) .ok := by
  cases held with
  | none => simp [heldEntry, h.heldNode_none, Gap.heldEntry, bind, Except.bind]
  | some s =>
    obtain ⟨i, e, hh, hi, hentry⟩ := h.holding
    have hread : t.entryOf (some i) = some e := by
      have hk := h.keeps
      cases hh with
      | left =>
        rw [List.append_assoc] at hk
        exact hk.entryOf
      | right => exact hk.entryOf
    simp [heldEntry, h.heldNode_ok hi, hread, hentry]

theorem setValue_ok {s : Side} (h : Stands t c before after (some s)) (v : V) :
    ∃ e c' t' before' after', c.setValue t v = .ok (e.2, c', t') ∧
      (Gap.between before after (some s)).heldEntry = some e ∧
      Stands t' c' before' after' (some s) ∧
      Gap.between before' after' (some s) = (Gap.between before after (some s)).setValue v ∧
      ∀ cmp, Tree.Evolves cmp t (before ++ after) 1 t' (before' ++ after') := by
  obtain ⟨i, e, hh, hi, hentry⟩ := h.holding
  have hk := h.keeps
  -- The run and the tree it leaves, wherever in the list the item is.
  have hrun : ∀ n : Node K V, t.slots.get? (some i) = some n → n.entry = e →
      c.setValue t v = .ok (e.2, c.synced
        ({ t with slots := t.slots.update (some i) (fun n => { n with value := v }) } :
          Tree K V).touched,
        ({ t with slots := t.slots.update (some i) (fun n => { n with value := v }) } :
          Tree K V).touched) := by
    rintro n hn rfl
    simp [Cursor.setValue, h.heldNode_ok hi, hn, Node.entry]
  have hset : ∀ (before after : List (Nat × K × V)), t.Keeps (before ++ (i, e) :: after) →
      ({ t with slots := t.slots.update (some i) (fun n => { n with value := v }) } :
        Tree K V).touched.Keeps (before ++ (i, e.1, v) :: after) := by
    intro before after hk
    refine (hk.update (fun n hn => ?_)).touched
    obtain ⟨n', hn', rfl⟩ := hk.get?
    obtain rfl := Option.some.inj (hn'.symm.trans hn)
    rfl
  cases hh with
  | @left before =>
    rw [List.append_assoc] at hk
    obtain ⟨n, hn, he⟩ := hk.get?
    refine ⟨e, _, _, before ++ [(i, e.1, v)], after, hrun n hn he, hentry, ?_, ?_, ?_⟩
    · refine ⟨by simpa using hset _ _ hk, ?_, h.next, ?_, ?_, rfl⟩
      · simpa [Cursor.synced] using h.previous
      · simpa [Cursor.synced, Side.beside] using h.inHand
      · rintro s hs
        obtain rfl := Option.some.inj hs
        simp [Side.beside]
    · simp [Gap.between, Gap.setValue]
    · intro cmp
      exact ⟨by simpa using hset _ _ hk, rfl, by simp, fun ha => ha.keys (by simp)⟩
  | @right _ after =>
    obtain ⟨n, hn, he⟩ := hk.get?
    refine ⟨e, _, _, before, (i, e.1, v) :: after, hrun n hn he, hentry, ?_, ?_, ?_⟩
    · refine ⟨hset _ _ hk, h.previous, ?_, ?_, ?_, rfl⟩
      · simpa [Cursor.synced] using h.next
      · simpa [Cursor.synced, Side.beside] using h.inHand
      · rintro s hs
        obtain rfl := Option.some.inj hs
        simp [Side.beside]
    · simp [Gap.between, Gap.setValue]
    · intro cmp
      exact ⟨hset _ _ hk, rfl, by simp, fun ha => ha.keys (by simp)⟩

/-- The removal of the entry in hand leaves the cursor in the gap where it
stood, between the neighbours of the entry. -/
theorem remove_ok {s : Side} (h : Stands t c before after (some s)) :
    ∃ e c' t' before' after', c.remove t = .ok (.ok (e, c', t')) ∧
      (Gap.between before after (some s)).heldEntry = some e ∧
      Stands t' c' before' after' none ∧
      Gap.between before' after' none = (Gap.between before after (some s)).remove ∧
      t'.size + 1 = t.size ∧
      ∀ cmp, Tree.Evolves cmp t (before ++ after) 1 t' (before' ++ after') := by
  obtain ⟨i, e, hh, hi, hentry⟩ := h.holding
  have hk := h.keeps
  -- Removing an item between two lists.
  have erase : ∀ (before after : List (Nat × K × V)), t.Keeps (before ++ (i, e) :: after) →
      ∃ c' t' after', c.remove t = .ok (.ok (e, c', t')) ∧ Stands t' c' before after' none ∧
        after'.map (·.2) = after.map (·.2) ∧ t'.size + 1 = t.size ∧
        ∀ cmp, Tree.Evolves cmp t (before ++ (i, e) :: after) 1 t' (before ++ after') := by
    intro before after hk
    obtain ⟨r, after', herase, he, hnext, hrev, hk', hshift⟩ := Tree.eraseNode_ok hk
    have hlen : after'.length = after.length := by
      simpa using congrArg List.length hshift.entries
    have hsize : r.tree.size + 1 = t.size := by
      simp [hk.size, hk'.size, hlen]
      omega
    refine ⟨_, r.tree, after', ?_, stands_between hk', hshift.entries, hsize, fun cmp => ?_⟩
    · simp [Cursor.remove, h.heldNode_ok hi, hk.neighbour_left, herase, he, hnext]
    · have hev := (Tree.Thinned.one hk' hrev hshift).evolves hk cmp
      rwa [show t.size - r.tree.size = 1 by omega] at hev
  cases hh with
  | @left before =>
    rw [List.append_assoc] at hk
    obtain ⟨c', t', after', hrun, hstands, hafter, hsize, hev⟩ := erase before after hk
    refine ⟨e, c', t', before, after', hrun, hentry, hstands, ?_, hsize, by simpa using hev⟩
    simp [Gap.between, Gap.remove, hafter]
  | @right _ after =>
    obtain ⟨c', t', after', hrun, hstands, hafter, hsize, hev⟩ := erase before after hk
    refine ⟨e, c', t', before, after', hrun, hentry, hstands, ?_, hsize, hev⟩
    simp [Gap.between, Gap.remove, hafter]

end Stands

end Cursor

/-! ## Whole operations -/

namespace CursorOp

open Cursor

variable {t : Tree K V} {c : Cursor} {before after : List (Nat × K × V)} {held : Option Side}

/-- How many counted modifications an operation on a cursor makes. -/
def changes (t : Tree K V) (c : Cursor) (op : CursorOp K V) : Nat :=
  match op, op.run t c with
  | setValue _, .ok (.value _, _, _) => 1
  | remove, .ok (_, _, t') | sweep _ _, .ok (_, _, t') => t.size - t'.size
  | _, _ => 0

theorem runSweep_gap (s : Side) (meant : Nat → K → Bool) {steps n : Nat} {seen : List K}
    (h : Stands t c before after held) (hn : (Gap.between before after held).distance s = n)
    (hp : n < steps) :
    ∃ keys c' t' before' after' held',
      runSweep s meant steps t c seen = .ok (.ok keys, c', t') ∧
        Gap.sweep s meant n (Gap.between before after held) seen =
          (keys, Gap.between before' after' held') ∧
        Stands t' c' before' after' held' ∧ t'.size ≤ t.size ∧
        ∀ cmp, Tree.Evolves cmp t (before ++ after) (t.size - t'.size) t' (before' ++ after') := by
  induction n generalizing t c before after held steps seen with
  | zero =>
    -- Nothing lies ahead, so no step can be made.
    obtain ⟨steps, rfl⟩ : ∃ k, steps = k + 1 := ⟨steps - 1, by omega⟩
    rcases h.step_gap s with ⟨hno, -, -⟩ | ⟨e, c', before', after', -, -, -, -, -, hdist⟩
    · refine ⟨seen.reverse, c, t, before, after, held, by simp [runSweep, hno], rfl, h,
        Nat.le_refl _, fun cmp => ?_⟩
      simpa using Tree.Evolves.refl cmp h.keeps
    · omega
  | succ n ih =>
    obtain ⟨steps, rfl⟩ : ∃ k, steps = k + 1 := ⟨steps - 1, by omega⟩
    rcases h.step_gap s with
      ⟨hno, -, -⟩ | ⟨e, c₁, before₁, after₁, hhas, hrun₁, hgap₁, h₁, hlist, hdist⟩
    · -- With `n + 1` entries on this side there is one beside the gap.
      exfalso
      have hb := h.beside_eq s
      rw [Cursor.hasEntry, hb] at hno
      cases s with
      | left =>
        cases hbefore : before with
        | nil => simp [Gap.distance, Gap.between, hbefore] at hn
        | cons x l => simp [Side.beside, hbefore] at hno
      | right =>
        cases hafter : after with
        | nil => simp [Gap.distance, Gap.between, hafter] at hn
        | cons x l => simp [Side.beside, hafter] at hno
    · by_cases hmeant : meant seen.length e.1
      · obtain ⟨e₂, c₂, t₂, before₂, after₂, hrun₂, -, h₂, hgap₂, hsize, hev⟩ := h₁.remove_ok
        -- The removed entry lay behind the gap, so what is ahead is as long as before.
        have hdist₂ : (Gap.between before₂ after₂ none).distance s = n := by
          rw [hgap₂]
          have : (Gap.between before₁ after₁ (some s.other)).remove.distance s =
              (Gap.between before₁ after₁ (some s.other)).distance s := by
            cases s <;> rfl
          omega
        obtain ⟨keys, c', t', before', after', held', hrun, hgap, hstands, hle, hev'⟩ :=
          @ih t₂ c₂ before₂ after₂ none steps (e.1 :: seen) h₂ hdist₂ (by omega)
        refine ⟨keys, c', t', before', after', held', ?_, ?_, hstands, by omega, fun cmp => ?_⟩
        · simp [runSweep, hhas, hrun₁, hmeant, hrun₂, hrun]
        · simp [Gap.sweep, hgap₁, hmeant, ← hgap₂, hgap]
        · have := (hev cmp).trans (hev' cmp)
          rw [hlist] at this
          rwa [show t.size - t'.size = 1 + (t₂.size - t'.size) by omega]
      · obtain ⟨keys, c', t', before', after', held', hrun, hgap, hstands, hle, hev'⟩ :=
          @ih t c₁ before₁ after₁ (some s.other) steps (e.1 :: seen) h₁ (by omega) (by omega)
        refine ⟨keys, c', t', before', after', held', ?_, ?_, hstands, hle, fun cmp => ?_⟩
        · simp [runSweep, hhas, hrun₁, hmeant, hrun]
        · simp [Gap.sweep, hgap₁, hmeant, hgap]
        · have := hev' cmp
          rwa [hlist] at this

/-- An operation on a cursor that stands between two lists is that operation on
the gap, and counts what it changes; if it is refused it changes nothing. -/
structure Follows (op : CursorOp K V) (t : Tree K V) (c : Cursor)
    (before after : List (Nat × K × V)) (held : Option Side) (r : Reply K V) (c' : Cursor)
    (t' : Tree K V) (before' after' : List (Nat × K × V)) (held' : Option Side) : Prop where
  run : op.run t c = .ok (r, c', t')
  gap : (Gap.between before after held).run op = (r, Gap.between before' after' held')
  stands : Stands t' c' before' after' held'
  unchanged : ∀ x, r = .refused x → c' = c ∧ t' = t
  evolves : ∀ cmp, Tree.Evolves cmp t (before ++ after) (op.changes t c) t' (before' ++ after')

theorem Follows.still {op : CursorOp K V} {r : Reply K V} (h : Stands t c before after held)
    (hrun : op.run t c = .ok (r, c, t))
    (hgap : (Gap.between before after held).run op = (r, Gap.between before after held))
    (hzero : op.changes t c = 0) :
    Follows op t c before after held r c t before after held where
  run := hrun
  gap := hgap
  stands := h
  unchanged := fun _ _ => ⟨rfl, rfl⟩
  evolves := by
    intro cmp
    rw [hzero]
    exact .refl cmp h.keeps

/-- Every operation on a cursor that has seen the tree last is an operation on
a gap. The text of a cursor shows slots, which a gap has not. -/
theorem run_gap (h : Stands t c before after held) (op : CursorOp K V) (hop : op ≠ .text) :
    ∃ r c' t' before' after' held',
      Follows op t c before after held r c' t' before' after' held' := by
  cases op with
  | text => exact absurd rfl hop
  | hasEntry s =>
    refine ⟨_, c, t, before, after, held, .still h rfl ?_ rfl⟩
    simp [Gap.run, Cursor.hasEntry, h.beside_eq]
  | step s =>
    rcases h.step_gap s with ⟨-, hrun, hgap⟩ | ⟨e, c', before', after', -, hrun, hgap, h', hlist, -⟩
    · have hrun' : run t c (.step s) = .ok (.refused .noSuchElement, c, t) := by simp [run, hrun]
      exact ⟨_, c, t, before, after, held, .still h hrun' (by simp [Gap.run, hgap]) rfl⟩
    · refine ⟨.entry e, c', t, before', after', _, by simp [run, hrun], by simp [Gap.run, hgap], h',
        by simp [Reply.entry], ?_⟩
      intro cmp
      rw [hlist]
      exact .refl cmp h.keeps
  | key =>
    refine ⟨_, c, t, before, after, held, .still h rfl ?_ rfl⟩
    simp only [Gap.run, Gap.withHeld, Cursor.key, h.heldEntry_eq]
    cases (Gap.between before after held).heldEntry <;> rfl
  | value =>
    refine ⟨_, c, t, before, after, held, .still h rfl ?_ rfl⟩
    simp only [Gap.run, Gap.withHeld, Cursor.value, h.heldEntry_eq]
    cases (Gap.between before after held).heldEntry <;> rfl
  | setValue v =>
    cases held with
    | none =>
      have hrun : run t c (.setValue v) = .ok (.refused (.nothingHeld .setValue), c, t) := by
        simp [run, Cursor.setValue, h.heldNode_none]
      exact ⟨_, c, t, before, after, none, .still h hrun
        (by simp [Gap.run, Gap.withHeld, Gap.heldEntry]) (by simp [changes, hrun])⟩
    | some s =>
      obtain ⟨e, c', t', before', after', hset, hentry, h', hgap, hev⟩ := h.setValue_ok v
      have hrun : run t c (.setValue v) = .ok (.value e.2, c', t') := by simp [run, hset]
      refine ⟨.value e.2, c', t', before', after', some s, hrun, ?_, h', by simp, ?_⟩
      · simp [Gap.run, Gap.withHeld, hentry, hgap]
      · simpa only [changes, hrun] using hev
  | remove =>
    cases held with
    | none =>
      have hrun : run t c .remove = .ok (.refused (.nothingHeld .remove), c, t) := by
        simp [run, Cursor.remove, h.heldNode_none]
      exact ⟨_, c, t, before, after, none, .still h hrun
        (by simp [Gap.run, Gap.withHeld, Gap.heldEntry]) (by simp [changes, hrun])⟩
    | some s =>
      obtain ⟨e, c', t', before', after', hremove, hentry, h', hgap, hsize, hev⟩ := h.remove_ok
      have hrun : run t c .remove = .ok (.entry e, c', t') := by simp [run, hremove]
      refine ⟨.entry e, c', t', before', after', none, hrun, ?_, h', by simp [Reply.entry], ?_⟩
      · simp [Gap.run, Gap.withHeld, hentry, hgap]
      · simpa only [changes, hrun, show t.size - t'.size = 1 by omega] using hev
  | reset =>
    obtain ⟨c', hfront, h'⟩ := front_stands h.keeps
    refine ⟨.nothing, c', t, [], before ++ after, none, by simp [run, hfront], ?_, h', by simp, ?_⟩
    · simp [Gap.run, Gap.between, Gap.entries]
    · intro cmp
      exact .refl cmp h.keeps
  | sweep s meant =>
    -- A sweep takes a step for every entry on its side, and patience covers them all.
    have hlt : (Gap.between before after held).distance s < t.patience := by
      have hitems := h.keeps.length_lt_patience
      rw [List.length_append] at hitems
      cases s <;> simp only [Gap.distance, Gap.between, List.length_map] <;> omega
    obtain ⟨keys, c', t', before', after', held', hsweep, hgap, h', -, hev⟩ :=
      @runSweep_gap K V t c before after held s meant t.patience _ [] h rfl hlt
    have hrun : run t c (.sweep s meant) = .ok (.list (keys.map .key), c', t') := by
      simp [run, hsweep, Reply.result]
    refine ⟨_, c', t', before', after', held', hrun, by simp [Gap.run, hgap], h', by simp, ?_⟩
    simpa only [changes, hrun] using hev

end CursorOp

end SlotTree
