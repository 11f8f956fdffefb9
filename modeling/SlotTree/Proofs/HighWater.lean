import SlotTree.Proofs.Intact
import SlotTree.Proofs.Room

/-
  High water — how many slots a tree has.

  A chart lists, for each tree, how many entries it had after each operation
  since it was opened or cleared; a copy starts with the list of its original.
  Along a run the number of slots of a tree is the largest number of its list
  (`Charts.hasRoom`): what becomes vacant is used again before a slot is opened,
  and no slot is lost. The occupied ones are those that the links lead to
  (`charted_slots_highWater`).
-/
namespace SlotTree

variable {K V : Type}

namespace Tree

variable {t t' : Tree K V} {ns ms : List Nat}

/-- The tree is sound, and has as many slots as the largest of these numbers. -/
structure HasRoom (t : Tree K V) (ns : List Nat) : Prop where
  keeps : ∃ items, t.Keeps items
  room : ns.max? = some t.slots.size

theorem HasRoom.grows (h : t.HasRoom ns) (hgrows : t.Grows ms t') : t'.HasRoom (ns ++ ms) := by
  refine ⟨hgrows.keeps, ?_⟩
  have hroom := h.room
  cases ns with
  | nil => cases hroom
  | cons n ns =>
    rw [List.max?_cons', Option.some.injEq] at hroom
    rw [List.cons_append, List.max?_cons', List.foldl_append, hroom, hgrows.room]

theorem hasRoom_empty : (empty : Tree K V).HasRoom [0] := ⟨⟨[], keeps_empty⟩, rfl⟩

theorem hasRoom_clear (t : Tree K V) : t.clear.HasRoom [0] := ⟨⟨[], keeps_clear t⟩, rfl⟩

theorem HasRoom.copy (h : t.HasRoom ns) : t.copy.HasRoom ns := by
  obtain ⟨⟨items, hk⟩, hroom⟩ := h
  exact ⟨⟨items, hk.congr rfl rfl rfl⟩, hroom⟩

end Tree

/-! ## Charts -/

/-- The chart before the first command: no tree has had an entry. -/
def Session.blankChart : Nat → List Nat := fun _ => [0]

variable [Written K] [Written V] [DecidableEq K]

/-- The chart after a command to the tree of a number. A command that leaves all
trees as they are is not noted. -/
def Session.charted (cmp : K → K → Ordering) (s : Session K V) (chart : Nat → List Nat)
    (number : Nat) : Command K V → Nat → List Nat
  | .edit .clear => Function.update chart number [0]
  | .edit e =>
    match s.tree number with
    | .ok t => Function.update chart number (chart number ++ e.sizes cmp t)
    | .error _ => chart
  | .openTree => Function.update chart s.trees.size [0]
  | .copyTree => Function.update chart s.trees.size (chart number)
  | .cursor k op =>
    match s.tree number, s.cursor k with
    | .ok t, .ok c => Function.update chart number (chart number ++ op.sizes t c)
    | _, _ => chart
  | _ => chart

theorem Session.charted_reads {cmp : K → K → Ordering} {s : Session K V} {chart : Nat → List Nat}
    {number : Nat} {command : Command K V} (h : command.Reads) :
    s.charted cmp chart number command = chart := by
  cases command <;> first | rfl | exact h.elim

variable [DecidableEq V]

/-- The sessions that runs lead to, whatever tree a cursor is given to, and
their charts. -/
inductive Charts (C : (K → K → Ordering) → Prop) : Session K V → (Nat → List Nat) → Prop where
  | blank : Charts C .blank Session.blankChart
  | command {s : Session K V} {chart : Nat → List Nat} {cmp : K → K → Ordering} {number : Nat}
    {command : Command K V} {o : Outcome K V} :
    Charts C s chart → C cmp → command.IsPublic → s.exec cmp number command = .ok o →
    Charts C o.session (s.charted cmp chart number command)
  | view {s : Session K V} {chart : Nat → List Nat} {cmp : K → K → Ordering} {number : Nat}
    {w : Window K} {op : WindowWrite K V} {t t' : Tree K V} {r : Reply K V} :
    Charts C s chart → C cmp → s.tree number = .ok t → op.run cmp t w = .ok (r, t') →
    Charts C (s.setTree number t')
      (Function.update chart number (chart number ++ op.sizes cmp t w))

variable {C : (K → K → Ordering) → Prop} {cmp : K → K → Ordering} {s : Session K V}
  {chart : Nat → List Nat} {number : Nat} {t t' : Tree K V}

/-- The runs that have a chart are all there are. -/
theorem roams_iff_charts : Roams C s ↔ ∃ chart, Charts C s chart := by
  constructor
  · intro h
    induction h with
    | blank => exact ⟨_, .blank⟩
    | command _ hcmp hp hrun ih =>
      obtain ⟨chart, hchart⟩ := ih
      exact ⟨_, .command hchart hcmp hp hrun⟩
    | view _ hcmp ht hrun ih =>
      obtain ⟨chart, hchart⟩ := ih
      exact ⟨_, .view hchart hcmp ht hrun⟩
  · rintro ⟨chart, h⟩
    induction h with
    | blank => exact .blank
    | command _ hcmp hp hrun ih => exact .command ih hcmp hp hrun
    | view _ hcmp ht hrun ih => exact .view ih hcmp ht hrun

omit [Written K] [Written V] [DecidableEq K] [DecidableEq V] in
theorem Session.hasRoom_setTree (h : ∀ m t, s.tree m = .ok t → t.HasRoom (chart m))
    (ht : s.tree number = .ok t) {ns : List Nat} (ht' : t'.HasRoom ns) :
    ∀ m t₁, (s.setTree number t').tree m = .ok t₁ →
      t₁.HasRoom (Function.update chart number ns m) := by
  intro m t₁ ht₁
  by_cases hm : m = number
  · subst hm
    rw [Session.tree_setTree_self ht] at ht₁
    obtain rfl := Except.ok.inj ht₁
    rwa [Function.update_self]
  · rw [Session.tree_setTree_ne hm] at ht₁
    rw [Function.update_of_ne hm]
    exact h m t₁ ht₁

omit [Written K] [Written V] [DecidableEq K] [DecidableEq V] in
theorem Session.hasRoom_addTree (h : ∀ m t, s.tree m = .ok t → t.HasRoom (chart m))
    {ns : List Nat} (ht' : t'.HasRoom ns) :
    ∀ m t₁, (s.addTree t').tree m = .ok t₁ →
      t₁.HasRoom (Function.update chart s.trees.size ns m) := by
  intro m t₁ ht₁
  by_cases hm : m = s.trees.size
  · subst hm
    obtain rfl := Except.ok.inj (Session.tree_addTree_self.symm.trans ht₁)
    rwa [Function.update_self]
  · rw [Function.update_of_ne hm]
    exact h m t₁ (Session.tree_of_addTree hm ht₁)

/-- A command keeps the number of slots of every tree at the largest number of
its list. -/
theorem Session.exec_hasRoom (h : ∀ m t, s.tree m = .ok t → t.HasRoom (chart m))
    {command : Command K V} {o : Outcome K V} (hp : command.IsPublic)
    (hrun : s.exec cmp number command = .ok o) :
    ∀ m t, o.session.tree m = .ok t → t.HasRoom (s.charted cmp chart number command m) := by
  have hchanged := Session.exec_changed hrun
  generalize o.session = s' at hchanged ⊢
  cases hchanged with
  | reads hreads hsame =>
    intro m t ht
    rw [hsame] at ht
    rw [Session.charted_reads hreads]
    exact h m t ht
  | surgery => exact hp.elim
  | @edit e t t' r ht he =>
    obtain ⟨items, hk⟩ := (h number t ht).keeps
    by_cases hclear : e = .clear
    · subst hclear
      cases he
      exact Session.hasRoom_setTree h ht (Tree.hasRoom_clear t)
    · have ht' := (h number t ht).grows (Edit.run_grows hk hclear he)
      simp only [Session.charted, ht]
      exact Session.hasRoom_setTree h ht ht'
  | openTree => exact Session.hasRoom_addTree h Tree.hasRoom_empty
  | copyTree ht => exact Session.hasRoom_addTree h (h number _ ht).copy
  | @cursor k op t t' c c' r ht hc hop =>
    obtain ⟨items, hk⟩ := (h number t ht).keeps
    have ht' := (h number t ht).grows (CursorOp.run_grows hk hop)
    simp only [Session.charted, ht, hc]
    exact Session.hasRoom_setTree h ht ht'

theorem Charts.hasRoom (h : Charts C s chart) :
    ∀ number t, s.tree number = .ok t → t.HasRoom (chart number) := by
  induction h with
  | blank =>
    intro number t ht
    obtain rfl : number = 0 := Nat.lt_one_iff.mp (Session.tree_lt ht)
    cases ht
    exact Tree.hasRoom_empty
  | command _ _ hp hrun ih => exact Session.exec_hasRoom ih hp hrun
  | @view s chart cmp number w op t t' r _ _ ht hrun ih =>
    obtain ⟨items, hk⟩ := (ih number t ht).keeps
    exact Session.hasRoom_setTree ih ht
      ((ih number t ht).grows (WindowWrite.run_grows hk w op hrun))

/-- After any run the occupied slots of a tree are the nodes that its links lead
to, and as many as its entries. With the free ones they are as many as the
largest number of entries that the tree has had after an operation since it was
opened or cleared; a copy has the history of its original. -/
theorem charted_slots_highWater (h : Charts C s chart) (ht : s.tree number = .ok t) :
    (∀ i, t.slots.contains (some i) = true ↔ ∃ way, t.follow t.root way = some i) ∧
      ∃ occupied free, (∀ cmp, Query.occupancy.run cmp t =
          .ok (.list [.count occupied, .count free])) ∧ occupied = t.size ∧
        (chart number).max? = some (occupied + free) := by
  have hroom := h.hasRoom number t ht
  obtain ⟨items, hk⟩ := hroom.keeps
  obtain ⟨-, sh, hsound, -⟩ := hk
  obtain ⟨ids, -, hreached, hoccupied, hsize, hlive⟩ := hsound.intact.counted
  refine ⟨fun i => (hoccupied i).symm.trans (hreached i), t.slots.live, t.slots.free.length,
    fun cmp => rfl, hlive.trans hsize.symm, ?_⟩
  rw [hroom.room, ← hsound.tidy.count]

/-- A tree gets three entries, loses two and gets another one; then it is copied
and cleared. The copy has one free slot, the original none. -/
theorem clearedOriginal_highWater :
    ∃ (s : Session Int Int) (chart : Nat → List Nat) (t t' : Tree Int Int),
      Charts (fun _ => True) s chart ∧ s.tree 0 = .ok t ∧ s.tree 1 = .ok t' ∧
        chart 0 = [0] ∧ chart 1 = [0, 3, 2, 1, 2] ∧
        Query.occupancy.run compare t = .ok (.list [.count 0, .count 0]) ∧
        Query.occupancy.run compare t' = .ok (.list [.count 2, .count 1]) := by
  let C : (Int → Int → Ordering) → Prop := fun _ => True
  have h₁ := @Charts.command Int Int _ _ _ _ C _ _ compare 0
    (.edit (.insertAll [(1, 10), (2, 20), (3, 30)])) _ .blank trivial trivial rfl
  have h₂ := @Charts.command Int Int _ _ _ _ C _ _ compare 0
    (.edit (.remove 2)) _ h₁ trivial trivial rfl
  have h₃ := @Charts.command Int Int _ _ _ _ C _ _ compare 0
    (.edit (.pop .left)) _ h₂ trivial trivial rfl
  have h₄ := @Charts.command Int Int _ _ _ _ C _ _ compare 0
    (.edit (.insert 4 40)) _ h₃ trivial trivial rfl
  have h₅ := @Charts.command Int Int _ _ _ _ C _ _ compare 0 .copyTree _ h₄ trivial trivial rfl
  have h₆ := @Charts.command Int Int _ _ _ _ C _ _ compare 0
    (.edit .clear) _ h₅ trivial trivial rfl
  obtain ⟨-, occupied, free, hstats, hsize, hmax⟩ :=
    @charted_slots_highWater Int Int _ _ _ _ C _ _ 0 _ h₆ rfl
  obtain ⟨-, occupied', free', hstats', hsize', hmax'⟩ :=
    @charted_slots_highWater Int Int _ _ _ _ C _ _ 1 _ h₆ rfl
  have hsum : 0 = occupied + free := Option.some.inj (rfl.trans hmax)
  have hsum' : 3 = occupied' + free' := Option.some.inj (rfl.trans hmax')
  obtain rfl : occupied = 0 := hsize
  obtain rfl : occupied' = 2 := hsize'
  obtain rfl : free = 0 := by omega
  obtain rfl : free' = 1 := by omega
  exact ⟨_, _, _, _, h₆, rfl, rfl, rfl, rfl, hstats compare, hstats' compare⟩

end SlotTree
