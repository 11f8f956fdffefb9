import SlotTree.Proofs.Changes
import SlotTree.Proofs.Frame

/-
  Dictionaries — under a lawful comparison a tree is a sorted list.

  The operations of a dictionary are defined on a list of entries, without a
  tree: `Assoc.insert`, `Assoc.modify`, `Assoc.erase` and `Assoc.find`, and with
  them what each command answers and leaves (`Assoc.answer`, `Assoc.edit`,
  `Assoc.run`). A key that is equal to a stored one need not be the same key.

  A tree that keeps the list, with ascending keys, answers every one of these
  commands with the list's answer and keeps the list that the command leaves,
  again with ascending keys (`edit_assoc`, `query_assoc`). That ends where the
  slot numbers do: a list with more than 2^32 - 1 entries has no tree
  (`insertAll_exhausted`).
-/
namespace SlotTree

variable {K V : Type}

namespace Assoc

/-! ## Operations on a sorted list -/

/-- The entry whose key is equal to `key`. -/
def find (cmp : K → K → Ordering) (key : K) (es : List (K × V)) : Option (K × V) :=
  es.find? (fun e => cmp key e.1 = .eq)

/-- Stores a value: in the entry of an equal key, which keeps its key, or in a
new entry before the first greater key. -/
def insert (cmp : K → K → Ordering) (key : K) (value : V) : List (K × V) → List (K × V)
  | [] => [(key, value)]
  | e :: es =>
    match cmp key e.1 with
    | .lt => (key, value) :: e :: es
    | .eq => (e.1, value) :: es
    | .gt => e :: insert cmp key value es

/-- Stores entries one after the other. -/
def insertAll (cmp : K → K → Ordering) (es : List (K × V)) : List (K × V) → List (K × V)
  | [] => es
  | e :: rest => insertAll cmp (insert cmp e.1 e.2 es) rest

/-- Changes the value of the entry whose key is equal to `key`. -/
def modify (cmp : K → K → Ordering) (key : K) (f : V → V) (es : List (K × V)) : List (K × V) :=
  es.map (fun e => if cmp key e.1 = .eq then (e.1, f e.2) else e)

/-- The list without the entry whose key is equal to `key`. -/
def erase (cmp : K → K → Ordering) (key : K) (es : List (K × V)) : List (K × V) :=
  es.filter (fun e => cmp key e.1 ≠ .eq)

/-- The entry at one end. -/
def last (s : Side) (es : List (K × V)) : Option (K × V) :=
  match s with
  | .left => es.head?
  | .right => es.getLast?

/-- The list without the entry at one end. -/
def dropLast (s : Side) (es : List (K × V)) : List (K × V) :=
  match s with
  | .left => es.tail
  | .right => es.dropLast

/-- What a question is answered, if it is one of a dictionary's. -/
def answer (cmp : K → K → Ordering) (es : List (K × V)) : Query K → Option (Reply K V)
  | .size => some (.count es.length)
  | .isEmpty => some (.flag es.isEmpty)
  | .get key => some (.option .value ((find cmp key es).map (·.2)))
  | .entry key => some (.option .entry (find cmp key es))
  | .contains key => some (.flag (find cmp key es).isSome)
  | _ => none

/-- What a change answers and leaves, if it is one of a dictionary's. -/
def edit (cmp : K → K → Ordering) (es : List (K × V)) : Edit K V → Option (Reply K V × List (K × V))
  | .insert key value =>
    some (.option .value ((find cmp key es).map (·.2)), insert cmp key value es)
  | .insertAll entries => some (.nothing, insertAll cmp es entries)
  | .modify key value =>
    some (.option .value ((find cmp key es).map (·.2)), modify cmp key (value.getD ·) es)
  | .remove key => some (.option .value ((find cmp key es).map (·.2)), erase cmp key es)
  | .removeEntry key => some (.option .entry (find cmp key es), erase cmp key es)
  | .pop s => some (.option .entry (last s es), dropLast s es)
  | .clear => some (.nothing, [])
  | _ => none

/-- What a command answers and leaves, if it is one of a dictionary's. -/
def run (cmp : K → K → Ordering) (es : List (K × V)) :
    Command K V → Option (Reply K V × List (K × V))
  | .query q => (answer cmp es q).map (·, es)
  | .edit e => edit cmp es e
  | _ => none

/-- What commands answer and leave one after the other. -/
def runAll (cmp : K → K → Ordering) (es : List (K × V)) :
    List (Command K V) → Option (List (Reply K V × List (K × V)))
  | [] => some []
  | command :: rest => do
    let result ← run cmp es command
    let results ← runAll cmp result.2 rest
    return result :: results

variable {cmp : K → K → Ordering} {key : K} {v : V} {f : V → V} {e : K × V}
  {es before after : List (K × V)}

/-! ## Where the key is in the list -/

theorem find_none (h : ∀ e ∈ es, cmp key e.1 ≠ .eq) : find cmp key es = none := by
  simpa [find] using h

theorem modify_none (h : ∀ e ∈ es, cmp key e.1 ≠ .eq) : modify cmp key f es = es := by
  rw [modify, List.map_congr_left (fun e he => if_neg (h e he)), List.map_id']

theorem erase_none (h : ∀ e ∈ es, cmp key e.1 ≠ .eq) : erase cmp key es = es := by
  simpa [erase, List.filter_eq_self] using h

theorem insert_new (h : Parts (cmp key) before after) :
    insert cmp key v (before ++ after) = before ++ (key, v) :: after := by
  induction before with
  | nil =>
    cases after with
    | nil => rfl
    | cons e after => simp [insert, h.after e (List.mem_cons_self ..)]
  | cons e before ih =>
    have he := h.before e (List.mem_cons_self ..)
    have ih := ih ⟨fun e he => h.before e (List.mem_cons_of_mem _ he), h.after⟩
    simp [insert, he, ih]

theorem length_insert (h : find cmp key es = none) :
    (insert cmp key v es).length = es.length + 1 := by
  induction es with
  | nil => rfl
  | cons e es ih =>
    rw [find, List.find?_cons] at h
    cases ho : cmp key e.1 with
    | eq => simp [ho] at h
    | lt => simp [insert, ho]
    | gt =>
      rw [ho] at h
      simp [insert, ho, ih h]

theorem length_le_insert (cmp : K → K → Ordering) (key : K) (v : V) (es : List (K × V)) :
    es.length ≤ (insert cmp key v es).length := by
  induction es with
  | nil => exact Nat.zero_le _
  | cons e es ih =>
    cases ho : cmp key e.1 with
    | lt => simp [insert, ho]
    | eq => simp [insert, ho]
    | gt => simpa [insert, ho] using ih

theorem length_le_insertAll (cmp : K → K → Ordering) (es rest : List (K × V)) :
    es.length ≤ (insertAll cmp es rest).length := by
  induction rest generalizing es with
  | nil => exact Nat.le_refl _
  | cons e rest ih => exact Nat.le_trans (length_le_insert cmp e.1 e.2 es) (ih _)

theorem insertAll_ascending [Std.OrientedCmp cmp] {rest : List (K × V)}
    (h : Ascending cmp (es ++ rest)) : insertAll cmp es rest = es ++ rest := by
  induction rest generalizing es with
  | nil => simp [insertAll]
  | cons e rest ih =>
    have hparts : Parts (cmp e.1) es [] := by
      refine ⟨fun x hx => ?_, nofun⟩
      exact Std.OrientedCmp.gt_of_lt ((List.pairwise_append.mp h).2.2 x hx e (List.mem_cons_self ..))
    have hinsert : insert cmp e.1 e.2 es = es ++ [e] := by
      simpa using insert_new (v := e.2) hparts
    rw [insertAll, hinsert, ih (by simpa using h), List.append_assoc, List.singleton_append]

section Present

variable (h : Parts (cmp key) before after) (he : cmp key e.1 = .eq)
include h he

theorem find_some : find cmp key (before ++ e :: after) = some e := by
  have hb : ∀ x ∈ before, ¬ cmp key x.1 = .eq := fun x hx => by simp [h.before x hx]
  rw [find, List.find?_append, List.find?_eq_none.mpr (by simpa using hb)]
  simp [he]

theorem insert_over : insert cmp key v (before ++ e :: after) = before ++ (e.1, v) :: after := by
  induction before with
  | nil => simp [insert, he]
  | cons x before ih =>
    have hx := h.before x (List.mem_cons_self ..)
    have ih := ih ⟨fun y hy => h.before y (List.mem_cons_of_mem _ hy), h.after⟩
    simp [insert, hx, ih]

theorem modify_some :
    modify cmp key f (before ++ e :: after) = before ++ (e.1, f e.2) :: after := by
  have hb : modify cmp key f before = before :=
    modify_none (fun x hx => h.ne_eq x (List.mem_append_left _ hx))
  have ha : modify cmp key f after = after :=
    modify_none (fun x hx => h.ne_eq x (List.mem_append_right _ hx))
  simp only [modify] at hb ha ⊢
  rw [List.map_append, List.map_cons, hb, ha, if_pos he]

theorem erase_some : erase cmp key (before ++ e :: after) = before ++ after := by
  have hb : erase cmp key before = before :=
    erase_none (fun x hx => h.ne_eq x (List.mem_append_left _ hx))
  have ha : erase cmp key after = after :=
    erase_none (fun x hx => h.ne_eq x (List.mem_append_right _ hx))
  simp only [erase] at hb ha ⊢
  rw [List.filter_append, hb, List.filter_cons_of_neg (by simp [he]), ha]

end Present

end Assoc

namespace Tree

variable {cmp : K → K → Ordering} {t : Tree K V} {key : K} {value : V}
  {items before after : List (Nat × K × V)} {i : Nat} {e : K × V}

/-! ## What a tree does to its list -/

theorem Taken.split {r : Option (K × V) × Tree K V} (h : t.Keeps items) (ht : Taken t items r) :
    ∃ items', r.2.Keeps items' ∧
      (r.1 = none ∧ items' = items ∨
        ∃ before after i e, items = before ++ (i, e) :: after ∧ r.1 = some e ∧
          items'.map (·.2) = before.map (·.2) ++ after.map (·.2)) := by
  cases ht with
  | nothing => exact ⟨items, h, .inl ⟨rfl, rfl⟩⟩
  | @one before after after' i e t' hitems hshift hk _ =>
    exact ⟨_, hk, .inr ⟨before, after, i, e, hitems, rfl, by rw [List.map_append, hshift.entries]⟩⟩

theorem pop_assoc (h : t.Keeps items) (s : Side) :
    ∃ t' items', t.pop s = .ok (Assoc.last s (items.map (·.2)), t') ∧ t'.Keeps items' ∧
      items'.map (·.2) = Assoc.dropLast s (items.map (·.2)) := by
  have hend := h.endNode s
  -- The item at the end, taken out from between the others.
  have take : ∀ {before after : List (Nat × K × V)} {i : Nat} {e : K × V},
      items = before ++ (i, e) :: after → s.tip items = some (i, e) →
      ∃ t' after', t.pop s = .ok (some e, t') ∧ t'.Keeps (before ++ after') ∧
        after'.map (·.2) = after.map (·.2) := by
    intro before after i e hitems htip
    subst hitems
    obtain ⟨t', after', htake, -, hk, hshift⟩ := takeNode_ok h
    exact ⟨t', after', by simp [pop, hend, htip, htake], hk, hshift.entries⟩
  rcases items.eq_nil_or_concat with rfl | ⟨front, x, hitems⟩
  · have hpop : t.pop s = .ok (none, t) := by cases s <;> simp [pop, hend, Side.tip, takeNode_none]
    exact ⟨t, [], by cases s <;> exact hpop, h, by cases s <;> rfl⟩
  cases s with
  | left =>
    cases hcons : items with
    | nil => simp [hcons] at hitems
    | cons x rest =>
      obtain ⟨i, e⟩ := x
      obtain ⟨t', after', hpop, hk, hafter⟩ := @take [] rest i e hcons (by simp [hcons, Side.tip])
      exact ⟨t', after', hpop, hk, hafter⟩
  | right =>
    obtain ⟨i, e⟩ := x
    rw [List.concat_eq_append] at hitems
    obtain ⟨t', after', hpop, hk, hafter⟩ :=
      @take front [] i e hitems (by simp [hitems, Side.tip])
    obtain rfl : after' = [] := List.map_eq_nil_iff.mp hafter
    refine ⟨t', _, ?_, hk, ?_⟩
    · simpa [hitems, Assoc.last] using hpop
    · simp [hitems, Assoc.dropLast]

variable [Std.TransCmp cmp]

theorem parts_at (ha : Ascending cmp ((before ++ (i, e) :: after).map (·.2)))
    (he : cmp key e.1 = .eq) : Parts (cmp key) (before.map (·.2)) (after.map (·.2)) := by
  rw [List.map_append, List.map_cons] at ha
  exact ha.parts he

theorem find_assoc (h : t.Keeps items) (ha : Ascending cmp (items.map (·.2))) (key : K) :
    ∃ l, t.find cmp key = .ok l ∧ t.entryOf l = Assoc.find cmp key (items.map (·.2)) ∧
      l.isSome = (Assoc.find cmp key (items.map (·.2))).isSome := by
  obtain ⟨l, hrun, hl⟩ := find_found cmp h key
  refine ⟨l, hrun, ?_⟩
  cases hl with
  | absent hn => simp [Assoc.find_none (hn ha), entryOf, Slots.get?]
  | present hitems he =>
    subst hitems
    rw [List.map_append, List.map_cons, Assoc.find_some (parts_at ha he) he]
    exact ⟨h.entryOf, rfl⟩

theorem find_assoc_none (h : t.Keeps items) (ha : Ascending cmp (items.map (·.2)))
    (hfind : t.find cmp key = .ok none) : Assoc.find cmp key (items.map (·.2)) = none := by
  obtain ⟨l, hrun, -, hsome⟩ := find_assoc h ha key
  obtain rfl := Except.ok.inj (hrun.symm.trans hfind)
  exact Option.isSome_eq_false_iff.mp hsome.symm |> Option.isNone_iff_eq_none.mp

/-- An insertion does what it does to the list, or the key is new and has no
slot. -/
theorem insert_ends_assoc (h : t.Keeps items) (ha : Ascending cmp (items.map (·.2))) (key : K)
    (value : V) :
    Ends (t.insert cmp key value) (t.find cmp key = .ok none → t.size < absentNumber)
      (fun r => r.1 = (Assoc.find cmp key (items.map (·.2))).map (·.2) ∧ ∃ items',
        r.2.Keeps items' ∧ items'.map (·.2) = Assoc.insert cmp key value (items.map (·.2))) := by
  refine (insertNode_ends cmp h key value).wrap (fun r _ hr => ?_)
  cases hr.2 with
  | replaced hitems he hold hk =>
    subst hitems
    have hp := parts_at ha he
    refine ⟨?_, _, hk, ?_⟩
    · simp [hold, Assoc.find_some hp he]
    · simp [Assoc.insert_over hp he]
  | added hitems _ hold hk hparts =>
    subst hitems
    have hp := hparts ha
    refine ⟨?_, _, hk, ?_⟩
    · simp [hold, Assoc.find_none hp.ne_eq]
    · simp [Assoc.insert_new hp]

theorem insert_assoc (h : t.Keeps items) (ha : Ascending cmp (items.map (·.2))) (key : K)
    (value : V) (hfits : (Assoc.insert cmp key value (items.map (·.2))).length ≤ absentNumber) :
    ∃ t' items', t.insert cmp key value =
        .ok ((Assoc.find cmp key (items.map (·.2))).map (·.2), t') ∧
      t'.Keeps items' ∧ items'.map (·.2) = Assoc.insert cmp key value (items.map (·.2)) := by
  have hroom : t.find cmp key = .ok none → t.size < absentNumber := by
    intro hfind
    rw [Assoc.length_insert (find_assoc_none h ha hfind), List.length_map] at hfits
    rwa [h.size]
  obtain ⟨⟨old, t'⟩, hrun, rfl, items', hk, hlist⟩ :=
    (insert_ends_assoc h ha key value).total hroom
  exact ⟨t', items', hrun, hk, hlist⟩

theorem insert_exhausted (h : t.Keeps items) (ha : Ascending cmp (items.map (·.2))) (key : K)
    (value : V) (hmany : absentNumber < (Assoc.insert cmp key value (items.map (·.2))).length) :
    t.insert cmp key value = .error (.exhausted absentNumber) := by
  obtain ⟨l, hfind, hl⟩ := find_found cmp h key
  cases hl with
  | absent hnone =>
    have hlist := Assoc.length_insert (v := value) (Assoc.find_none (hnone ha))
    rw [hlist, List.length_map, ← h.size] at hmany
    rw [insert, insertNode_exhausted h hfind (by omega)]
    rfl
  | present hitems he =>
    -- The list has not grown, and it was no longer before.
    subst hitems
    have hlist := Assoc.insert_over (v := value) (parts_at ha he) he
    have hle := h.length_le
    simp only [List.map_append, List.map_cons] at hmany
    rw [hlist] at hmany
    simp only [List.length_append, List.length_cons, List.length_map] at hle hmany
    omega

theorem modify_assoc (h : t.Keeps items) (ha : Ascending cmp (items.map (·.2))) (key : K)
    (f : V → V) :
    ∃ t' items', t.modify cmp key f =
        .ok ((Assoc.find cmp key (items.map (·.2))).map (·.2), t') ∧
      t'.Keeps items' ∧ items'.map (·.2) = Assoc.modify cmp key f (items.map (·.2)) := by
  obtain ⟨r, hrun, hr⟩ := modify_ok cmp h key f
  rw [hrun]
  cases hr with
  | absent hn =>
    exact ⟨t, items, by simp [Assoc.find_none (hn ha)], h, (Assoc.modify_none (hn ha)).symm⟩
  | present hitems he _ hk =>
    subst hitems
    have hp := parts_at ha he
    refine ⟨_, _, ?_, hk, ?_⟩
    · simp [Assoc.find_some hp he]
    · simp [Assoc.modify_some hp he]

theorem removeEntry_assoc (h : t.Keeps items) (ha : Ascending cmp (items.map (·.2))) (key : K) :
    ∃ t' items', t.removeEntry cmp key = .ok (Assoc.find cmp key (items.map (·.2)), t') ∧
      t'.Keeps items' ∧ items'.map (·.2) = Assoc.erase cmp key (items.map (·.2)) := by
  obtain ⟨⟨taken, t'⟩, hrun, htaken, hsome, hnone⟩ := removeEntry_ok cmp h key
  rw [hrun]
  obtain ⟨items', hk, ⟨rfl, rfl⟩ | ⟨before, after, i, e, rfl, rfl, hlist⟩⟩ := htaken.split h
  · have hn := hnone rfl ha
    exact ⟨t', items', by rw [Assoc.find_none hn], hk, (Assoc.erase_none hn).symm⟩
  · have he := hsome e rfl
    have hp := parts_at ha he
    refine ⟨t', items', ?_, hk, ?_⟩
    · rw [List.map_append, List.map_cons, Assoc.find_some hp he]
    · rw [hlist, List.map_append, List.map_cons, Assoc.erase_some hp he]

theorem insert_ascending {items' : List (Nat × K × V)} {old : Option V} {t' : Tree K V}
    (h : t.Keeps items) (ha : Ascending cmp (items.map (·.2)))
    (hrun : t.insert cmp key value = .ok (old, t')) (hk : t'.Keeps items') :
    Ascending cmp (items'.map (·.2)) := by
  obtain ⟨items₁, hev⟩ := (insert_ends cmp h key value).of_ok hrun
  obtain rfl := hev.keeps.unique hk
  exact hev.ascending ha

theorem insertAll_assoc (h : t.Keeps items) (ha : Ascending cmp (items.map (·.2)))
    (es : List (K × V))
    (hfits : (Assoc.insertAll cmp (items.map (·.2)) es).length ≤ absentNumber) :
    ∃ t' items', t.insertAll cmp es = .ok t' ∧ t'.Keeps items' ∧
      items'.map (·.2) = Assoc.insertAll cmp (items.map (·.2)) es ∧
      Ascending cmp (items'.map (·.2)) := by
  induction es generalizing t items with
  | nil => exact ⟨t, items, rfl, h, rfl, ha⟩
  | cons e es ih =>
    have hle := Nat.le_trans (Assoc.length_le_insertAll cmp _ es) hfits
    obtain ⟨t₁, items₁, hrun, hk, hlist⟩ := insert_assoc h ha e.1 e.2 hle
    have ha₁ := insert_ascending h ha hrun hk
    rw [Assoc.insertAll, ← hlist] at hfits
    obtain ⟨t', items', hrest, hk', hlist', ha'⟩ := ih hk ha₁ hfits
    refine ⟨t', items', by simp [insertAll, hrun, hrest], hk', ?_, ha'⟩
    rw [hlist', hlist, Assoc.insertAll]

/-- Entries that make the list longer than there are numbers cannot all be
stored. -/
theorem insertAll_exhausted (h : t.Keeps items) (ha : Ascending cmp (items.map (·.2)))
    (es : List (K × V))
    (hmany : absentNumber < (Assoc.insertAll cmp (items.map (·.2)) es).length) :
    t.insertAll cmp es = .error (.exhausted absentNumber) := by
  induction es generalizing t items with
  | nil =>
    have hle := h.length_le
    rw [Assoc.insertAll, List.length_map] at hmany
    omega
  | cons e es ih =>
    by_cases hfits : (Assoc.insert cmp e.1 e.2 (items.map (·.2))).length ≤ absentNumber
    · obtain ⟨t₁, items₁, hrun, hk, hlist⟩ := insert_assoc h ha e.1 e.2 hfits
      rw [Assoc.insertAll, ← hlist] at hmany
      have hrest := ih hk (insert_ascending h ha hrun hk) hmany
      simp [insertAll, hrun, hrest]
    · simp [insertAll, insert_exhausted h ha e.1 e.2 (by omega)]

/-! ## Commands -/

variable [Written K] [Written V] [DecidableEq K]

theorem query_assoc (h : t.Keeps items) (ha : Ascending cmp (items.map (·.2))) {q : Query K}
    {r : Reply K V} (hq : Assoc.answer cmp (items.map (·.2)) q = some r) :
    q.run cmp t = .ok r := by
  cases q with
  | size =>
    obtain rfl := Option.some.inj hq
    simp [Query.run, h.size]
  | isEmpty =>
    obtain rfl := Option.some.inj hq
    cases items <;> simp [Query.run, isEmpty, h.size]
  | get key =>
    obtain rfl := Option.some.inj hq
    obtain ⟨l, hrun, hentry, -⟩ := find_assoc h ha key
    simp [Query.run, get?, entry?, hrun, hentry]
  | entry key =>
    obtain rfl := Option.some.inj hq
    obtain ⟨l, hrun, hentry, -⟩ := find_assoc h ha key
    simp [Query.run, entry?, hrun, hentry]
  | contains key =>
    obtain rfl := Option.some.inj hq
    obtain ⟨l, hrun, -, hsome⟩ := find_assoc h ha key
    simp [Query.run, contains, hrun, hsome]
  | _ => cases hq

theorem edit_assoc (h : t.Keeps items) (ha : Ascending cmp (items.map (·.2))) {e : Edit K V}
    {r : Reply K V} {es : List (K × V)} (hfits : es.length ≤ absentNumber)
    (he : Assoc.edit cmp (items.map (·.2)) e = some (r, es)) :
    ∃ t' items', e.run cmp t = .ok (r, t') ∧ t'.Keeps items' ∧ items'.map (·.2) = es ∧
      Ascending cmp es := by
  have hrun : ∃ t' items', e.run cmp t = .ok (r, t') ∧ t'.Keeps items' ∧ items'.map (·.2) = es := by
    cases e with
    | insert key value =>
      obtain ⟨rfl, rfl⟩ := Prod.mk.inj (Option.some.inj he)
      obtain ⟨t', items', hrun, hk, hlist⟩ := insert_assoc h ha key value hfits
      exact ⟨t', items', by simp [Edit.run, hrun], hk, hlist⟩
    | insertAll entries =>
      obtain ⟨rfl, rfl⟩ := Prod.mk.inj (Option.some.inj he)
      obtain ⟨t', items', hrun, hk, hlist, -⟩ := insertAll_assoc h ha entries hfits
      exact ⟨t', items', by simp [Edit.run, hrun], hk, hlist⟩
    | modify key value =>
      obtain ⟨rfl, rfl⟩ := Prod.mk.inj (Option.some.inj he)
      obtain ⟨t', items', hrun, hk, hlist⟩ := modify_assoc h ha key (value.getD ·)
      exact ⟨t', items', by simp [Edit.run, hrun], hk, hlist⟩
    | remove key =>
      obtain ⟨rfl, rfl⟩ := Prod.mk.inj (Option.some.inj he)
      obtain ⟨t', items', hrun, hk, hlist⟩ := removeEntry_assoc h ha key
      exact ⟨t', items', by simp [Edit.run, remove_eq, hrun], hk, hlist⟩
    | removeEntry key =>
      obtain ⟨rfl, rfl⟩ := Prod.mk.inj (Option.some.inj he)
      obtain ⟨t', items', hrun, hk, hlist⟩ := removeEntry_assoc h ha key
      exact ⟨t', items', by simp [Edit.run, hrun], hk, hlist⟩
    | pop s =>
      obtain ⟨rfl, rfl⟩ := Prod.mk.inj (Option.some.inj he)
      obtain ⟨t', items', hrun, hk, hlist⟩ := pop_assoc h s
      exact ⟨t', items', by simp [Edit.run, hrun], hk, hlist⟩
    | clear =>
      obtain ⟨rfl, rfl⟩ := Prod.mk.inj (Option.some.inj he)
      exact ⟨t.clear, [], rfl, keeps_clear t, rfl⟩
    | _ => cases he
  obtain ⟨t', items', hrun, hk, rfl⟩ := hrun
  -- That the keys ascend afterwards is known of every edit.
  obtain ⟨items₁, hev⟩ := (Edit.run_ends cmp h e).of_ok hrun
  obtain rfl := hev.keeps.unique hk
  exact ⟨t', items', hrun, hk, rfl, hev.ascending ha⟩

end Tree

namespace Session

variable [Written K] [Written V] [DecidableEq K] [DecidableEq V] {cmp : K → K → Ordering}
  [Std.TransCmp cmp] {s : Session K V} {t : Tree K V} {items : List (Nat × K × V)}

theorem exec_assoc (ht : s.tree 0 = .ok t) (h : t.Keeps items)
    (ha : Ascending cmp (items.map (·.2))) {command : Command K V} {r : Reply K V}
    {es : List (K × V)} (hfits : es.length ≤ absentNumber)
    (hrun : Assoc.run cmp (items.map (·.2)) command = some (r, es)) :
    ∃ o t' items', s.exec cmp 0 command = .ok o ∧ o.reply = r ∧ o.session.tree 0 = .ok t' ∧
      t'.Keeps items' ∧ items'.map (·.2) = es ∧ Ascending cmp es := by
  simp only [exec, ht, ok_bind]
  cases command with
  | query q =>
    obtain ⟨r', hq, heq⟩ := Option.map_eq_some_iff.mp hrun
    obtain ⟨rfl, rfl⟩ := Prod.mk.inj heq
    simp only [Tree.query_assoc h ha hq, orStop, ok_bind]
    exact ⟨_, t, items, rfl, rfl, ht, h, rfl, ha⟩
  | edit e =>
    obtain ⟨t', items', he, hk, rfl, ha'⟩ := Tree.edit_assoc h ha hfits hrun
    simp only [he, orStop, ok_bind]
    exact ⟨_, t', items', rfl, rfl, tree_setTree_self ht, hk, rfl, ha'⟩
  | _ => cases hrun

theorem run_assoc (ht : s.tree 0 = .ok t) (h : t.Keeps items)
    (ha : Ascending cmp (items.map (·.2))) {commands : List (Command K V)}
    {results : List (Reply K V × List (K × V))}
    (hfits : ∀ result ∈ results, result.2.length ≤ absentNumber)
    (hrun : Assoc.runAll cmp (items.map (·.2)) commands = some results) :
    ∃ reports, s.run (fun _ => cmp) (commands.map (0, ·)) = (reports, none) ∧
      List.Forall₂ (fun (report : Report K V) result => report.reply = result.1 ∧
        report.tree.entries = .ok result.2 ∧ Ascending cmp result.2) reports results := by
  induction commands generalizing s t items results with
  | nil =>
    obtain rfl := Option.some.inj hrun
    exact ⟨[], rfl, .nil⟩
  | cons command commands ih =>
    obtain ⟨⟨r, es⟩, hone, hrest⟩ := Option.bind_eq_some_iff.mp hrun
    obtain ⟨rest, hall, heq⟩ := Option.bind_eq_some_iff.mp hrest
    obtain rfl := Option.some.inj heq
    obtain ⟨hes, hothers⟩ := List.forall_mem_cons.mp hfits
    obtain ⟨o, t', items', hexec, rfl, ht', hk, rfl, ha'⟩ := exec_assoc ht h ha hes hone
    obtain ⟨reports, hreports, hagree⟩ := ih ht' hk ha' hothers hall
    refine ⟨⟨o.reply, o.events, t'⟩ :: reports, ?_, .cons ⟨rfl, hk.entries, ha'⟩ hagree⟩
    simp [run, hexec, ht', hreports]

end Session

variable [Written K] [Written V] [DecidableEq K] [DecidableEq V]

/-- Under a lawful comparison a session on one tree is a sorted association
list, as long as the list has no more than 2^32 - 1 entries: it starts with the
list of the entries it is given, every command of a dictionary is answered as
the list answers it, and afterwards the tree holds the entries of the list, whose
keys ascend strictly. -/
theorem session_is_assoc (cmp : K → K → Ordering) [Std.TransCmp cmp] (entries : List (K × V))
    (hstart : (Assoc.insertAll cmp [] entries).length ≤ absentNumber)
    {commands : List (Command K V)} {results : List (Reply K V × List (K × V))}
    (hrun : Assoc.runAll cmp (Assoc.insertAll cmp [] entries) commands = some results)
    (hfits : ∀ result ∈ results, result.2.length ≤ absentNumber) :
    ∃ s t reports, Session.start cmp entries = .ok s ∧ s.tree 0 = .ok t ∧
      t.entries = .ok (Assoc.insertAll cmp [] entries) ∧
      Ascending cmp (Assoc.insertAll cmp [] entries) ∧
      s.run (fun _ => cmp) (commands.map (0, ·)) = (reports, none) ∧
      List.Forall₂ (fun (report : Report K V) result => report.reply = result.1 ∧
        report.tree.entries = .ok result.2 ∧ Ascending cmp result.2) reports results := by
  obtain ⟨t, items, ht, hk, hlist, ha⟩ :=
    Tree.insertAll_assoc Tree.keeps_empty (List.Pairwise.nil : Ascending cmp []) entries hstart
  rw [List.map_nil] at hlist
  rw [← hlist] at hrun ⊢
  have hsession : Session.start cmp entries = .ok ⟨#[t], [], false⟩ := by
    simp [Session.start, Tree.ofList, ht]
  obtain ⟨reports, hreports, hagree⟩ :=
    @Session.run_assoc K V _ _ _ _ cmp _ ⟨#[t], [], false⟩ t items rfl hk ha _ _ hfits hrun
  exact ⟨_, t, reports, hsession, rfl, hk.entries, ha, hreports, hagree⟩

/-- The keys from 0 up, `n` of them. -/
def crowd (n : Nat) : List (Int × Int) := (List.range n).map fun i : Nat => ((i : Int), 0)

theorem crowd_ascending (n : Nat) : Ascending compare (crowd n) := by
  rw [Ascending, crowd, List.pairwise_map]
  refine List.pairwise_lt_range.imp (fun hlt => ?_)
  exact Int.compare_eq_lt.mpr (Int.ofNat_lt.mpr hlt)

@[simp] theorem length_crowd (n : Nat) : (crowd n).length = n := by simp [crowd]

theorem insertAll_crowd (n : Nat) : Assoc.insertAll compare [] (crowd n) = crowd n := by
  have h : Ascending compare ([] ++ crowd n) := crowd_ascending n
  exact Assoc.insertAll_ascending h

theorem start_crowd {n : Nat} (hmany : absentNumber < n) :
    (Session.start compare (crowd n) : Except Fault (Session Int Int)) =
      .error (.exhausted absentNumber) := by
  have hlist : absentNumber < (Assoc.insertAll compare [] (crowd n)).length := by
    rwa [insertAll_crowd, length_crowd]
  rw [Session.start, Tree.ofList,
    Tree.insertAll_exhausted Tree.keeps_empty List.Pairwise.nil _ hlist]
  rfl

/-- A list takes 2^32 different keys; of a session's the last one finds no slot. -/
theorem crowd_exhausted :
    Assoc.insertAll compare [] (crowd 4294967296) = crowd 4294967296 ∧
      (Session.start compare (crowd 4294967296) : Except Fault (Session Int Int)) =
        .error (.exhausted 4294967295) :=
  ⟨insertAll_crowd _, start_crowd (by decide)⟩

/-- Numbers that differ in sign only are equal keys: the one stored first is
kept and given back. -/
theorem signless_is_assoc :
    ∃ (s : Session Int Int) (reports : List (Report Int Int)),
      Session.start (compareOn Int.natAbs) [(2, 20), (-1, 10)] = .ok s ∧
        s.run (fun _ => compareOn Int.natAbs)
            [(0, .edit (.insert (-2) 21)), (0, .query (.get 1)), (0, .edit (.removeEntry (-2)))] =
          (reports, none) ∧
        List.Forall₂ (fun (report : Report Int Int) result => report.reply = result.1 ∧
            report.tree.entries = .ok result.2 ∧ Ascending (compareOn Int.natAbs) result.2)
          reports
          [(.value 20, [(-1, 10), (2, 21)]), (.value 10, [(-1, 10), (2, 21)]),
            (.entry (2, 21), [(-1, 10)])] := by
  obtain ⟨s, -, reports, hstart, -, -, -, hrun, hagree⟩ :=
    @session_is_assoc Int Int _ _ _ _ (compareOn Int.natAbs) inferInstance [(2, 20), (-1, 10)]
      (by decide) [.edit (.insert (-2) 21), .query (.get 1), .edit (.removeEntry (-2))]
      [(.value 20, [(-1, 10), (2, 21)]), (.value 10, [(-1, 10), (2, 21)]),
        (.entry (2, 21), [(-1, 10)])] rfl (by decide)
  exact ⟨s, reports, hstart, hrun, hagree⟩

end SlotTree
