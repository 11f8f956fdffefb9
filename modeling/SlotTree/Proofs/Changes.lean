import SlotTree.Session.TreeOp
import SlotTree.Proofs.Windows

/-
  Changes — how many counted modifications an edit makes, and that it makes
  them.

  `Edit.changes` counts without a look at the revision: a stored value counts
  one, a value handed out for a change counts one if its key is there, a
  removal counts the entries that are gone, and so does a visit; emptying the
  tree counts one. Through a window the same counts hold for what the window
  lets pass.

  `Tree.Evolves` is what every edit does to a tree, whatever the comparison:
  it leaves a sound tree, moves the revision on by the count, leaves every
  item in its slot if the count is zero, and keeps the keys of a sorted tree
  sorted if the comparison is lawful. It is carried out, unless there is no room
  for what it stores or reserves (`Edit.run_ends`).
-/
namespace SlotTree

variable {K V : Type}

/-! ## Counting -/

/-- How many entries of a tree are gone after an operation. -/
def Tree.gone {α : Type} (t : Tree K V) : Except Fault (α × Tree K V) → Nat
  | .ok (_, t') => t.size - t'.size
  | .error _ => 0

/-- Whether a key is there. -/
def Tree.hasKey (cmp : K → K → Ordering) (t : Tree K V) (key : K) : Bool :=
  match t.contains cmp key with
  | .ok there => there
  | .error _ => false

namespace WindowWrite

variable [Written K]

mutual

/-- How many counted modifications an operation makes. -/
def changes (cmp : K → K → Ordering) (t : Tree K V) (w : Window K) : WindowWrite K V → Nat
  | read _ | asReadOnly _ => 0
  | insert key _ => if w.admits cmp key then 1 else 0
  | modify key _ => if w.admits cmp key && t.hasKey cmp key then 1 else 0
  | remove key => t.gone (run cmp t w (.remove key))
  | pop s => t.gone (run cmp t w (.pop s))
  | clear => t.gone (run cmp t w .clear)
  | narrow bounds ops =>
    match w.narrow cmp bounds with
    | .error _ => 0
    | .ok inner => changesAll cmp t inner ops

/-- How many counted modifications a list of operations makes. -/
def changesAll (cmp : K → K → Ordering) (t : Tree K V) (w : Window K) :
    List (WindowWrite K V) → Nat
  | [] => 0
  | op :: ops =>
    changes cmp t w op +
      match run cmp t w op with
      | .ok (_, t) => changesAll cmp t w ops
      | .error _ => 0

end

end WindowWrite

/-- How many counted modifications an edit makes. -/
def Edit.changes [Written K] [Written V] [DecidableEq K] (cmp : K → K → Ordering) (t : Tree K V)
    (e : Edit K V) : Nat :=
  match e with
  | .insert _ _ | .clear => 1
  | .insertAll entries | .insertCounting entries => entries.length
  | .modify key _ => if t.hasKey cmp key then 1 else 0
  | .remove _ | .removeEntry _ | .removeCounting _ | .pop _ | .retain _ => t.gone (e.run cmp t)
  | .reserve _ _ => 0
  | .window bounds ops =>
    match Window.ofBounds cmp bounds with
    | .error _ => 0
    | .ok w => WindowWrite.changesAll cmp t w ops

namespace Tree

variable {t t' : Tree K V} {items items' before after : List (Nat × K × V)} {cmp : K → K → Ordering}
  {n : Nat} {key : K}

/-! ## What `n` counted modifications do -/

/-- A sound tree has become another sound tree by `n` counted
modifications. -/
structure Evolves (cmp : K → K → Ordering) (t : Tree K V) (items : List (Nat × K × V)) (n : Nat)
    (t' : Tree K V) (items' : List (Nat × K × V)) : Prop where
  keeps : t'.Keeps items'
  revision : t'.revision = t.revision + UInt64.ofNat n
  still : n = 0 → items'.map (·.1) = items.map (·.1)
  ascending : ∀ [Std.TransCmp cmp],
    Ascending cmp (items.map (·.2)) → Ascending cmp (items'.map (·.2))

namespace Evolves

theorem refl (cmp : K → K → Ordering) (h : t.Keeps items) : Evolves cmp t items 0 t items :=
  ⟨h, by simp, fun _ => rfl, id⟩

theorem trans {m : Nat} {t'' : Tree K V} {items'' : List (Nat × K × V)}
    (h : Evolves cmp t items n t' items') (h' : Evolves cmp t' items' m t'' items'') :
    Evolves cmp t items (n + m) t'' items'' where
  keeps := h'.keeps
  revision := by rw [h'.revision, h.revision, UInt64.ofNat_add, UInt64.add_assoc]
  still := fun h0 => (h'.still (by omega)).trans (h.still (by omega))
  ascending := fun ha => h'.ascending (h.ascending ha)

theorem ends {α : Type} {run : Except Fault (α × Tree K V)} {room : Prop} {a : α}
    (h : Evolves cmp t items n t' items') (hrun : run = .ok (a, t')) :
    Ends run room (fun r => ∃ items', Evolves cmp t items n r.2 items') := by
  subst hrun
  exact ⟨items', h⟩

end Evolves

theorem Thinned.evolves (h : t.Keeps items) (ht : Thinned t items t' items')
    (cmp : K → K → Ordering) : Evolves cmp t items (t.size - t'.size) t' items' where
  keeps := ht.keeps
  revision := by rw [ht.revision, h.size, ht.keeps.size]
  still := by
    intro h0
    have hle := ht.length_le
    rw [h.size, ht.keeps.size] at h0
    exact ht.still (by omega)
  ascending := by
    intro _ ha
    refine ha.keys ?_
    simpa [List.map_map, Function.comp_def] using ht.keys

theorem ascending_set {i : Nat} {e : K × V} {v : V}
    (h : Ascending cmp ((before ++ (i, e) :: after).map (·.2))) :
    Ascending cmp ((before ++ (i, e.1, v) :: after).map (·.2)) :=
  h.keys (by simp)

theorem Stored.evolves {value : V} {r : Inserted K V} (hs : Stored cmp key value items r)
    (hrev : r.tree.revision = t.revision + 1) : ∃ items', Evolves cmp t items 1 r.tree items' := by
  cases hs with
  | replaced hitems _ _ hk =>
    subst hitems
    exact ⟨_, hk, hrev, nofun, ascending_set⟩
  | added hitems _ _ hk hparts =>
    subst hitems
    refine ⟨_, hk, hrev, nofun, fun ha => ?_⟩
    have hp := hparts ha
    rw [List.map_append] at ha
    rw [List.map_append, List.map_cons]
    exact ha.insert hp

theorem insert_ends (cmp : K → K → Ordering) (h : t.Keeps items) (key : K) (value : V) :
    Ends (t.insert cmp key value) (t.roomy = true)
      (fun r => ∃ items', Evolves cmp t items 1 r.2 items') := by
  have hnode := insertNode_ends cmp h key value
  exact (hnode.mono (fun hroom _ => of_decide_eq_true hroom) (fun _ _ hdone => hdone)).wrap
    (fun r _ hr => hr.2.evolves hr.1)

theorem insertAll_ends (cmp : K → K → Ordering) (h : t.Keeps items) (es : List (K × V)) :
    Ends (t.insertAll cmp es) (t.roomyFor cmp es = true)
      (fun t' => ∃ items', Evolves cmp t items es.length t' items') := by
  induction es generalizing t items with
  | nil => exact ⟨items, .refl cmp h⟩
  | cons e es ih =>
    refine (insert_ends cmp h e.1 e.2).bind roomyFor_cons (fun r _ hr => ?_)
    obtain ⟨items₁, hev⟩ := hr
    refine (ih hev.keeps).mono id (fun t' _ hdone => ?_)
    obtain ⟨items', hev'⟩ := hdone
    rw [List.length_cons, Nat.add_comm]
    exact ⟨items', hev.trans hev'⟩

theorem reserve_ends (t : Tree K V) (n width : Nat) :
    Ends (t.reserve n width) (t.slots.bytesFor n width ≤ mostBytes) (· = t) := by
  unfold reserve Slots.reserve
  split
  · exact .of_total ⟨t, rfl, rfl⟩
  · next hlarge => exact ⟨trivial, hlarge⟩

theorem hasKey_eq {f : V → V} {r : Option V × Tree K V} (h : t.Keeps items)
    (hrun : t.modify cmp key f = .ok r) : t.hasKey cmp key = r.1.isSome := by
  obtain ⟨l, hfind, hl⟩ := find_found cmp h key
  -- Both look for the key with the same search.
  have hkey : t.hasKey cmp key = l.isSome := by simp [hasKey, contains, hfind]
  rw [hkey]
  cases hl with
  | absent =>
    simp only [modify, hfind, ok_bind, pure_ok, Except.ok.injEq] at hrun
    simp [← hrun]
  | @present before after i e hitems _ =>
    subst hitems
    obtain ⟨n, hn, rfl⟩ := h.get?
    obtain ⟨t', hset, -⟩ := h.setValue (f n.value)
    simp only [modify, hfind, ok_bind, node_ok hn, hset, pure_ok, Except.ok.injEq] at hrun
    simp [← hrun]

theorem modify_evolves (cmp : K → K → Ordering) (h : t.Keeps items) (key : K) (f : V → V) :
    ∃ old t' items', t.modify cmp key f = .ok (old, t') ∧
      Evolves cmp t items (if t.hasKey cmp key then 1 else 0) t' items' := by
  obtain ⟨r, hrun, hr⟩ := modify_ok cmp h key f
  rw [hasKey_eq h hrun]
  cases hr with
  | absent _ => exact ⟨none, t, items, hrun, .refl cmp h⟩
  | present hitems _ hrev hk =>
    subst hitems
    exact ⟨_, _, _, hrun, hk, hrev, nofun, ascending_set⟩

theorem clear_evolves (cmp : K → K → Ordering) (t : Tree K V) (items : List (Nat × K × V)) :
    Evolves cmp t items 1 t.clear [] :=
  ⟨keeps_clear t, rfl, nofun, fun _ => List.Pairwise.nil⟩

theorem evolves_gone {α : Type} {room : Prop} (h : t.Keeps items)
    {run : Except Fault (α × Tree K V)}
    (hrun : ∃ a t' items', run = .ok (a, t') ∧ Thinned t items t' items')
    (cmp : K → K → Ordering) :
    Ends run room (fun r => ∃ items', Evolves cmp t items (t.gone run) r.2 items') := by
  obtain ⟨a, t', items', rfl, hthin⟩ := hrun
  exact ⟨items', hthin.evolves h cmp⟩

theorem remove_dropped (cmp : K → K → Ordering) (h : t.Keeps items) (key : K) :
    ∃ old t' items', t.remove cmp key = .ok (old, t') ∧ Dropped t items t' items' := by
  obtain ⟨r, hrun, htaken, -⟩ := removeEntry_ok cmp h key
  obtain ⟨items', hdrop⟩ := htaken.dropped h
  exact ⟨r.1.map (·.2), r.2, items', by simp [remove_eq, hrun], hdrop⟩

end Tree

open SlotTree.Tree

variable {t : Tree K V} {items : List (Nat × K × V)}

/-! ## Changes through a window -/

namespace Window

variable (cmp : K → K → Ordering) (w : Window K)

theorem pop_dropped (h : t.Keeps items) (s : Side) :
    ∃ e t' items', w.pop cmp t s = .ok (e, t') ∧ Dropped t items t' items' := by
  obtain ⟨l, hrun, hl⟩ := endNode_ok cmp w h s
  obtain ⟨r, htake, htaken, -⟩ := takeNode_link h hl
  obtain ⟨items', hdrop⟩ := htaken.dropped h
  exact ⟨r.1, r.2, items', by simp [pop, hrun, htake], hdrop⟩

/-- The removal of all entries of a window goes along the list, up to the first
entry that lies beyond the upper end. -/
theorem clearFrom_ok {before after : List (Nat × K × V)} {steps : Nat}
    (h : t.Keeps (before ++ after)) (hp : after.length < steps) :
    ∃ t' rest, clearFrom cmp w steps t (after.head?.map (·.1)) = .ok t' ∧
      rest.map (·.2) =
        (after.map (·.2)).dropWhile (fun e => !w.interval.isBeyond cmp .right e.1) ∧
      Dropped t (before ++ after) t' (before ++ rest) := by
  induction steps generalizing t after with
  | zero => omega
  | succ steps ih =>
    cases after with
    | nil => exact ⟨t, [], rfl, rfl, .refl h⟩
    | cons x after =>
      obtain ⟨i, e⟩ := x
      simp only [List.head?_cons, Option.map_some, clearFrom, h.keyOf]
      by_cases hb : w.interval.isBeyond cmp .right e.1
      · exact ⟨t, (i, e) :: after, by simp [hb], by simp [hb], .refl h⟩
      · obtain ⟨r, after', herase, -, hnext, hrev, hk, hshift⟩ := eraseNode_ok h
        have hlen : after'.length = after.length := by
          simpa using congrArg List.length hshift.entries
        -- The removal answers where the rest starts, also if that has moved to slot `i`.
        have hp' : after.length < steps := Nat.lt_of_succ_lt_succ hp
        obtain ⟨t', rest, hrun, hrest, hdrop⟩ := ih hk (by omega)
        refine ⟨t', rest, ?_, ?_, (Dropped.one hk hrev hshift).trans hdrop⟩
        · simp [hb, herase, hnext, hrun]
        · rw [hrest, hshift.entries]
          simp [hb]

theorem clear_ok (h : t.Keeps items) {before after : List (Nat × K × V)}
    (hl : w.endNode cmp t .left = .ok (after.head?.map (·.1))) (hitems : items = before ++ after) :
    ∃ t' rest, w.clear cmp t = .ok t' ∧
      rest.map (·.2) =
        (after.map (·.2)).dropWhile (fun e => !w.interval.isBeyond cmp .right e.1) ∧
      Dropped t items t' (before ++ rest) := by
  subst hitems
  obtain ⟨t', rest, hclear, hrest, hdrop⟩ := clearFrom_ok cmp w h h.after_lt_patience
  exact ⟨t', rest, by simp [clear, hl, hclear], hrest, hdrop⟩

theorem clear_dropped (h : t.Keeps items) :
    ∃ t' items', w.clear cmp t = .ok t' ∧ Dropped t items t' items' := by
  obtain ⟨l, hrun, hl⟩ := endNode_ok cmp w h .left
  obtain ⟨n, -, before, after, hitems, rfl, -⟩ := hl.ahead .left
  obtain ⟨t', rest, hclear, -, hdrop⟩ := clear_ok cmp w h hrun hitems
  exact ⟨t', before ++ rest, hclear, hdrop⟩

end Window

namespace WindowWrite

variable [Written K]

/-- Changes of a key that lies in the window are those of the tree itself. -/
theorem run_admitted {cmp : K → K → Ordering} {w : Window K} {key : K}
    (hkey : w.admits cmp key = true) :
    (∀ value, run cmp t w (.insert key value) = (Edit.insert key value).run cmp t) ∧
      run cmp t w (.remove key) = (Edit.remove key).run cmp t ∧
      ∀ value, run cmp t w (.modify key value) = (Edit.modify key value).run cmp t := by
  refine ⟨?_, ?_, ?_⟩
  · intro value
    simp only [run, Window.insert, Window.checkKey, hkey, if_true, Edit.run]
    cases t.insert cmp key value <;> rfl
  · simp only [run, Window.remove, Window.checkKey, hkey, if_true, Edit.run]
    cases t.remove cmp key <;> rfl
  · intro value
    simp only [run, Window.modify, hkey, if_true, Edit.run]

/-- Changes of a key that does not lie in the window are refused, or there is no
value to hand out, and the tree stays as it is. -/
theorem run_barred {cmp : K → K → Ordering} {w : Window K} {key : K}
    (hkey : w.admits cmp key = false) :
    (∀ value, run cmp t w (.insert key value) = .ok (.refused .keyOutOfRange, t)) ∧
      run cmp t w (.remove key) = .ok (.refused .keyOutOfRange, t) ∧
      ∀ value, run cmp t w (.modify key value) = .ok (.nothing, t) := by
  refine ⟨?_, ?_, ?_⟩
  · intro value
    simp [run, Window.insert, Window.checkKey, hkey, settle]
  · simp [run, Window.remove, Window.checkKey, hkey, settle]
  · intro value
    simp [run, Window.modify, hkey, Reply.option]

variable (cmp : K → K → Ordering)

mutual

/-- Every operation on a window is carried out, as the modifications it counts,
unless there is no room for an entry. -/
theorem run_ends {t : Tree K V} {items : List (Nat × K × V)} (h : t.Keeps items) (w : Window K) :
    ∀ op : WindowWrite K V, Ends (run cmp t w op) (roomy cmp t w op = true)
      (fun r => ∃ items', Evolves cmp t items (changes cmp t w op) r.2 items')
  | read op => by
    obtain ⟨r, hr⟩ := WindowRead.run_ok cmp h w op
    simp only [changes]
    exact (Evolves.refl cmp h).ends (by simp only [run, hr, ok_bind, pure_ok]; rfl)
  | asReadOnly ops => by
    obtain ⟨rs, hrs⟩ := WindowRead.runAll_ok cmp h w ops
    simp only [changes]
    exact (Evolves.refl cmp h).ends (by simp only [run, hrs, ok_bind, pure_ok]; rfl)
  | insert key value => by
    simp only [changes, roomy]
    cases hkey : w.admits cmp key with
    | true =>
      rw [(run_admitted hkey).1 value]
      exact (insert_ends cmp h key value).wrap (fun _ _ hdone => hdone)
    | false => exact (Evolves.refl cmp h).ends ((run_barred hkey).1 value)
  | remove key => by
    refine evolves_gone h ?_ cmp
    cases hkey : w.admits cmp key with
    | true =>
      obtain ⟨old, t', items', hrun, hdrop⟩ := remove_dropped cmp h key
      rw [(run_admitted hkey).2.1]
      exact ⟨_, t', items', by simp only [Edit.run, hrun, ok_bind, pure_ok]; rfl, hdrop.toThinned⟩
    | false => exact ⟨_, t, items, (run_barred hkey).2.1, .refl h⟩
  | modify key value => by
    simp only [changes]
    cases hkey : w.admits cmp key with
    | true =>
      obtain ⟨old, t', items', hrun, hev⟩ := modify_evolves cmp h key (value.getD ·)
      rw [(run_admitted hkey).2.2 value, Bool.true_and]
      exact hev.ends (by simp only [Edit.run, hrun, ok_bind, pure_ok]; rfl)
    | false => exact (Evolves.refl cmp h).ends ((run_barred hkey).2.2 value)
  | pop s => by
    obtain ⟨e, t', items', hrun, hdrop⟩ := Window.pop_dropped cmp w h s
    exact evolves_gone h ⟨.option .entry e, t', items', by simp only [run, hrun, ok_bind, pure_ok],
      hdrop.toThinned⟩ cmp
  | clear => by
    obtain ⟨t', items', hrun, hdrop⟩ := Window.clear_dropped cmp w h
    exact evolves_gone h ⟨.nothing, t', items', by simp only [run, hrun, ok_bind, pure_ok],
      hdrop.toThinned⟩ cmp
  | narrow bounds ops => by
    simp only [run, changes, roomy]
    cases w.narrow cmp bounds with
    | error refusal => exact (Evolves.refl cmp h).ends rfl
    | ok inner => exact (runAll_ends h inner ops).wrap (fun _ _ hdone => hdone)

theorem runAll_ends {t : Tree K V} {items : List (Nat × K × V)} (h : t.Keeps items)
    (w : Window K) :
    ∀ ops : List (WindowWrite K V), Ends (runAll cmp t w ops) (roomyAll cmp t w ops = true)
      (fun r => ∃ items', Evolves cmp t items (changesAll cmp t w ops) r.2 items')
  | [] => ⟨items, by simpa only [changesAll] using .refl cmp h⟩
  | op :: ops => by
    simp only [runAll, changesAll]
    refine (run_ends h w op).bind roomyAll_cons (fun r hr hdone => ?_)
    obtain ⟨items₁, hev⟩ := hdone
    refine (runAll_ends hev.keeps w ops).wrap (fun rs _ hdone' => ?_)
    obtain ⟨items', hev'⟩ := hdone'
    simp only [hr]
    exact ⟨items', hev.trans hev'⟩

end

end WindowWrite

/-! ## All changes -/

namespace Edit

variable (cmp : K → K → Ordering)

theorem runInserts_ends (h : t.Keeps items) (es : List (K × V)) :
    Ends (runInserts cmp t es) (t.roomyFor cmp es = true)
      (fun r => ∃ items', Evolves cmp t items es.length r.2 items') := by
  induction es generalizing t items with
  | nil => exact ⟨items, .refl cmp h⟩
  | cons e es ih =>
    refine (insert_ends cmp h e.1 e.2).bind roomyFor_cons (fun r _ hr => ?_)
    obtain ⟨items₁, hev⟩ := hr
    refine (ih hev.keeps).wrap (fun r' _ hdone => ?_)
    obtain ⟨items', hev'⟩ := hdone
    rw [List.length_cons, Nat.add_comm]
    exact ⟨items', hev.trans hev'⟩

theorem runRemovals_dropped (h : t.Keeps items) (keys : List K) :
    ∃ n t' items', runRemovals cmp t keys = .ok (n, t') ∧ Dropped t items t' items' := by
  induction keys generalizing t items with
  | nil => exact ⟨0, t, items, rfl, .refl h⟩
  | cons key keys ih =>
    obtain ⟨old, t₁, items₁, hrun, hdrop⟩ := remove_dropped cmp h key
    obtain ⟨n, t', items', hrest, hdrop'⟩ := ih hdrop.keeps
    exact ⟨old.toList.length + n, t', items', by simp [runRemovals, hrun, hrest],
      hdrop.trans hdrop'⟩

variable [Written K] [Written V] [DecidableEq K]

theorem run_ends (h : t.Keeps items) (e : Edit K V) :
    Ends (e.run cmp t) (e.roomy cmp t = true)
      (fun r => ∃ items', Evolves cmp t items (e.changes cmp t) r.2 items') := by
  cases e with
  | insert key value => exact (insert_ends cmp h key value).wrap (fun _ _ hdone => hdone)
  | insertAll entries => exact (insertAll_ends cmp h entries).wrap (fun _ _ hdone => hdone)
  | insertCounting entries => exact (runInserts_ends cmp h entries).wrap (fun _ _ hdone => hdone)
  | modify key value =>
    obtain ⟨old, t', items', hrun, hev⟩ := modify_evolves cmp h key (value.getD ·)
    exact hev.ends (by simp only [run, hrun, ok_bind, pure_ok]; rfl)
  | remove key =>
    obtain ⟨old, t', items', hrun, hdrop⟩ := remove_dropped cmp h key
    exact evolves_gone h ⟨.option .value old, t', items',
      by simp only [run, hrun, ok_bind, pure_ok], hdrop.toThinned⟩ cmp
  | removeEntry key =>
    obtain ⟨r, hrun, htaken, -⟩ := removeEntry_ok cmp h key
    obtain ⟨items', hdrop⟩ := htaken.dropped h
    exact evolves_gone h ⟨.option .entry r.1, r.2, items',
      by simp only [run, hrun, ok_bind, pure_ok], hdrop.toThinned⟩ cmp
  | removeCounting keys =>
    obtain ⟨n, t', items', hrun, hdrop⟩ := runRemovals_dropped cmp h keys
    exact evolves_gone h ⟨.count n, t', items', by simp only [run, hrun, ok_bind, pure_ok],
      hdrop.toThinned⟩ cmp
  | pop s =>
    obtain ⟨r, hrun, htaken, -⟩ := pop_ok h s
    obtain ⟨items', hdrop⟩ := htaken.dropped h
    exact evolves_gone h ⟨.option .entry r.1, r.2, items',
      by simp only [run, hrun, ok_bind, pure_ok], hdrop.toThinned⟩ cmp
  | clear => exact (clear_evolves cmp t items).ends rfl
  | retain visit =>
    obtain ⟨t', kept, hrun, -, hthin⟩ := retain_ok (listing visit) [] h
    have hgone : ∃ r t' items', Edit.run cmp t (.retain visit) = .ok (r, t') ∧
        Thinned t items t' items' := by
      simp only [run, hrun, ok_bind, pure_ok]
      exact ⟨_, t', kept, rfl, hthin⟩
    exact evolves_gone h hgone cmp
  | reserve n width =>
    refine ((reserve_ends t n width).mono of_decide_eq_true (fun _ _ hdone => hdone)).wrap ?_
    rintro t' - rfl
    exact ⟨items, .refl cmp h⟩
  | window bounds ops =>
    simp only [run, changes, roomy]
    cases Window.ofBounds cmp bounds with
    | error refusal => exact (Evolves.refl cmp h).ends rfl
    | ok w => exact (WindowWrite.runAll_ends cmp h w ops).wrap (fun _ _ hdone => hdone)

end Edit

end SlotTree
