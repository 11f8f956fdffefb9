import SlotTree.Proofs.Narrowing
import SlotTree.Proofs.Stretch

/-
  Confined changes — what is changed through a window lies in it.

  What an operation through a window does to a sorted tree is said of the list
  of its entries (`WindowWrite.onList`): a key that satisfies both bounds is
  inserted, removed or changed as in the tree itself, one that does not is
  refused; the least or greatest entry inside is taken, or all of them are. On
  lists it is plain that the entries outside stay (`outside_onList`), also those
  outside of the windows that one was narrowed from (`Window.Encloses`).

  The tree follows the list (`WindowWrite.run_onList`), as far as there is room
  for new entries. Removing all entries goes from the lower end of the stretch up
  to the first entry beyond the upper bound, and these are the entries of the
  stretch (`Window.clear_inside`).
-/
namespace SlotTree

variable {K V : Type} {cmp : K → K → Ordering}

/-! ## Lists -/

namespace Interval

/-- The entries whose keys do not satisfy both bounds. -/
def outside (cmp : K → K → Ordering) (i : Interval K) (es : List (K × V)) : List (K × V) :=
  es.filter (fun e => !i.within cmp e.1)

variable {i j : Interval K} {key : K} {value : V} {f : V → V}

theorem outside_outside (h : ∀ key, j.within cmp key = true → i.within cmp key = true)
    (es : List (K × V)) : i.outside cmp (j.outside cmp es) = i.outside cmp es := by
  rw [outside, outside, outside, List.filter_filter]
  refine List.filter_congr ?_
  intro e _
  cases hj : j.within cmp e.1 with
  | false => simp
  | true => simp [h _ hj]

theorem outside_congr {es es' : List (K × V)}
    (h : ∀ key, j.within cmp key = true → i.within cmp key = true)
    (hsame : j.outside cmp es' = j.outside cmp es) : i.outside cmp es' = i.outside cmp es := by
  rw [← outside_outside h es', hsame, outside_outside h]

variable [Std.TransCmp cmp]

theorem outside_split {items : List (Nat × K × V)} (ha : Ascending cmp (items.map (·.2))) :
    ∃ before after, items = before ++ i.stretch cmp items ++ after ∧
      i.outside cmp (items.map (·.2)) = (before ++ after).map (·.2) ∧
      ∀ x ∈ after, i.isBeyond cmp .right x.2.1 = true := by
  obtain ⟨before, after, hitems, hbefore, hafter⟩ := i.stretch_split ha
  refine ⟨before, after, hitems, ?_, hafter⟩
  have kept : ∀ {s : Side} {l : List (Nat × K × V)}, (∀ x ∈ l, i.isBeyond cmp s x.2.1 = true) →
      l.filter (fun x => !i.within cmp x.2.1) = l := by
    intro s l hl
    rw [List.filter_eq_self]
    intro x hx
    rw [Bool.not_eq_true', Bool.eq_false_iff]
    intro hin
    have hbeyond := hl x hx
    rw [not_isBeyond hin s] at hbeyond
    cases hbeyond
  have hnone : (i.stretch cmp items).filter (fun x => !i.within cmp x.2.1) = [] := by
    rw [List.filter_eq_nil_iff]
    intro x hx
    simp [(List.mem_filter.mp hx).2]
  rw [outside, List.filter_map]
  congr 1
  calc items.filter (fun x => !i.within cmp x.2.1)
    _ = (before ++ i.stretch cmp items ++ after).filter (fun x => !i.within cmp x.2.1) := by
      rw [← hitems]
    _ = before ++ after := by
      rw [List.filter_append, List.filter_append, kept hbefore, hnone, kept hafter, List.append_nil]

variable (hkey : i.within cmp key = true)
include hkey

theorem outside_insert (es : List (K × V)) :
    i.outside cmp (Assoc.insert cmp key value es) = i.outside cmp es := by
  induction es with
  | nil => simp [Assoc.insert, outside, hkey]
  | cons e es ih =>
    cases hcmp : cmp key e.1 with
    | lt => simp [Assoc.insert, hcmp, outside, hkey]
    | eq =>
      have he : i.within cmp e.1 = true := (within_congr hcmp).symm.trans hkey
      simp [Assoc.insert, hcmp, outside, he]
    | gt =>
      simp only [outside] at ih
      simp [Assoc.insert, hcmp, outside, List.filter_cons, ih]

theorem outside_erase (es : List (K × V)) :
    i.outside cmp (Assoc.erase cmp key es) = i.outside cmp es := by
  rw [outside, Assoc.erase, outside, List.filter_filter]
  refine List.filter_congr ?_
  intro e _
  by_cases he : cmp key e.1 = .eq
  · simp [← within_congr he, hkey]
  · simp [he]

theorem outside_modify (es : List (K × V)) :
    i.outside cmp (Assoc.modify cmp key f es) = i.outside cmp es := by
  induction es with
  | nil => rfl
  | cons e es ih =>
    simp only [outside, Assoc.modify] at ih
    by_cases he : cmp key e.1 = .eq
    · have hin : i.within cmp e.1 = true := (within_congr he).symm.trans hkey
      simp [Assoc.modify, outside, he, hin, ih]
    · simp [Assoc.modify, outside, List.filter_cons, he, ih]

end Interval

namespace WindowWrite

variable [Written K]

mutual

/-- What an operation through a window on the keys of an interval is answered
when the tree has the entries of a list, and the entries that it leaves. -/
def onList (cmp : K → K → Ordering) (es : List (K × V)) (i : Interval K) :
    WindowWrite K V → Reply K V × List (K × V)
  | read op => (op.onList cmp es i, es)
  | insert key value =>
    if i.within cmp key then
      (.option .value ((Assoc.find cmp key es).map (·.2)), Assoc.insert cmp key value es)
    else (.refused .keyOutOfRange, es)
  | remove key =>
    if i.within cmp key then
      (.option .value ((Assoc.find cmp key es).map (·.2)), Assoc.erase cmp key es)
    else (.refused .keyOutOfRange, es)
  | modify key value =>
    if i.within cmp key then
      (.option .value ((Assoc.find cmp key es).map (·.2)), Assoc.modify cmp key (value.getD ·) es)
    else (.nothing, es)
  | pop s =>
    match s.tip (i.inside cmp es) with
    | none => (.nothing, es)
    | some e => (.entry e, Assoc.erase cmp e.1 es)
  | clear => (.nothing, i.outside cmp es)
  | asReadOnly ops => (.answers (WindowRead.onListAll cmp es i ops), es)
  | narrow bounds ops =>
    match i.narrow cmp bounds with
    | .error refusal => (.refused refusal, es)
    | .ok both =>
      let (rs, es) := onListAll cmp es both ops
      (.answers rs, es)

/-- What operations are answered one after the other, and what they leave. -/
def onListAll (cmp : K → K → Ordering) (es : List (K × V)) (i : Interval K) :
    List (WindowWrite K V) → List (Reply K V) × List (K × V)
  | [] => ([], es)
  | op :: ops =>
    let (r, es) := onList cmp es i op
    let (rs, es) := onListAll cmp es i ops
    (r :: rs, es)

end

mutual

theorem outside_onList [Std.TransCmp cmp] (es : List (K × V)) (i : Interval K) :
    ∀ op : WindowWrite K V, i.outside cmp (onList cmp es i op).2 = i.outside cmp es
  | read op => by simp only [onList]
  | asReadOnly ops => by simp only [onList]
  | insert key value => by
    simp only [onList]
    cases hkey : i.within cmp key with
    | true => exact Interval.outside_insert hkey es
    | false => rfl
  | remove key => by
    simp only [onList]
    cases hkey : i.within cmp key with
    | true => exact Interval.outside_erase hkey es
    | false => rfl
  | modify key value => by
    simp only [onList]
    cases hkey : i.within cmp key with
    | true => exact Interval.outside_modify hkey es
    | false => rfl
  | pop s => by
    simp only [onList]
    cases htip : s.tip (i.inside cmp es) with
    | none => rfl
    | some e => exact Interval.outside_erase (List.mem_filter.mp (Side.tip_mem htip)).2 es
  | clear => by
    simp only [onList]
    exact Interval.outside_outside (fun _ h => h) es
  | narrow bounds ops => by
    simp only [onList]
    rcases i.narrow_eq cmp bounds with ⟨flaw, hnarrow, -⟩ | ⟨both, hnarrow, hboth⟩
    · simp only [hnarrow]
    · simp only [hnarrow]
      -- What lies outside of the window lies outside of the narrower one.
      have hin : ∀ key, both.within cmp key = true → i.within cmp key = true := by
        intro key hkey
        rw [hboth, Bool.and_eq_true] at hkey
        exact hkey.1
      exact Interval.outside_congr hin (outside_onListAll es both ops)

theorem outside_onListAll [Std.TransCmp cmp] (es : List (K × V)) (i : Interval K) :
    ∀ ops : List (WindowWrite K V),
    i.outside cmp (onListAll cmp es i ops).2 = i.outside cmp es
  | [] => by simp only [onListAll]
  | op :: ops => by
    simp only [onListAll]
    exact (outside_onListAll _ i ops).trans (outside_onList es i op)

end

end WindowWrite

/-! ## Trees -/

open SlotTree.Tree

variable {t : Tree K V} {items : List (Nat × K × V)} {w : Window K}

namespace Window

variable [Std.TransCmp cmp] (h : t.Keeps items) (ha : Ascending cmp (items.map (·.2)))
include h ha

theorem pop_none {s : Side} (htip : s.tip (w.interval.inside cmp (items.map (·.2))) = none) :
    w.pop cmp t s = .ok (none, t) := by
  rw [← Interval.entries_stretch, Side.tip_map, Option.map_eq_none_iff] at htip
  simp [pop, endNode_inside h ha, htip, takeNode_none]

theorem pop_some {s : Side} {e : K × V}
    (htip : s.tip (w.interval.inside cmp (items.map (·.2))) = some e) :
    ∃ t' items', w.pop cmp t s = .ok (some e, t') ∧ t'.Keeps items' ∧
      items'.map (·.2) = Assoc.erase cmp e.1 (items.map (·.2)) := by
  rw [← Interval.entries_stretch, Side.tip_map, Option.map_eq_some_iff] at htip
  obtain ⟨⟨i, e⟩, htip, rfl⟩ := htip
  obtain ⟨before, after, rfl⟩ :=
    List.append_of_mem (Interval.stretch_sublist.subset (Side.tip_mem htip))
  obtain ⟨t', after', htake, -, hk, hshift⟩ := takeNode_ok h
  have he : cmp e.1 e.1 = .eq := Std.ReflCmp.compare_self
  refine ⟨t', before ++ after', ?_, hk, ?_⟩
  · simp [pop, endNode_inside h ha, htip, htake]
  · rw [List.map_append, hshift.entries, List.map_append, List.map_cons,
      Assoc.erase_some (parts_at ha he) he]

theorem clear_inside :
    ∃ t' items', w.clear cmp t = .ok t' ∧ t'.Keeps items' ∧
      items'.map (·.2) = w.interval.outside cmp (items.map (·.2)) := by
  obtain ⟨before, after, hitems, houtside, hbeyond⟩ := w.interval.outside_split ha
  have hl := endNode_inside (w := w) h ha .left
  cases hstretch : w.interval.stretch cmp items with
  | nil =>
    -- With nothing inside the removal does not begin.
    have hend : w.endNode cmp t .left = .ok (([] : List (Nat × K × V)).head?.map (·.1)) := by
      rw [hl, hstretch]
      rfl
    obtain ⟨t', rest, hclear, hrest, hdrop⟩ :=
      clear_ok cmp w h hend (List.append_nil items).symm
    obtain rfl : rest = [] := List.map_eq_nil_iff.mp hrest
    refine ⟨t', items ++ [], hclear, hdrop.keeps, ?_⟩
    rw [hstretch, List.append_nil] at hitems
    rw [houtside, List.append_nil, hitems]
  | cons x stretch =>
    have hend : w.endNode cmp t .left =
        .ok ((w.interval.stretch cmp items ++ after).head?.map (·.1)) := by
      rw [hl, hstretch]
      rfl
    rw [List.append_assoc] at hitems
    obtain ⟨t', rest, hclear, hrest, hdrop⟩ := clear_ok cmp w h hend hitems
    refine ⟨t', before ++ rest, hclear, hdrop.keeps, ?_⟩
    rw [houtside, List.map_append, hrest, List.map_append, List.map_append]
    congr 1
    -- The removal passes the stretch and stops right after it.
    have hpass : ∀ e ∈ (w.interval.stretch cmp items).map (·.2),
        (!w.interval.isBeyond cmp .right e.1) = true := by
      intro e he
      rw [Interval.entries_stretch] at he
      rw [Interval.not_isBeyond (List.mem_filter.mp he).2 .right]
      rfl
    rw [List.dropWhile_append_of_pos hpass]
    cases after with
    | nil => rfl
    | cons y after =>
      have hy := hbeyond y (List.mem_cons_self ..)
      exact List.dropWhile_cons_of_neg (by simp [hy])

end Window

/-- A run is answered as a list answers it and leaves a sorted tree with the
entries that the list leaves, or it breaks off for want of room. -/
def Follows {α : Type} (cmp : K → K → Ordering) (run : Except Fault (α × Tree K V)) (room : Prop)
    (result : α × List (K × V)) : Prop :=
  Ends run room (fun r => r.1 = result.1 ∧ ∃ items', r.2.Keeps items' ∧
    items'.map (·.2) = result.2 ∧ Ascending cmp result.2)

theorem Follows.answered {α : Type} {run : Except Fault (α × Tree K V)} {room : Prop}
    {result : α × List (K × V)} {t' : Tree K V} {items' : List (Nat × K × V)} (hk : t'.Keeps items')
    (hrun : run = .ok (result.1, t')) (hlist : items'.map (·.2) = result.2)
    (ha : Ascending cmp result.2) : Follows cmp run room result := by
  subst hrun
  exact ⟨rfl, items', hk, hlist, ha⟩

namespace WindowWrite

variable [Written K]

mutual

/-- A sorted tree follows the list through every operation on a window. -/
theorem run_onList [Written V] [DecidableEq K] [Std.TransCmp cmp] {t : Tree K V}
    {items : List (Nat × K × V)} (h : t.Keeps items) (ha : Ascending cmp (items.map (·.2)))
    (w : Window K) : ∀ op : WindowWrite K V,
    Follows cmp (run cmp t w op) (roomy cmp t w op = true)
      (onList cmp (items.map (·.2)) w.interval op)
  | read op => by
    simp only [run, onList, WindowRead.run_onList h ha w op, ok_bind, pure_ok]
    exact .answered h rfl rfl ha
  | asReadOnly ops => by
    simp only [run, onList, WindowRead.runAll_onListAll h ha w ops, ok_bind, pure_ok]
    exact .answered h rfl rfl ha
  | insert key value => by
    simp only [onList, roomy, Interval.within_eq]
    cases hkey : w.interval.contains cmp key with
    | true =>
      rw [(run_admitted hkey).1 value]
      have hends := insert_ends_assoc h ha key value
      refine (hends.mono (fun hroom _ => of_decide_eq_true hroom) (fun _ _ hd => hd)).wrap ?_
      rintro ⟨old, t'⟩ hrun ⟨rfl, items', hk, hlist⟩
      exact ⟨rfl, items', hk, hlist, hlist ▸ insert_ascending h ha hrun hk⟩
    | false =>
      rw [(run_barred hkey).1 value]
      exact .answered h rfl rfl ha
  | remove key => by
    simp only [onList, Interval.within_eq]
    cases hkey : w.interval.contains cmp key with
    | true =>
      rw [(run_admitted hkey).2.1]
      have hfits : (Assoc.erase cmp key (items.map (·.2))).length ≤ absentNumber :=
        Nat.le_trans (List.length_filter_le ..) (by simpa using h.length_le)
      obtain ⟨t', items', hrun, hk, hlist, ha'⟩ := edit_assoc (e := .remove key) h ha hfits rfl
      exact .answered hk hrun hlist ha'
    | false =>
      rw [(run_barred hkey).2.1]
      exact .answered h rfl rfl ha
  | modify key value => by
    simp only [onList, Interval.within_eq]
    cases hkey : w.interval.contains cmp key with
    | true =>
      rw [(run_admitted hkey).2.2 value]
      have hfits : (Assoc.modify cmp key (value.getD ·) (items.map (·.2))).length ≤ absentNumber := by
        simpa [Assoc.modify] using h.length_le
      obtain ⟨t', items', hrun, hk, hlist, ha'⟩ :=
        edit_assoc (e := .modify key value) h ha hfits rfl
      exact .answered hk hrun hlist ha'
    | false =>
      rw [(run_barred hkey).2.2 value]
      exact .answered h rfl rfl ha
  | pop s => by
    simp only [run, onList]
    cases htip : s.tip (w.interval.inside cmp (items.map (·.2))) with
    | none =>
      simp only [Window.pop_none h ha htip, ok_bind, pure_ok]
      exact .answered h rfl rfl ha
    | some e =>
      obtain ⟨t', items', hpop, hk, hlist⟩ := Window.pop_some h ha htip
      simp only [hpop, ok_bind, pure_ok]
      exact .answered hk rfl hlist (List.Pairwise.filter _ ha)
  | clear => by
    obtain ⟨t', items', hclear, hk, hlist⟩ := Window.clear_inside (w := w) h ha
    simp only [run, onList, hclear, ok_bind, pure_ok]
    exact .answered hk rfl hlist (List.Pairwise.filter _ ha)
  | narrow bounds ops => by
    simp only [run, onList, roomy, Window.narrow]
    cases w.interval.narrow cmp bounds with
    | error refusal => exact .answered h rfl rfl ha
    | ok both =>
      refine (runAll_onListAll h ha ⟨both⟩ ops).wrap (fun r _ hr => ?_)
      exact ⟨congrArg Reply.answers hr.1, hr.2⟩

theorem runAll_onListAll [Written V] [DecidableEq K] [Std.TransCmp cmp] {t : Tree K V}
    {items : List (Nat × K × V)} (h : t.Keeps items) (ha : Ascending cmp (items.map (·.2)))
    (w : Window K) : ∀ ops : List (WindowWrite K V),
    Follows cmp (runAll cmp t w ops) (roomyAll cmp t w ops = true)
      (onListAll cmp (items.map (·.2)) w.interval ops)
  | [] => by
    simp only [runAll, onListAll]
    exact .answered h rfl rfl ha
  | op :: ops => by
    simp only [runAll, onListAll]
    refine (run_onList h ha w op).bind roomyAll_cons (fun r _ hr => ?_)
    obtain ⟨hreply, items₁, hk₁, hlist₁, ha₁⟩ := hr
    rw [← hlist₁] at ha₁ ⊢
    refine (runAll_onListAll hk₁ ha₁ w ops).wrap (fun rs _ hrs => ?_)
    exact ⟨congrArg₂ List.cons hreply hrs.1, hrs.2⟩

end

end WindowWrite

/-! ## Sessions -/

/-- The windows that a window was narrowed from, and itself. -/
inductive Window.Encloses (cmp : K → K → Ordering) (v : Window K) : Window K → Prop where
  | self : Encloses cmp v v
  | narrow {w inner : Window K} {bounds : Interval K} :
    Encloses cmp v w → w.narrow cmp bounds = .ok inner → Encloses cmp v inner

theorem Window.Encloses.within [Std.TransCmp cmp] {v w : Window K} (h : v.Encloses cmp w) (key : K)
    (hkey : w.interval.within cmp key = true) : v.interval.within cmp key = true := by
  induction h with
  | self => exact hkey
  | @narrow w inner bounds _ hnarrow ih =>
    apply ih
    rcases w.interval.narrow_eq cmp bounds with ⟨flaw, hrefused, -⟩ | ⟨both, haccepted, hboth⟩
    · simp [Window.narrow, hrefused] at hnarrow
    · simp only [Window.narrow, haccepted, map_ok, Except.ok.injEq] at hnarrow
      rw [← hnarrow, hboth, Bool.and_eq_true] at hkey
      exact hkey.1

/-- A window confines changes of a tree that has the entries of a list. -/
structure Window.Confines [Written K] (cmp : K → K → Ordering)
    (t : Tree K V) (es : List (K × V)) (w : Window K) : Prop where
  /-- Operations are answered as on the list, if there is room for what they
  store, and leave the entries outside of the window and of all windows around
  it. -/
  outside : ∀ (ops : List (WindowWrite K V)) rs es',
    WindowWrite.onListAll cmp es w.interval ops = (rs, es') →
      Ends (WindowWrite.runAll cmp t w ops) (WindowWrite.roomyAll cmp t w ops = true)
          (fun r => r.1 = rs ∧ r.2.entries = .ok es' ∧ Ascending cmp es') ∧
        ∀ v : Window K, v.Encloses cmp w → v.interval.outside cmp es' = v.interval.outside cmp es
  /-- A key that does not lie in the window changes nothing. -/
  refused : ∀ key, w.interval.within cmp key = false →
    (∀ value, (WindowWrite.insert key value).run cmp t w = .ok (.refused .keyOutOfRange, t)) ∧
      (WindowWrite.remove key).run cmp t w = .ok (.refused .keyOutOfRange, t) ∧
      ∀ value, (WindowWrite.modify key value).run cmp t w = .ok (.nothing, t)
  /-- A key that lies in the window changes what it changes in the tree. -/
  passed : ∀ key, w.interval.within cmp key = true →
    (∀ value, (WindowWrite.insert key value).run cmp t w = (Edit.insert key value).run cmp t) ∧
      (WindowWrite.remove key).run cmp t w = (Edit.remove key).run cmp t ∧
      ∀ value, (WindowWrite.modify key value).run cmp t w = (Edit.modify key value).run cmp t
  /-- The entry at one end of the window is taken, if there is one. -/
  pop : ∀ s : Side, match s.tip (w.interval.inside cmp es) with
    | none => (WindowWrite.pop s).run cmp t w = .ok (.nothing, t)
    | some e => ∃ t', (WindowWrite.pop s).run cmp t w = .ok (.entry e, t') ∧
        t'.entries = .ok (Assoc.erase cmp e.1 es)
  /-- The entries inside are removed, and no others. -/
  clear : ∃ t', WindowWrite.clear.run cmp t w = .ok (.nothing, t') ∧
    t'.entries = .ok (w.interval.outside cmp es)

/-- With room for what they store, operations are carried out as on the list. -/
theorem Window.Confines.runAll_ok [Written K] {es es' : List (K × V)} {w : Window K}
    (h : w.Confines cmp t es) (ops : List (WindowWrite K V)) {rs : List (Reply K V)}
    (hops : WindowWrite.onListAll cmp es w.interval ops = (rs, es'))
    (hroom : WindowWrite.roomyAll cmp t w ops = true) :
    ∃ t', WindowWrite.runAll cmp t w ops = .ok (rs, t') ∧ t'.entries = .ok es' := by
  obtain ⟨⟨_, t'⟩, hrun, rfl, hleft, -⟩ := (h.outside ops rs es' hops).1.total hroom
  exact ⟨t', hrun, hleft⟩

theorem Tree.Keeps.confines [Written K] [Written V] [DecidableEq K] [Std.TransCmp cmp]
    (h : t.Keeps items) (ha : Ascending cmp (items.map (·.2))) (w : Window K) :
    w.Confines cmp t (items.map (·.2)) where
  outside := by
    intro ops rs es' hops
    have hfollows := WindowWrite.runAll_onListAll h ha w ops
    have hsame : w.interval.outside cmp _ = _ :=
      WindowWrite.outside_onListAll (items.map (·.2)) w.interval ops
    rw [hops] at hfollows hsame
    refine ⟨hfollows.mono id ?_, fun v hv => Interval.outside_congr hv.within hsame⟩
    rintro ⟨_, t'⟩ - ⟨rfl, items', hk, rfl, ha'⟩
    exact ⟨rfl, hk.entries, ha'⟩
  refused := by
    intro key hkey
    rw [Interval.within_eq] at hkey
    exact WindowWrite.run_barred hkey
  passed := by
    intro key hkey
    rw [Interval.within_eq] at hkey
    exact WindowWrite.run_admitted hkey
  pop := by
    intro s
    have hfollows := WindowWrite.run_onList h ha w (.pop s)
    cases htip : s.tip (w.interval.inside cmp (items.map (·.2))) with
    | none =>
      simp only [WindowWrite.run, Window.pop_none h ha htip]
      rfl
    | some e =>
      simp only [WindowWrite.onList, WindowWrite.roomy, htip] at hfollows
      obtain ⟨⟨_, t'⟩, hrun, rfl, items', hk, hlist, -⟩ := hfollows.total trivial
      exact ⟨t', hrun, hk.entries.trans (congrArg Except.ok hlist)⟩
  clear := by
    have hfollows := WindowWrite.run_onList h ha w .clear
    simp only [WindowWrite.onList, WindowWrite.roomy] at hfollows
    obtain ⟨⟨_, t'⟩, hrun, rfl, items', hk, hlist, -⟩ := hfollows.total trivial
    exact ⟨t', hrun, hk.entries.trans (congrArg Except.ok hlist)⟩

variable [Written K] [Written V] [DecidableEq K] [DecidableEq V]
  {C : (K → K → Ordering) → Prop} {s : Session K V} {l : Ledger} {number : Nat}

/-- After any run under a lawful comparison every window confines what is done
through it: whatever operations follow on one another, in windows inside of
windows too, the entries outside of the window they are called on and of all
windows around it stay as they are. -/
theorem reached_window_confines (h : Reaches C s l) (hgov : Governs C cmp)
    (ht : s.tree number = .ok t) :
    ∃ es, t.entries = .ok es ∧ Ascending cmp es ∧ ∀ w : Window K, w.Confines cmp t es := by
  obtain ⟨items, hkept⟩ := h.sane.tree number t ht
  have := hgov.lawful
  have ha := hkept.ascending cmp hgov
  exact ⟨items.map (·.2), hkept.keeps.entries, ha, hkept.keeps.confines ha⟩

/-- In a window from 3 upwards, and in one below 7 inside of it. -/
theorem fourEntries_confined :
    ∃ (s : Session Int Int) (l : Ledger) (t t' : Tree Int Int),
      Session.blank.follow .blank fourEntries = some (s, l) ∧ s.tree 0 = .ok t ∧
        WindowWrite.runAll compare t ⟨⟨.included 3, .unbounded⟩⟩
            [.insert 9 90, .narrow ⟨.unbounded, .excluded 7⟩ [.insert 9 91, .pop .right, .clear],
              .remove 1] =
          .ok ([.nothing, .answers [.refused .keyOutOfRange, .entry (5, 50), .nothing],
            .refused .keyOutOfRange], t') ∧
        t'.entries = .ok [(1, 10), (7, 70), (9, 90)] := by
  have hrun : Session.blank.follow .blank fourEntries = some _ := rfl
  have hreach := Reaches.follow (C := (· = compare)) .blank (by simp [fourEntries]) hrun
  obtain ⟨es, hes, -, hconfines⟩ :=
    @reached_window_confines Int Int compare _ _ _ _ _ _ _ _ 0 hreach
      ⟨inferInstance, fun _ h => h⟩ rfl
  have hentries : es = [(1, 10), (3, 30), (5, 50), (7, 70)] := Except.ok.inj (hes.symm.trans rfl)
  rw [hentries] at hconfines
  obtain ⟨t', hops, hleft⟩ := (hconfines ⟨⟨.included 3, .unbounded⟩⟩).runAll_ok
    [.insert 9 90, .narrow ⟨.unbounded, .excluded 7⟩ [.insert 9 91, .pop .right, .clear],
      .remove 1] rfl (by decide +kernel)
  exact ⟨_, _, _, t', hrun, rfl, hops, hleft⟩

end SlotTree
