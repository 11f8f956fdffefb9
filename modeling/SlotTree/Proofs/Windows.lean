import SlotTree.Session.WindowOp
import SlotTree.Proofs.Editing

/-
  Windows — every read of a window answers, whatever the comparison.

  A window finds its nodes by searches, so it works with links to items or
  with absent ones (`Names`). Its span may have its ends in the wrong order if
  the comparison is lawless; taking from an end still moves along the list and
  stops at the latest where the list does (`takeWithin_ok`).
-/
namespace SlotTree

variable {K V : Type} {t : Tree K V} {items : List (Nat × K × V)}

namespace Tree

/-! ## Links that searches find -/

theorem Nearest.names {cut : K → Ordering} {sh : Shape K V} {s : Side} {l : Link}
    (h : Nearest cut sh s l) : Names sh.items l := by
  rcases h with ⟨i, e, rfl, hm⟩ | ⟨up, rfl, hs⟩
  · obtain ⟨before, after, hitems⟩ := hm.items
    rintro j hj
    obtain rfl := Option.some.inj hj
    simp [hitems]
  · intro i hi
    -- The search split the list, and the link is that of an item beside the split.
    have := names_tip s.other (up.beyond s) i hi
    rw [hs.items, List.map_append, List.mem_append]
    cases s with
    | left => exact .inl this
    | right => exact .inr this

theorem nearest_names (cmp : K → K → Ordering) (h : t.Keeps items) (s : Side) (inclusive : Bool)
    (key : K) : ∃ l, t.nearest cmp s inclusive key = .ok l ∧ Names items l := by
  obtain ⟨-, sh, hsound, rfl⟩ := h
  obtain ⟨l, hrun, hl⟩ := nearest_ok cmp s inclusive hsound.holds key
  exact ⟨l, hrun, hl.names⟩

/-- The list from a link onwards, seen from side `s`, has `n` items. -/
def Ahead (s : Side) (items : List (Nat × K × V)) (l : Link) (n : Nat) : Prop :=
  ∃ before after, items = before ++ after ∧
    match s with
    | .left => l = after.head?.map (·.1) ∧ after.length = n
    | .right => l = before.getLast?.map (·.1) ∧ before.length = n

theorem Names.ahead {l : Link} (h : Names items l) (s : Side) :
    ∃ n ≤ items.length, Ahead s items l n := by
  cases l with
  | none =>
    cases s with
    | left => exact ⟨0, Nat.zero_le _, items, [], by simp, rfl, rfl⟩
    | right => exact ⟨0, Nat.zero_le _, [], items, by simp, rfl, rfl⟩
  | some i =>
    obtain ⟨before, e, after, rfl⟩ := h.item
    cases s with
    | left => exact ⟨after.length + 1, by simp, before, (i, e) :: after, rfl, rfl, rfl⟩
    | right =>
      exact ⟨before.length + 1, by simp, before ++ [(i, e)], after, by simp, by simp,
        by simp⟩

theorem Ahead.names {s : Side} {l : Link} {n : Nat} (h : Ahead s items l n) : Names items l := by
  obtain ⟨before, after, rfl, h⟩ := h
  cases s with
  | left =>
    rw [h.1]
    intro i hi
    rw [List.map_append]
    exact List.mem_append_right _ (names_tip .left after i hi)
  | right =>
    rw [h.1]
    intro i hi
    rw [List.map_append]
    exact List.mem_append_left _ (names_tip .right before i hi)

/-- A step inwards leaves one item less ahead. -/
theorem Ahead.step (h : t.Keeps items) {s : Side} {i n : Nat} (ha : Ahead s items (some i) n) :
    ∃ m l e, n = m + 1 ∧ t.step s.other (some i) = .ok l ∧ Ahead s items l m ∧
      t.entryOf (some i) = some e := by
  obtain ⟨before, after, rfl, ha⟩ := ha
  cases s with
  | left =>
    obtain ⟨hl, rfl⟩ := ha
    cases after with
    | nil => cases hl
    | cons x after =>
      obtain ⟨j, e⟩ := x
      obtain rfl : i = j := Option.some.inj hl
      exact ⟨after.length, _, e, rfl, h.neighbour_right, ⟨before ++ [(i, e)], after, by simp, rfl,
        rfl⟩, h.entryOf⟩
  | right =>
    obtain ⟨hl, rfl⟩ := ha
    rcases List.eq_nil_or_concat before with rfl | ⟨before, ⟨j, e⟩, rfl⟩
    · cases hl
    · have h' : t.Keeps (before ++ (j, e) :: after) := by simpa using h
      obtain rfl : i = j := by simpa using hl
      exact ⟨before.length, _, e, by simp, h'.neighbour_left, ⟨before, (i, e) :: after, by simp,
        rfl, rfl⟩, h'.entryOf⟩

end Tree

open SlotTree.Tree

/-! ## Taking from a span -/

namespace Span

/-- Both ends of the span are items or absent. -/
def Inside (items : List (Nat × K × V)) (w : Span) : Prop := ∀ s, Names items (w.tip s)

/-- Taking from an end answers; of an end that is an item the next one has one
item less ahead. -/
theorem takeEntry_ok (h : t.Keeps items) {w : Span} (hw : w.Inside items) (s : Side) :
    ∃ r w', w.takeEntry t s = .ok (r, w') ∧ w'.Inside items ∧
      ∀ n, Ahead s items (w.tip s) n → r.isSome →
        w'.finished = true ∨ ∃ m, n = m + 1 ∧ Ahead s items (w'.tip s) m := by
  unfold takeEntry take
  by_cases hfin : w.finished
  · exact ⟨none, w, by simp [hfin, entryOf], hw, by simp⟩
  by_cases heq : w.left = w.right
  · refine ⟨t.entryOf (w.tip s), { w with finished := true }, ?_, hw, fun _ _ _ => .inl rfl⟩
    simp [hfin, heq]
  -- One end moves and the other stays.
  have other : ∀ l, Names items l → (w.setTip s l).Inside items := by
    intro l hl s'
    cases s <;> cases s' <;>
      first
      | exact hl
      | exact hw .left
      | exact hw .right
  cases hl : w.tip s with
  | none =>
    refine ⟨none, w.setTip s none, ?_, other _ names_none, by simp⟩
    simp [hfin, heq, Tree.step, entryOf]
  | some i =>
    obtain ⟨n, -, hn⟩ := (hl ▸ hw s : Names items (some i)).ahead s
    obtain ⟨m, l, e, rfl, hstep, hahead, hentry⟩ := hn.step h
    refine ⟨some e, w.setTip s l, by simp [hfin, heq, hstep, hentry], other _ hahead.names, ?_⟩
    intro n hn _
    obtain ⟨m', l', e', rfl, hstep', hahead', -⟩ := hn.step h
    obtain rfl := Except.ok.inj (hstep.symm.trans hstep')
    refine .inr ⟨m', rfl, ?_⟩
    cases s <;> exact hahead'

theorem takeWithin_finished {w : Span} (hw : w.finished = true) (s : Side) {steps : Nat}
    (hs : 0 < steps) : (Feed.ofSpan t).takeWithin s steps w = .ok ([], w) := by
  obtain ⟨k, rfl⟩ : ∃ k, steps = k + 1 := ⟨steps - 1, by omega⟩
  simp [Feed.takeWithin, Feed.ofSpan, takeEntry, take, hw, entryOf]

theorem takeWithin_ok (h : t.Keeps items) (s : Side) {steps n : Nat} {w : Span}
    (hw : w.Inside items) (hn : Ahead s items (w.tip s) n) (hs : n < steps) :
    ∃ es w', (Feed.ofSpan t).takeWithin s steps w = .ok (es, w') ∧ w'.Inside items := by
  induction steps generalizing w n with
  | zero => omega
  | succ steps ih =>
    obtain ⟨r, w', hrun, hw', hnext⟩ := takeEntry_ok h hw s
    cases r with
    | none => exact ⟨[], w', by simp [Feed.takeWithin, Feed.ofSpan, hrun], hw'⟩
    | some e =>
      have hmore : ∃ es w'', (Feed.ofSpan t).takeWithin s steps w' = .ok (es, w'') ∧
          w''.Inside items := by
        rcases hnext n hn rfl with hfin | ⟨m, rfl, hm⟩
        · have hpos : 0 < n := by
            cases hl : w.tip s with
            | none =>
              unfold takeEntry take at hrun
              by_cases h₁ : w.finished
              · simp [h₁, entryOf] at hrun
              · by_cases h₂ : w.left = w.right
                · simp [h₁, h₂, hl, entryOf] at hrun
                · simp [h₁, h₂, hl, Tree.step, entryOf] at hrun
            | some i =>
              obtain ⟨m, -, -, rfl, -⟩ := (hl ▸ hn : Ahead s items (some i) n).step h
              omega
          exact ⟨[], w', takeWithin_finished hfin s (by omega), hw'⟩
        · exact ih hw' hm (by omega)
      obtain ⟨es, w'', hrest, hw''⟩ := hmore
      refine ⟨e :: es, w'', ?_, hw''⟩
      have hrun' : (Feed.ofSpan t).take s w = .ok (some e, w') := hrun
      simp [Feed.takeWithin, hrun', hrest]

theorem takeAll_ok (h : t.Keeps items) {w : Span} (hw : w.Inside items) (s : Side) :
    ∃ es w', (Feed.ofSpan t).takeAll s w = .ok (es, w') ∧ w'.Inside items := by
  obtain ⟨n, hle, hn⟩ := (hw s).ahead s
  have hbound : n < t.horizon + 1 := by
    have := h.length_lt
    omega
  exact takeWithin_ok h s hw hn hbound

theorem pull_ok (h : t.Keeps items) (shown : Shown) (plan : List Pull) {w : Span}
    (hw : w.Inside items) : ∃ rs, Pull.runAll (Feed.ofSpan t) false shown plan w = .ok rs := by
  induction plan generalizing w with
  | nil => exact ⟨[], rfl⟩
  | cons p plan ih =>
    have hp : ∃ r w', p.run (Feed.ofSpan t) false shown w = .ok (r, w') ∧ w'.Inside items := by
      cases p with
      | take s =>
        obtain ⟨r, w', hrun, hw', -⟩ := takeEntry_ok h hw s
        have hrun' : (Feed.ofSpan t).take s w = .ok (r, w') := hrun
        exact ⟨_, w', by simp only [Pull.run, hrun', ok_bind, pure_ok]; rfl, hw'⟩
      | hint => exact ⟨_, w, rfl, hw⟩
      | length => exact ⟨_, w, rfl, hw⟩
      | peekAll => exact ⟨_, w, rfl, hw⟩
      | takeAll s =>
        obtain ⟨es, w', hrun, hw'⟩ := takeAll_ok h hw s
        exact ⟨_, w', by simp only [Pull.run, hrun, ok_bind, pure_ok]; rfl, hw'⟩
    obtain ⟨r, w', hrun, hw'⟩ := hp
    obtain ⟨rs, hrest⟩ := ih hw'
    exact ⟨r :: rs, by simp [Pull.runAll, hrun, hrest]⟩

end Span

/-! ## Reading through a window -/

namespace Window

variable (cmp : K → K → Ordering) (w : Window K)

theorem keepWithin_names {l : Link} (hl : Names items l) (s : Side) :
    Names items (w.keepWithin cmp t s l) := by
  unfold keepWithin
  split
  · split
    · exact names_none
    · exact hl
  · exact names_none

theorem endNode_ok (h : t.Keeps items) (s : Side) :
    ∃ l, w.endNode cmp t s = .ok l ∧ Names items l := by
  have kept : ∀ {r : Except Fault Link}, (∃ l, r = .ok l ∧ Names items l) →
      ∃ l, (r >>= fun id => pure (w.keepWithin cmp t s.other id)) = .ok l ∧ Names items l := by
    rintro _ ⟨l, rfl, hl⟩
    exact ⟨_, rfl, keepWithin_names cmp w hl s.other⟩
  unfold endNode
  cases w.interval.bound s with
  | included key => exact kept (nearest_names cmp h s.other true key)
  | excluded key => exact kept (nearest_names cmp h s.other false key)
  | unbounded => exact kept ⟨_, h.endNode s, names_tip s items⟩

theorem beyondKey_ok (h : t.Keeps items) (s : Side) (key : K) :
    ∃ l, w.beyondKey cmp t s key = .ok l ∧ Names items l := by
  unfold beyondKey
  split
  · exact endNode_ok cmp w h s.other
  · obtain ⟨l, hrun, hl⟩ := nearest_names cmp h s false key
    exact ⟨w.keepWithin cmp t s l, by simp [hrun], keepWithin_names cmp w hl s⟩

theorem span_ok (h : t.Keeps items) : ∃ it, w.span cmp t = .ok it ∧ it.Inside items := by
  obtain ⟨first, hfirst, hf⟩ := endNode_ok cmp w h .left
  obtain ⟨last, hlast, hl⟩ := endNode_ok cmp w h .right
  refine ⟨Span.between first last, by simp [span, hfirst, hlast], fun s => ?_⟩
  cases s with
  | left => exact hf
  | right => exact hl

theorem get?_ok (h : t.Keeps items) (key : K) : ∃ v, w.get? cmp t key = .ok v := by
  unfold get?
  split
  · obtain ⟨l, hrun, -⟩ := find_found cmp h key
    exact ⟨_, by simp only [Tree.get?, entry?, hrun, map_ok, ok_bind, pure_ok]; rfl⟩
  · exact ⟨none, rfl⟩

theorem entries_ok (h : t.Keeps items) : ∃ es, w.entries cmp t = .ok es := by
  obtain ⟨it, hspan, hit⟩ := span_ok cmp w h
  obtain ⟨es, it', hall, -⟩ := Span.takeAll_ok h hit .left
  exact ⟨es, by simp [entries, hspan, hall]⟩

end Window

namespace WindowRead

variable [Written K] (cmp : K → K → Ordering)

mutual

theorem run_ok (h : t.Keeps items) (w : Window K) :
    ∀ op : WindowRead K, ∃ r : Reply K V, op.run cmp t w = .ok r
  | bounds => ⟨_, by simp only [run]; rfl⟩
  | text => ⟨_, by simp only [run]; rfl⟩
  | admits key => ⟨_, by simp only [run]; rfl⟩
  | endKey s => by
    obtain ⟨l, hrun, -⟩ := Window.endNode_ok cmp w h s
    exact ⟨_, by simp only [run, Window.endKey, hrun, map_ok]; rfl⟩
  | endEntry s => by
    obtain ⟨l, hrun, -⟩ := Window.endNode_ok cmp w h s
    exact ⟨_, by simp only [run, Window.endEntry, hrun, map_ok]; rfl⟩
  | get key => by
    obtain ⟨v, hrun⟩ := Window.get?_ok cmp w h key
    exact ⟨_, by simp only [run, hrun, map_ok]; rfl⟩
  | contains key => by
    obtain ⟨v, hrun⟩ := Window.get?_ok cmp w h key
    exact ⟨_, by simp only [run, Window.contains, hrun, map_ok]; rfl⟩
  | nextKey key => by
    obtain ⟨l, hrun, -⟩ := Window.beyondKey_ok cmp w h .right key
    exact ⟨_, by simp only [run, Window.nextKey, hrun, map_ok]; rfl⟩
  | previousKey key => by
    obtain ⟨l, hrun, -⟩ := Window.beyondKey_ok cmp w h .left key
    exact ⟨_, by simp only [run, Window.previousKey, hrun, map_ok]; rfl⟩
  | count => by
    obtain ⟨es, hrun⟩ := Window.entries_ok cmp w h
    exact ⟨_, by simp only [run, Window.count, hrun, map_ok]; rfl⟩
  | isEmpty => by
    obtain ⟨l, hrun, -⟩ := Window.endNode_ok cmp w h .left
    exact ⟨_, by simp only [run, Window.isEmpty, hrun, map_ok]; rfl⟩
  | iterate shown plan => by
    obtain ⟨it, hspan, hit⟩ := Window.span_ok cmp w h
    obtain ⟨rs, hrun⟩ := Span.pull_ok h shown plan hit
    exact ⟨_, by simp only [run, hspan, ok_bind, hrun, pure_ok]; rfl⟩
  | narrow further ops => by
    simp only [run]
    cases w.narrow cmp further with
    | error refusal => exact ⟨_, rfl⟩
    | ok inner =>
      obtain ⟨rs, hrun⟩ := runAll_ok h inner ops
      exact ⟨_, by simp only [hrun, map_ok]; rfl⟩

theorem runAll_ok (h : t.Keeps items) (w : Window K) :
    ∀ ops : List (WindowRead K), ∃ rs : List (Reply K V), runAll cmp t w ops = .ok rs
  | [] => ⟨[], by simp only [runAll]⟩
  | op :: ops => by
    obtain ⟨r, hr⟩ := run_ok h w op
    obtain ⟨rs, hrs⟩ := runAll_ok h w ops
    exact ⟨r :: rs, by simp only [runAll, hr, hrs, ok_bind, pure_ok]⟩

end

end WindowRead

end SlotTree
