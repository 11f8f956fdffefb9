import SlotTree.Session.Plan
import SlotTree.Proofs.Sound

/-
  Traversals — taking from both ends of a stretch of the list.

  What a feed hands out is said of lists first: `Feed.Tracks` relates its states
  to the lists of what is left, and `Pull.onList` answers a plan from such a
  list, in one order or the other and in any mix of the two ends. A feed that
  tracks a list carries out every plan, with the answers of the list
  (`Feed.Tracks.runAll`).

  A span covers a stretch of the items of a tree (`Span.Covers`). Taking at an
  end hands out the item there and leaves the rest of the stretch
  (`Span.take_covers`), so spans and traversals track lists whatever the
  comparison. A traversal has as many entries left as it has counted, so it
  never counts down from zero.
-/
namespace SlotTree

variable {K V σ α : Type}

/-! ## Feeds that hand out a list -/

namespace Feed

/-- The items of a list in the order in which one end hands them out. -/
def handedOut (s : Side) (l : List α) : List α :=
  match s with
  | .left => l
  | .right => l.reverse

/-- The states of a feed stand for lists: `R it l` says that `l` is what is
left. Whether the feed knows how many items are left is `sized`. -/
structure Tracks (f : Feed σ α) (sized : Bool) (R : σ → List α → Prop) : Prop where
  take : ∀ s {it l}, R it l →
    ∃ it', f.take s it = .ok ((takeFromList s l).1, it') ∧ R it' (takeFromList s l).2
  hint : ∀ {it l}, R it l → f.hint it = if sized then (l.length, some l.length) else (0, none)
  length : ∀ {it l}, R it l → f.length it = if sized then some l.length else none
  bound : ∀ {it l}, R it l → l.length ≤ f.bound it

theorem takeFromList_cases (s : Side) (l : List α) :
    l = [] ∨ ∃ a rest, takeFromList s l = (some a, rest) ∧
      handedOut s l = a :: handedOut s rest ∧ l.length = rest.length + 1 := by
  rcases List.eq_nil_or_concat l with rfl | ⟨front, b, hl⟩
  · exact .inl rfl
  rw [List.concat_eq_append] at hl
  cases s with
  | left =>
    cases l with
    | nil => exact .inl rfl
    | cons a rest => exact .inr ⟨a, rest, rfl, rfl, rfl⟩
  | right =>
    subst hl
    refine .inr ⟨b, front, ?_, ?_, ?_⟩
    · simp [takeFromList]
    · simp [handedOut]
    · simp

theorem takeFromList_map {β : Type} (g : α → β) (s : Side) (l : List α) :
    takeFromList s (l.map g) = ((takeFromList s l).1.map g, (takeFromList s l).2.map g) := by
  cases s <;> simp [takeFromList, List.map_dropLast]

namespace Tracks

variable {f : Feed σ α} {sized : Bool} {R : σ → List α → Prop} (h : f.Tracks sized R)
include h

theorem takeWithin (s : Side) {steps : Nat} {it : σ} {l : List α} (hR : R it l)
    (hs : l.length < steps) :
    ∃ it', f.takeWithin s steps it = .ok (handedOut s l, it') ∧ R it' [] := by
  induction steps generalizing it l with
  | zero => omega
  | succ steps ih =>
    obtain ⟨it₁, hrun, hR₁⟩ := h.take s hR
    rcases takeFromList_cases s l with rfl | ⟨a, rest, htake, hout, hlen⟩
    · have hnone : takeFromList s ([] : List α) = (none, []) := by cases s <;> rfl
      have hout : handedOut s ([] : List α) = [] := by cases s <;> rfl
      rw [hnone] at hrun hR₁
      exact ⟨it₁, by simp [Feed.takeWithin, hrun, hout], hR₁⟩
    · rw [htake] at hrun hR₁
      have hshort : rest.length < steps := by omega
      obtain ⟨it', hrest, hR'⟩ := ih hR₁ hshort
      refine ⟨it', ?_, hR'⟩
      simp [Feed.takeWithin, hrun, hrest, hout]

theorem takeAll (s : Side) {it : σ} {l : List α} (hR : R it l) :
    ∃ it', f.takeAll s it = .ok (handedOut s l, it') ∧ R it' [] :=
  h.takeWithin s hR (Nat.lt_succ_of_le (h.bound hR))

end Tracks

theorem ofList_tracks : (ofList α).Tracks true (fun it l => it = l) where
  take := by
    rintro s it l rfl
    exact ⟨_, rfl, rfl⟩
  hint := by
    rintro it l rfl
    rfl
  length := by
    rintro it l rfl
    rfl
  bound := by
    rintro it l rfl
    exact Nat.le_refl _

end Feed

open SlotTree.Feed

/-! ## Plans -/

namespace Pull

/-- What a plan is answered when the entries of a list are left. -/
def onList (sized mayPeek : Bool) (shown : Shown) : List (K × V) → List Pull → List (Reply K V)
  | _, [] => []
  | es, .take s :: plan =>
    .option shown.reply (takeFromList s es).1 ::
      onList sized mayPeek shown (takeFromList s es).2 plan
  | es, .hint :: plan =>
    .list (if sized then [.count es.length, .count es.length] else [.count 0, .nothing]) ::
      onList sized mayPeek shown es plan
  | es, .length :: plan =>
    (if sized then .count es.length else .nothing) :: onList sized mayPeek shown es plan
  | es, .peekAll :: plan =>
    (if mayPeek then .list (es.map shown.reply) else .nothing) ::
      onList sized mayPeek shown es plan
  | es, .takeAll s :: plan =>
    .list ((handedOut s es).map shown.reply) :: onList sized mayPeek shown [] plan

end Pull

/-- Every plan is carried out, with the answers of the list that is left. -/
theorem Feed.Tracks.runAll {f : Feed σ (K × V)} {sized : Bool} {R : σ → List (K × V) → Prop}
    (h : f.Tracks sized R) (mayPeek : Bool) (shown : Shown) (plan : List Pull) {it : σ}
    {es : List (K × V)} (hR : R it es) :
    Pull.runAll f mayPeek shown plan it = .ok (Pull.onList sized mayPeek shown es plan) := by
  induction plan generalizing it es with
  | nil => rfl
  | cons p plan ih =>
    -- The first answer and what is left after it; the rest is the induction.
    have step : ∀ {r : Reply K V} {it' : σ} {es' : List (K × V)},
        p.run f mayPeek shown it = .ok (r, it') → R it' es' →
        Pull.runAll f mayPeek shown (p :: plan) it =
          .ok (r :: Pull.onList sized mayPeek shown es' plan) := by
      intro r it' es' hrun hR'
      simp [Pull.runAll, hrun, ih hR']
    cases p with
    | take s =>
      obtain ⟨it', hrun, hR'⟩ := h.take s hR
      exact step (by simp only [Pull.run, hrun, ok_bind, pure_ok]) hR'
    | hint =>
      have hrun := h.hint hR
      refine step ?_ hR
      cases sized <;> simp [Pull.run, hrun, Reply.option]
    | length =>
      have hrun := h.length hR
      refine step ?_ hR
      cases sized <;> simp [Pull.run, hrun, Reply.option]
    | peekAll =>
      obtain ⟨it', hrun, -⟩ := h.takeAll .left hR
      refine step ?_ hR
      cases mayPeek <;> simp [Pull.run, hrun, handedOut]
    | takeAll s =>
      obtain ⟨it', hrun, hR'⟩ := h.takeAll s hR
      exact step (by simp only [Pull.run, hrun, ok_bind, pure_ok]) hR'

/-! ## Spans -/

variable {t : Tree K V} {items seg : List (Nat × K × V)} {w : Span}

namespace Span

/-- The span is a stretch of the list of items, or it is used up. -/
inductive Covers (items : List (Nat × K × V)) : Span → List (Nat × K × V) → Prop where
  | spent {w : Span} : w.finished = true → Covers items w []
  | stretch {before seg after : List (Nat × K × V)} {w : Span} :
    items = before ++ seg ++ after → seg ≠ [] → w.finished = false →
    w.left = seg.head?.map (·.1) → w.right = seg.getLast?.map (·.1) → Covers items w seg

theorem between_covers {before after : List (Nat × K × V)}
    (hitems : items = before ++ seg ++ after) :
    (between (seg.head?.map (·.1)) (seg.getLast?.map (·.1))).Covers items seg := by
  cases seg with
  | nil => exact .spent rfl
  | cons x seg =>
    refine .stretch hitems (by simp) ?_ rfl rfl
    simp [between]

variable {s : Side} {i : Nat} {e : K × V} {before after rest : List (Nat × K × V)}

/-- Where the two ends meet, the last entry is taken. -/
theorem takeEntry_last (hfin : w.finished = false) (hmeet : w.left = w.right)
    (hi : w.tip s = some i) (he : t.entryOf (some i) = some e) :
    w.takeEntry t s = .ok (some e, { w with finished := true }) := by
  have htake : w.take t s = .ok (some i, { w with finished := true }) := by
    simp [take, hfin, hmeet, hi]
  simp [takeEntry, htake, he]

/-- Elsewhere the end that is taken from moves inward. -/
theorem takeEntry_inward {l : Link} (hfin : w.finished = false) (hmeet : w.left ≠ w.right)
    (hi : w.tip s = some i) (he : t.entryOf (some i) = some e)
    (hstep : t.neighbour s.other i = .ok l) :
    w.takeEntry t s = .ok (some e, w.setTip s l) := by
  have htake : w.take t s = .ok (some i, w.setTip s l) := by
    simp [take, hfin, hmeet, hi, Tree.step, hstep]
  simp [takeEntry, htake, he]

theorem take_left (h : t.Keeps (before ++ ((i, e) :: rest) ++ after)) (hfin : w.finished = false)
    (hl : w.left = some i) (hr : w.right = ((i, e) :: rest).getLast?.map (·.1)) :
    ∃ w', w.takeEntry t .left = .ok (some e, w') ∧
      w'.Covers (before ++ ((i, e) :: rest) ++ after) rest := by
  have hk : t.Keeps (before ++ (i, e) :: (rest ++ after)) := by simpa using h
  cases rest with
  | nil =>
    have hmeet : w.left = w.right := by rw [hl, hr]; rfl
    exact ⟨_, takeEntry_last hfin hmeet hl hk.entryOf, .spent rfl⟩
  | cons x rest =>
    rw [List.getLast?_cons_cons] at hr
    have hmeet : w.left ≠ w.right := by
      intro heq
      rw [hl, hr] at heq
      -- The last item of the rest would lie in the slot `i` as well.
      obtain ⟨y, hy, hi⟩ := Option.map_eq_some_iff.mp heq.symm
      have hnd := hk.nodup
      simp only [List.map_append, List.map_cons, List.nodup_append, List.nodup_cons] at hnd
      apply hnd.2.1.1
      rw [← hi, ← List.map_cons, ← List.map_append]
      exact List.mem_map_of_mem (List.mem_append_left _ (List.mem_of_getLast? hy))
    refine ⟨_, takeEntry_inward hfin hmeet hl hk.entryOf hk.neighbour_right, ?_⟩
    have hitems : before ++ ((i, e) :: x :: rest) ++ after =
        (before ++ [(i, e)]) ++ (x :: rest) ++ after := by simp
    exact .stretch hitems (by simp) hfin rfl hr

theorem take_right (h : t.Keeps (before ++ (rest ++ [(i, e)]) ++ after))
    (hfin : w.finished = false) (hl : w.left = (rest ++ [(i, e)]).head?.map (·.1))
    (hr : w.right = some i) :
    ∃ w', w.takeEntry t .right = .ok (some e, w') ∧
      w'.Covers (before ++ (rest ++ [(i, e)]) ++ after) rest := by
  have hk : t.Keeps ((before ++ rest) ++ (i, e) :: after) := by simpa using h
  cases rest with
  | nil =>
    have hmeet : w.left = w.right := by rw [hl, hr]; rfl
    exact ⟨_, takeEntry_last hfin hmeet hr hk.entryOf, .spent rfl⟩
  | cons x rest =>
    have hmeet : w.left ≠ w.right := by
      intro heq
      rw [hl, hr] at heq
      have hi : x.1 = i := Option.some.inj heq
      have hnd := hk.nodup
      simp only [List.map_append, List.map_cons, List.nodup_append, List.mem_append,
        List.mem_cons] at hnd
      exact hnd.2.2 x.1 (.inr (.inl rfl)) i (.inl rfl) hi
    have hlast : (before ++ x :: rest).getLast? = (x :: rest).getLast? := by
      rw [List.getLast?_append, List.getLast?_cons, Option.some_or]
    have hstep := hk.neighbour_left
    rw [hlast] at hstep
    refine ⟨_, takeEntry_inward hfin hmeet hr hk.entryOf hstep, ?_⟩
    have hitems : before ++ ((x :: rest) ++ [(i, e)]) ++ after =
        before ++ (x :: rest) ++ ((i, e) :: after) := by simp
    exact .stretch hitems (by simp) hfin hl rfl

theorem take_covers (h : t.Keeps items) (hw : w.Covers items seg) (s : Side) :
    ∃ w', w.takeEntry t s = .ok ((takeFromList s seg).1.map (·.2), w') ∧
      w'.Covers items (takeFromList s seg).2 := by
  cases hw with
  | spent hfin =>
    refine ⟨w, ?_, ?_⟩
    · cases s <;> simp [takeEntry, take, hfin, takeFromList, Tree.entryOf]
    · cases s <;> exact .spent hfin
  | stretch hitems hne hfin hl hr =>
    subst hitems
    cases s with
    | left =>
      cases seg with
      | nil => exact absurd rfl hne
      | cons x rest => exact take_left h hfin hl hr
    | right =>
      rcases List.eq_nil_or_concat seg with rfl | ⟨rest, x, hx⟩
      · exact absurd rfl hne
      rw [List.concat_eq_append] at hx
      subst hx
      obtain ⟨w', hrun, hw'⟩ := take_right h hfin hl (by simpa using hr)
      exact ⟨w', by simpa [takeFromList] using hrun, by simpa [takeFromList] using hw'⟩

theorem Covers.length_le (hw : w.Covers items seg) : seg.length ≤ items.length := by
  cases hw with
  | spent => exact Nat.zero_le _
  | stretch hitems =>
    subst hitems
    simp only [List.length_append]
    omega

/-- A span hands out the entries of its stretch, without their number. -/
theorem tracks (h : t.Keeps items) :
    (Feed.ofSpan t).Tracks false
      (fun w es => ∃ seg, w.Covers items seg ∧ es = seg.map (·.2)) where
  take := by
    rintro s w _ ⟨seg, hw, rfl⟩
    obtain ⟨w', hrun, hw'⟩ := take_covers h hw s
    rw [takeFromList_map]
    exact ⟨w', hrun, _, hw', rfl⟩
  hint := fun _ => rfl
  length := fun _ => rfl
  bound := by
    rintro w _ ⟨seg, hw, rfl⟩
    have hle := hw.length_le
    have hlt := h.length_lt
    simp only [List.length_map]
    exact Nat.le_of_lt (Nat.lt_of_le_of_lt hle hlt)

end Span

/-! ## Traversals of a whole tree -/

namespace Traversal

/-- The traversal has a stretch of the items left and has counted them. -/
def Covers (items : List (Nat × K × V)) (it : Traversal) (seg : List (Nat × K × V)) : Prop :=
  it.span.Covers items seg ∧ it.remaining = seg.length

/-- Each entry that is handed out was counted, so the count never runs out. -/
theorem take_covers {it : Traversal} (h : t.Keeps items) (hit : it.Covers items seg) (s : Side) :
    ∃ it', it.take t s = .ok ((takeFromList s seg).1.map (·.2), it') ∧
      it'.Covers items (takeFromList s seg).2 := by
  obtain ⟨hw, hcount⟩ := hit
  obtain ⟨w', hrun, hw'⟩ := Span.take_covers h hw s
  rcases takeFromList_cases s seg with rfl | ⟨x, rest, htake, -, hlen⟩
  · have hnone : takeFromList s ([] : List (Nat × K × V)) = (none, []) := by cases s <;> rfl
    rw [hnone] at hrun hw' ⊢
    refine ⟨{ it with span := w' }, ?_, hw', hcount⟩
    simp [take, hrun]
  · rw [htake] at hrun hw' ⊢
    refine ⟨⟨w', rest.length⟩, ?_, hw', rfl⟩
    rw [hlen] at hcount
    simp [take, hrun, hcount, countDown]

theorem tracks (h : t.Keeps items) :
    (Feed.ofTree t).Tracks true
      (fun it es => ∃ seg, it.Covers items seg ∧ es = seg.map (·.2)) where
  take := by
    rintro s it _ ⟨seg, hit, rfl⟩
    obtain ⟨it', hrun, hit'⟩ := take_covers h hit s
    rw [takeFromList_map]
    exact ⟨it', hrun, _, hit', rfl⟩
  hint := by
    rintro it _ ⟨seg, hit, rfl⟩
    simp [ofTree, hit.2]
  length := by
    rintro it _ ⟨seg, hit, rfl⟩
    simp [ofTree, hit.2]
  bound := by
    rintro it _ ⟨seg, hit, rfl⟩
    simp [ofTree, hit.2]

end Traversal

namespace Tree

theorem traverse_ok (h : t.Keeps items) : ∃ it, t.traverse = .ok it ∧ it.Covers items items := by
  have hfirst : t.firstNode = .ok (items.head?.map (·.1)) := h.endNode .left
  have hlast : t.lastNode = .ok (items.getLast?.map (·.1)) := h.endNode .right
  refine ⟨⟨Span.between (items.head?.map (·.1)) (items.getLast?.map (·.1)), t.size⟩, ?_, ?_, h.size⟩
  · simp [traverse, hfirst, hlast]
  · have hitems : items = [] ++ items ++ [] := by simp
    exact Span.between_covers hitems

theorem entriesFrom_ok (h : t.Keeps items) (s : Side) :
    t.entriesFrom s = .ok (handedOut s (items.map (·.2))) := by
  obtain ⟨it, hit, hcovers⟩ := traverse_ok h
  obtain ⟨it', hall, -⟩ := (Traversal.tracks h).takeAll s ⟨items, hcovers, rfl⟩
  simp [entriesFrom, hit, hall]

/-! ## Giving the tree up -/

theorem releaseAll_ok {slots : Slots (Node K V)} (htidy : slots.Tidy)
    (hnd : (items.map (·.1)).Nodup)
    (hget : ∀ x ∈ items, ∃ n, slots.get? (some x.1) = some n ∧ n.entry = x.2) :
    releaseAll slots (items.map (·.1)) = .ok (items.map (·.2)) := by
  induction items generalizing slots with
  | nil => rfl
  | cons x items ih =>
    obtain ⟨n, hn, he⟩ := hget x (List.mem_cons_self ..)
    rw [List.map_cons, List.nodup_cons] at hnd
    have hrest := ih (Slots.tidy_released htidy hn) hnd.2 ?_
    · simp [releaseAll, Slots.release_ok htidy hn, hrest, he]
    · -- The other slots are as they were.
      intro y hy
      have hne : y.1 ≠ x.1 := by
        intro heq
        exact hnd.1 (heq ▸ List.mem_map_of_mem hy)
      obtain ⟨m, hm, hme⟩ := hget y (List.mem_cons_of_mem _ hy)
      refine ⟨m, ?_, hme⟩
      rw [Slots.get?_released, if_neg (by simpa using hne), hm]

theorem intoEntries_ok (h : t.Keeps items) : t.intoEntries = .ok (items.map (·.2)) := by
  have hnd := h.nodup
  have hget : ∀ x ∈ items, ∃ n, t.slots.get? (some x.1) = some n ∧ n.entry = x.2 := by
    intro x hx
    obtain ⟨before, after, hitems⟩ := List.append_of_mem hx
    rw [hitems] at h
    exact h.get?
  obtain ⟨-, sh, hsound, rfl⟩ := h
  have horder : t.inOrder = .ok (sh.items.map (·.1)) := hsound.holds.inOrder
  simp [intoEntries, horder, releaseAll_ok hsound.tidy hnd hget]

/-- Every plan on all entries is carried out. A list of them cannot be listed
without being taken, and shows whole entries. -/
theorem iterate_ok (h : t.Keeps items) (source : Source) (plan : List Pull) :
    t.iterate source plan = .ok (.list (match source with
      | .tree shown => Pull.onList true (shown = .entries) shown (items.map (·.2)) plan
      | .listed => Pull.onList true false .entries (items.map (·.2)) plan)) := by
  cases source with
  | tree shown =>
    obtain ⟨it, hit, hcovers⟩ := traverse_ok h
    have hrun := (Traversal.tracks h).runAll (shown = .entries) shown plan ⟨items, hcovers, rfl⟩
    simp [iterate, hit, hrun]
  | listed =>
    have hes : t.copy.intoEntries = .ok (items.map (·.2)) := intoEntries_ok (h.congr rfl rfl rfl)
    have hrun := (@ofList_tracks (K × V)).runAll false .entries plan (rfl : items.map (·.2) = _)
    simp [iterate, hes, hrun]

/-! ## Equality and text -/

theorem sameFrom_ok [DecidableEq K] [DecidableEq V] {u : Tree K V}
    {others seg' : List (Nat × K × V)} {steps : Nat} {x y : Traversal} (ht : t.Keeps items)
    (hu : u.Keeps others) (hx : x.Covers items seg) (hy : y.Covers others seg')
    (hs : seg.length < steps) :
    ∃ b, t.sameFrom u steps x y = .ok b ∧ (b = true ↔ seg.map (·.2) = seg'.map (·.2)) := by
  induction steps generalizing x y seg seg' with
  | zero => omega
  | succ steps ih =>
    obtain ⟨x', hrun, hx'⟩ := Traversal.take_covers ht hx .left
    obtain ⟨y', hrun', hy'⟩ := Traversal.take_covers hu hy .left
    cases seg with
    | nil =>
      refine ⟨(takeFromList .left seg').1.isNone, ?_, ?_⟩
      · simp only [takeFromList, List.head?_nil, Option.map_none] at hrun
        simp [sameFrom, hrun, hrun']
      · cases seg' <;> simp [takeFromList]
    | cons a seg =>
      simp only [takeFromList, List.head?_cons, List.tail_cons, Option.map_some] at hrun hx'
      cases seg' with
      | nil =>
        simp only [takeFromList, List.head?_nil, Option.map_none] at hrun'
        exact ⟨false, by simp [sameFrom, hrun, hrun'], by simp⟩
      | cons b seg' =>
        simp only [takeFromList, List.head?_cons, List.tail_cons, Option.map_some] at hrun' hy'
        obtain ⟨r, hrest, hr⟩ := ih hx' hy' (Nat.lt_of_succ_lt_succ hs)
        by_cases he : a.2 = b.2
        · exact ⟨r, by simp [sameFrom, hrun, hrun', he, hrest], by simp [hr, he]⟩
        · exact ⟨false, by simp [sameFrom, hrun, hrun', he], by simp [he]⟩

theorem same_ok [DecidableEq K] [DecidableEq V] {u : Tree K V} {others : List (Nat × K × V)}
    (ht : t.Keeps items) (hu : u.Keeps others) :
    ∃ b, t.same u = .ok b ∧ (b = true ↔ items.map (·.2) = others.map (·.2)) := by
  obtain ⟨x, hx, hcx⟩ := traverse_ok ht
  obtain ⟨y, hy, hcy⟩ := traverse_ok hu
  by_cases hsize : t.size = u.size
  · have hlen : items.length < t.size + 1 := by
      rw [ht.size]
      exact Nat.lt_succ_self _
    obtain ⟨b, hrun, hb⟩ := sameFrom_ok ht hu hcx hcy hlen
    refine ⟨b, ?_, hb⟩
    rw [same, if_pos hsize]
    simp only [hx, hy, hrun, ok_bind]
  · refine ⟨false, by simp [same, hsize], ?_⟩
    have hne : items.map (·.2) ≠ others.map (·.2) := by
      intro heq
      apply hsize
      have hlen := congrArg List.length heq
      rw [ht.size, hu.size]
      simpa using hlen
    simp [hne]

theorem text_ok [Written K] [Written V] (h : t.Keeps items) :
    t.text = .ok ("\x7b" ++ commaSeparated
      (items.map (fun x => Written.text x.2.1 ++ ": " ++ Written.text x.2.2)) ++ "\x7d") := by
  simp [text, entriesFrom_ok h, handedOut, Function.comp_def]

end Tree

end SlotTree
