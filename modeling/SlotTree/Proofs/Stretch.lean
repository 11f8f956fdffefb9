import SlotTree.Proofs.Bounds
import SlotTree.Proofs.Dictionary
import SlotTree.Proofs.Reach
import SlotTree.Proofs.Traversal

/-
  Stretches — what a window shows of a sorted tree.

  In a sorted list the entries whose keys satisfy both bounds are a stretch
  without gaps (`Interval.inside`, `stretch_split`). What a read of a window is
  answered is said of that stretch alone (`WindowRead.onList`).

  The two ends of a window are searched for separately, each as the nearest node
  inside of its own bound, and then held against the other bound. Since beyond
  that one lies a stretch at the other end, what is found is the end of the
  stretch between the two (`Window.endNode_inside`).
-/
namespace SlotTree

variable {K V α : Type}

/-! ## Predicates that gather at one end of a list -/

/-- Of two items the one nearer to side `s` satisfies `p` if the other one
does. -/
def Side.Gathers (s : Side) (p : α → Bool) (l : List α) : Prop :=
  match s with
  | .left => l.Pairwise (fun a b => p b = true → p a = true)
  | .right => l.Pairwise (fun a b => p a = true → p b = true)

namespace Side

variable {s : Side} {p q : α → Bool} {l : List α}

theorem Gathers.filter (h : s.Gathers p l) : s.Gathers p (l.filter q) := by
  cases s with
  | left => exact List.Pairwise.filter q h
  | right => exact List.Pairwise.filter q h

theorem Gathers.of_not (h : s.other.Gathers (fun a => !p a) l) : s.Gathers p l := by
  cases s with
  | left => exact List.Pairwise.imp (fun hab hb => by simpa [hb] using hab) h
  | right => exact List.Pairwise.imp (fun hab ha => by simpa [ha] using hab) h

theorem tip_filter (h : s.Gathers p l) : s.tip (l.filter p) = (s.tip l).filter p := by
  cases s with
  | left =>
    cases l with
    | nil => rfl
    | cons a l =>
      by_cases ha : p a
      · simp [tip, ha, Option.filter_some]
      · have hnone : ∀ b ∈ l, ¬ p b = true := fun b hb hp => ha (List.rel_of_pairwise_cons h hb hp)
        simp [tip, ha, List.filter_eq_nil_iff.mpr hnone, Option.filter_some]
  | right =>
    rcases List.eq_nil_or_concat l with rfl | ⟨l, a, rfl⟩
    · rfl
    · rw [List.concat_eq_append] at h ⊢
      by_cases ha : p a
      · simp [tip, ha, Option.filter_some]
      · have hnone : ∀ b ∈ l, ¬ p b = true := by
          intro b hb hp
          exact ha ((List.pairwise_append.mp h).2.2 b hb a (List.mem_cons_self ..) hp)
        simp [tip, ha, List.filter_eq_nil_iff.mpr hnone, Option.filter_some]

theorem tip_map {β : Type} (f : α → β) : s.tip (l.map f) = (s.tip l).map f := by
  cases s with
  | left => exact List.head?_map
  | right => exact List.getLast?_map

theorem Gathers.split (h : Side.left.Gathers p l) : l = l.filter p ++ l.filter (fun a => !p a) := by
  induction l with
  | nil => rfl
  | cons a l ih =>
    have hrest := ih (List.Pairwise.of_cons h)
    by_cases ha : p a
    · rw [List.filter_cons_of_pos ha, List.filter_cons_of_neg (by simp [ha]), List.cons_append,
        ← hrest]
    · have hnone : ∀ b ∈ l, ¬ p b = true := fun b hb hp => ha (List.rel_of_pairwise_cons h hb hp)
      have hall : l.filter (fun b => !p b) = l := by
        rw [List.filter_eq_self]
        intro b hb
        simpa using hnone b hb
      simp [ha, List.filter_eq_nil_iff.mpr hnone, hall]

end Side

/-! ## Windows on sorted lists -/

namespace Interval

/-- The entries whose keys satisfy both bounds. -/
def inside (cmp : K → K → Ordering) (i : Interval K) (es : List (K × V)) : List (K × V) :=
  es.filter (fun e => i.within cmp e.1)

/-- The items whose keys do not lie beyond side `s`. -/
def upTo (cmp : K → K → Ordering) (i : Interval K) (s : Side) (items : List (Nat × K × V)) :
    List (Nat × K × V) :=
  items.filter (fun x => !i.isBeyond cmp s x.2.1)

/-- The items whose keys satisfy both bounds. -/
def stretch (cmp : K → K → Ordering) (i : Interval K) (items : List (Nat × K × V)) :
    List (Nat × K × V) :=
  items.filter (fun x => i.within cmp x.2.1)

variable {cmp : K → K → Ordering} {i : Interval K} {items : List (Nat × K × V)}

theorem upTo_sublist {s : Side} : (i.upTo cmp s items).Sublist items := List.filter_sublist

theorem stretch_sublist : (i.stretch cmp items).Sublist items := List.filter_sublist

theorem entries_stretch : (i.stretch cmp items).map (·.2) = i.inside cmp (items.map (·.2)) := by
  rw [inside, stretch, List.filter_map]
  rfl

theorem entries_filter (p : K → Bool) :
    ((i.stretch cmp items).filter (fun x => p x.2.1)).map (·.2) =
      (i.inside cmp (items.map (·.2))).filter (fun e => p e.1) := by
  rw [← entries_stretch, List.filter_map]
  rfl

variable [Std.TransCmp cmp]

theorem upTo_upTo (s : Side) : i.upTo cmp s.other (i.upTo cmp s items) = i.stretch cmp items := by
  rw [upTo, upTo, stretch, List.filter_filter]
  congr 1
  funext x
  rw [within_eq, contains]
  cases s with
  | left => exact Bool.and_comm ..
  | right => rfl

theorem find_inside (key : K) (es : List (K × V)) :
    Assoc.find cmp key (i.inside cmp es) =
      if i.within cmp key then Assoc.find cmp key es else none := by
  rw [Assoc.find, inside, List.find?_filter]
  cases hin : i.within cmp key with
  | true =>
    rw [if_pos rfl, Assoc.find]
    congr 1
    funext e
    by_cases he : cmp key e.1 = .eq
    · simp [he, ← within_congr he, hin]
    · simp [he]
  | false =>
    rw [if_neg Bool.false_ne_true, List.find?_eq_none]
    intro e _
    by_cases he : cmp key e.1 = .eq
    · simp [← within_congr he, hin]
    · simp [he]

theorem gathers (ha : Ascending cmp (items.map (·.2))) (s : Side) :
    s.other.Gathers (fun x : Nat × K × V => !i.isBeyond cmp s x.2.1) items := by
  have hlt : items.Pairwise (fun a b => cmp a.2.1 b.2.1 = .lt) := List.pairwise_map.mp ha
  cases s with
  | left =>
    refine hlt.imp ?_
    intro a b hab hnot
    rw [Bool.not_eq_true', Bool.eq_false_iff] at hnot ⊢
    exact fun hb => hnot (Bound.isBeyond_mono hab hb)
  | right =>
    refine hlt.imp ?_
    intro a b hab hnot
    rw [Bool.not_eq_true', Bool.eq_false_iff] at hnot ⊢
    exact fun hb => hnot (Bound.isBeyond_mono (Std.OrientedCmp.gt_of_lt hab) hb)

theorem gathers_upTo (ha : Ascending cmp (items.map (·.2))) (s : Side) :
    s.Gathers (fun x : Nat × K × V => !i.isBeyond cmp s.other x.2.1) (i.upTo cmp s items) := by
  have h := i.gathers ha s.other
  rw [Side.other_other] at h
  exact h.filter

/-- The items within the bounds follow on one another. -/
theorem stretch_split (ha : Ascending cmp (items.map (·.2))) :
    ∃ before after, items = before ++ i.stretch cmp items ++ after ∧
      (∀ x ∈ before, i.isBeyond cmp .left x.2.1 = true) ∧
      ∀ x ∈ after, i.isBeyond cmp .right x.2.1 = true := by
  have hleft : Side.left.Gathers (fun x => i.isBeyond cmp .left x.2.1) (i.upTo cmp .right items) :=
    Side.Gathers.of_not (s := .left) (i.gathers_upTo ha .right)
  refine ⟨(i.upTo cmp .right items).filter (fun x => i.isBeyond cmp .left x.2.1),
    items.filter (fun x => i.isBeyond cmp .right x.2.1), ?_, ?_, ?_⟩
  · calc items
      _ = i.upTo cmp .right items ++ items.filter (fun x => i.isBeyond cmp .right x.2.1) := by
        simpa only [upTo, Bool.not_not] using (i.gathers ha .right).split
      _ = _ := by
        rw [← i.upTo_upTo .right]
        exact congrArg (· ++ _) hleft.split
  · intro x hx
    exact (List.mem_filter.mp hx).2
  · intro x hx
    exact (List.mem_filter.mp hx).2

end Interval

/-! ## What searches find -/

section Searches

variable {cmp : K → K → Ordering} {cut : K → Ordering} {items before after : List (Nat × K × V)}
  {t : Tree K V}

theorem Parts.filter_before (h : Parts cut (before.map (·.2)) (after.map (·.2))) (s : Side) :
    before.filter (fun x => cut x.2.1 ≠ s.order) = if s = .left then before else [] := by
  have hgt : ∀ x ∈ before, cut x.2.1 = .gt := fun x hx => h.before x.2 (List.mem_map_of_mem hx)
  cases s with
  | left =>
    rw [if_pos rfl, List.filter_eq_self]
    intro x hx
    simp [hgt x hx, Side.order]
  | right =>
    rw [if_neg (by decide), List.filter_eq_nil_iff]
    intro x hx
    simp [hgt x hx, Side.order]

theorem Parts.filter_after (h : Parts cut (before.map (·.2)) (after.map (·.2))) (s : Side) :
    after.filter (fun x => cut x.2.1 ≠ s.order) = if s = .right then after else [] := by
  have hlt : ∀ x ∈ after, cut x.2.1 = .lt := fun x hx => h.after x.2 (List.mem_map_of_mem hx)
  cases s with
  | left =>
    rw [if_neg (by decide), List.filter_eq_nil_iff]
    intro x hx
    simp [hlt x hx, Side.order]
  | right =>
    rw [if_pos rfl, List.filter_eq_self]
    intro x hx
    simp [hlt x hx, Side.order]

theorem Tree.nearest_tip [Std.TransCmp cmp] (h : t.Keeps items)
    (ha : Ascending cmp (items.map (·.2))) (s : Side) (inclusive : Bool) (key : K) :
    t.nearest cmp s inclusive key = .ok ((s.other.tip
      (items.filter (fun x => s.cut cmp inclusive key x.2.1 ≠ s.order))).map (·.1)) := by
  obtain ⟨-, sh, hsound, rfl⟩ := h
  obtain ⟨l, hrun, ⟨i, e, rfl, hm⟩ | ⟨up, rfl, hs⟩⟩ := nearest_ok cmp s inclusive hsound.holds key
  · obtain ⟨before, after, hitems⟩ := hm.items
    obtain ⟨-, -, -, -, -, -, heq⟩ := hm
    have hcut : s.cut cmp inclusive key = cmp key := by
      cases inclusive with
      | true => exact Side.cut_inclusive cmp s key
      | false => cases hk : cmp key e.1 <;> cases s <;> simp [Side.cut, hk, Side.order] at heq
    rw [hrun, hcut, hitems]
    rw [hcut] at heq
    rw [hitems] at ha
    have hp := parts_at ha heq
    rw [List.filter_append, List.filter_cons, hp.filter_before, hp.filter_after, heq]
    cases s <;> simp [Side.tip, Side.order, Side.other]
  · have hp := hs.parts (respects_cut s inclusive key) ha
    rw [hrun, hs.items, List.filter_append, hp.filter_before, hp.filter_after]
    cases s <;> simp [Side.tip, Side.other]

theorem Tree.entryOf_tip (h : t.Keeps items) (s : Side) {l : List (Nat × K × V)}
    (hl : l.Sublist items) : t.entryOf ((s.tip l).map (·.1)) = s.tip (l.map (·.2)) := by
  rw [Side.tip_map]
  cases htip : s.tip l with
  | none => rfl
  | some x =>
    obtain ⟨before, after, rfl⟩ := List.append_of_mem (hl.subset (Side.tip_mem htip))
    exact h.entryOf

theorem Tree.keyOf_tip (h : t.Keeps items) (s : Side) {l : List (Nat × K × V)}
    (hl : l.Sublist items) :
    t.keyOf ((s.tip l).map (·.1)) = (s.tip (l.map (·.2))).map (·.1) := by
  have hkey : ∀ l : Link, t.keyOf l = (t.entryOf l).map (·.1) := by
    intro l
    rw [keyOf, entryOf, Option.map_map]
    rfl
  rw [hkey, entryOf_tip h s hl]

/-- The search for the key of a bound, which takes the key itself if the bound
lets it in, turns away from what lies beyond the bound. -/
theorem Bound.isBeyond_cut [Std.OrientedCmp cmp] {b : Bound K} {key : K} (hb : b.key? = some key)
    (s : Side) (k : K) :
    b.isBeyond cmp s k = decide (s.other.cut cmp (!b.isExcluded) key k = s.other.order) := by
  have hswap : cmp k key = (cmp key k).swap := Std.OrientedCmp.eq_swap
  rw [Bool.eq_iff_iff, isBeyond_iff hb, hswap, decide_eq_true_iff]
  cases hk : cmp key k <;> cases b.isExcluded <;> cases s <;>
    simp [Side.cut, hk, Side.order, Side.other]

end Searches

open SlotTree.Tree

namespace Window

variable {cmp : K → K → Ordering} {t : Tree K V} {items : List (Nat × K × V)} {w : Window K}

theorem keepWithin_tip (h : t.Keeps items) (s s' : Side) {l : List (Nat × K × V)}
    (hl : l.Sublist items) :
    w.keepWithin cmp t s ((s'.tip l).map (·.1)) =
      ((s'.tip l).filter (fun x => !w.interval.isBeyond cmp s x.2.1)).map (·.1) := by
  rw [keepWithin, keyOf_tip h s' hl, Side.tip_map]
  cases s'.tip l with
  | none => rfl
  | some x =>
    simp only [Option.map_some, Option.filter_some]
    cases w.interval.isBeyond cmp s x.2.1 <;> rfl

variable [Std.TransCmp cmp]

/-- Of a key that lies before the window everything in it lies on side `s`. -/
theorem filter_beyond {s : Side} {key : K} (hb : w.interval.isBeyond cmp s.other key = true) :
    (w.interval.stretch cmp items).filter (fun x => cmp key x.2.1 = s.other.order) =
      w.interval.stretch cmp items := by
  rw [List.filter_eq_self, ← w.interval.upTo_upTo s]
  intro x hx
  have hin := (List.mem_filter.mp hx).2
  rw [Bool.not_eq_true'] at hin
  exact decide_eq_true (Bound.order_of_beyond hb hin)

/-- Of a key that does not lie before the window nothing on side `s` does. -/
theorem filter_not_beyond {s : Side} {key : K} (hb : w.interval.isBeyond cmp s.other key = false) :
    (w.interval.stretch cmp items).filter (fun x => cmp key x.2.1 = s.other.order) =
      w.interval.upTo cmp s (items.filter (fun x => cmp key x.2.1 = s.other.order)) := by
  have hstretch : w.interval.stretch cmp items =
      w.interval.upTo cmp s (w.interval.upTo cmp s.other items) := by
    rw [← w.interval.upTo_upTo s.other, Side.other_other]
  simp only [hstretch, Interval.upTo, List.filter_filter]
  refine List.filter_congr ?_
  intro x _
  by_cases hx : cmp key x.2.1 = s.other.order
  · have hin : w.interval.isBeyond cmp s.other x.2.1 = false := by
      by_contra hbeyond
      rw [Bool.not_eq_false] at hbeyond
      -- The key would lie between the item and the bound, and so before the window.
      have horder := Bound.order_of_beyond hbeyond hb
      have hswap : cmp x.2.1 key = (cmp key x.2.1).swap := Std.OrientedCmp.eq_swap
      rw [horder, hx] at hswap
      cases s <;> cases hswap
    simp [hx, hin]
  · simp [hx]

variable (h : t.Keeps items) (ha : Ascending cmp (items.map (·.2)))
include h ha

/-- What is found from one end of the window and held against the other bound
is the end of the stretch. -/
theorem keepWithin_upTo (s : Side) :
    w.keepWithin cmp t s.other ((s.tip (w.interval.upTo cmp s items)).map (·.1)) =
      (s.tip (w.interval.stretch cmp items)).map (·.1) := by
  rw [keepWithin_tip h s.other s Interval.upTo_sublist, ← w.interval.upTo_upTo s,
    ← Side.tip_filter (w.interval.gathers_upTo ha s)]
  rfl

theorem nearest_upTo {s : Side} {key : K} (hb : (w.interval.bound s).key? = some key) :
    t.nearest cmp s.other (!(w.interval.bound s).isExcluded) key =
      .ok ((s.tip (w.interval.upTo cmp s items)).map (·.1)) := by
  have hsame : items.filter (fun x => s.other.cut cmp (!(w.interval.bound s).isExcluded) key x.2.1 ≠
      s.other.order) = w.interval.upTo cmp s items := by
    refine List.filter_congr ?_
    intro x _
    rw [Interval.isBeyond, Bound.isBeyond_cut hb, decide_not]
  rw [Tree.nearest_tip h ha, hsame, Side.other_other]

theorem endNode_inside (s : Side) :
    w.endNode cmp t s = .ok ((s.tip (w.interval.stretch cmp items)).map (·.1)) := by
  rw [← keepWithin_upTo h ha s]
  have hfound := @nearest_upTo K V cmp t items w _ h ha s
  unfold endNode
  cases hb : w.interval.bound s with
  | unbounded =>
    have hall : w.interval.upTo cmp s items = items := by
      simp [Interval.upTo, Interval.isBeyond, hb, Bound.isBeyond]
    simp [h.endNode, hall]
  | included key =>
    rw [hb] at hfound
    have hrun : t.nearest cmp s.other true key = _ := hfound rfl
    simp [hrun]
  | excluded key =>
    rw [hb] at hfound
    have hrun : t.nearest cmp s.other false key = _ := hfound rfl
    simp [hrun]

theorem beyondKey_inside (s : Side) (key : K) :
    w.beyondKey cmp t s key = .ok ((s.other.tip ((w.interval.stretch cmp items).filter
      (fun x => cmp key x.2.1 = s.other.order))).map (·.1)) := by
  unfold beyondKey
  cases hb : w.interval.isBeyond cmp s.other key with
  | true =>
    rw [filter_beyond hb]
    exact endNode_inside h ha s.other
  | false =>
    have hafter : items.filter (fun x => s.cut cmp false key x.2.1 ≠ s.order) =
        items.filter (fun x => cmp key x.2.1 = s.other.order) := by
      refine List.filter_congr ?_
      intro x _
      cases hk : cmp key x.2.1 <;> cases s <;> simp [Side.cut, hk, Side.order, Side.other]
    have hgather := (w.interval.gathers ha s).filter
      (q := fun x => decide (cmp key x.2.1 = s.other.order))
    rw [filter_not_beyond hb, Interval.upTo, Side.tip_filter hgather,
      ← keepWithin_tip h s s.other List.filter_sublist]
    simp only [Tree.nearest_tip h ha, hafter, Bool.false_eq_true, if_false, ok_bind, pure_ok]

theorem keyBeyond_inside (s : Side) (key : K) :
    t.keyOf <$> w.beyondKey cmp t s key =
      .ok ((s.other.tip ((w.interval.inside cmp (items.map (·.2))).filter
        (fun e => cmp key e.1 = s.other.order))).map (·.1)) := by
  have hsub : ((w.interval.stretch cmp items).filter
      (fun x => cmp key x.2.1 = s.other.order)).Sublist items :=
    List.filter_sublist.trans Interval.stretch_sublist
  rw [beyondKey_inside h ha, map_ok, keyOf_tip h s.other hsub,
    Interval.entries_filter (fun k => decide (cmp key k = s.other.order))]

theorem span_inside :
    ∃ it, w.span cmp t = .ok it ∧ it.Covers items (w.interval.stretch cmp items) := by
  obtain ⟨before, after, hitems, -, -⟩ := w.interval.stretch_split ha
  refine ⟨_, ?_, Span.between_covers hitems⟩
  simp [span, endNode_inside h ha, Side.tip]

theorem entries_inside : w.entries cmp t = .ok (w.interval.inside cmp (items.map (·.2))) := by
  obtain ⟨it, hspan, hit⟩ := span_inside (w := w) h ha
  obtain ⟨it', hall, -⟩ := (Span.tracks h).takeAll .left ⟨_, hit, rfl⟩
  rw [← Interval.entries_stretch]
  simp [entries, hspan, hall, Feed.handedOut]

theorem get?_inside (key : K) :
    w.get? cmp t key =
      .ok ((Assoc.find cmp key (w.interval.inside cmp (items.map (·.2)))).map (·.2)) := by
  rw [get?, admits, ← w.interval.within_eq, Interval.find_inside]
  cases w.interval.within cmp key with
  | true =>
    obtain ⟨l, hrun, hentry, -⟩ := find_assoc h ha key
    simp [Tree.get?, entry?, hrun, hentry]
  | false => rfl

end Window

/-! ## Reads -/

namespace WindowRead

variable [Written K]

mutual

/-- What a read of a window on the keys of an interval is answered when the
tree has the entries of a list. -/
def onList (cmp : K → K → Ordering) (es : List (K × V)) (i : Interval K) :
    WindowRead K → Reply K V
  | bounds => .interval i
  | text => .text i.text
  | admits key => .flag (i.within cmp key)
  | endKey s => .option .key ((s.tip (i.inside cmp es)).map (·.1))
  | endEntry s => .option .entry (s.tip (i.inside cmp es))
  | get key => .option .value ((Assoc.find cmp key (i.inside cmp es)).map (·.2))
  | contains key => .flag (Assoc.find cmp key (i.inside cmp es)).isSome
  | nextKey key =>
    .option .key (((i.inside cmp es).filter (fun e => cmp key e.1 = .lt)).head?.map (·.1))
  | previousKey key =>
    .option .key (((i.inside cmp es).filter (fun e => cmp key e.1 = .gt)).getLast?.map (·.1))
  | count => .count (i.inside cmp es).length
  | isEmpty => .flag (i.inside cmp es).isEmpty
  | iterate shown plan => .list (Pull.onList false false shown (i.inside cmp es) plan)
  | narrow further ops =>
    match i.narrow cmp further with
    | .error refusal => .refused refusal
    | .ok both => .answers (onListAll cmp es both ops)

/-- What a list of reads is answered. -/
def onListAll (cmp : K → K → Ordering) (es : List (K × V)) (i : Interval K) :
    List (WindowRead K) → List (Reply K V)
  | [] => []
  | op :: ops => onList cmp es i op :: onListAll cmp es i ops

end

variable {cmp : K → K → Ordering} {t : Tree K V} {items : List (Nat × K × V)}

mutual

/-- Every read of a window is answered as on the stretch of the list. -/
theorem run_onList [Std.TransCmp cmp] (h : t.Keeps items)
    (ha : Ascending cmp (items.map (·.2))) (w : Window K) :
    ∀ op : WindowRead K, op.run cmp t w = .ok (op.onList cmp (items.map (·.2)) w.interval)
  | bounds => by simp only [run, onList]
  | text => by simp only [run, onList]
  | admits key => by
    simp only [run, onList, Window.admits, Interval.within_eq]
  | endKey s => by
    simp only [run, onList, Window.endKey, Window.endNode_inside h ha, map_ok,
      keyOf_tip h s Interval.stretch_sublist, Interval.entries_stretch]
  | endEntry s => by
    simp only [run, onList, Window.endEntry, Window.endNode_inside h ha, map_ok,
      entryOf_tip h s Interval.stretch_sublist, Interval.entries_stretch]
  | get key => by simp only [run, onList, Window.get?_inside h ha, map_ok]
  | contains key => by
    simp only [run, onList, Window.contains, Window.get?_inside h ha, map_ok, Option.isSome_map]
  | nextKey key => by
    have hkey := Window.keyBeyond_inside (w := w) h ha .right key
    simp only [run, onList, Window.nextKey, hkey, map_ok]
    rfl
  | previousKey key => by
    have hkey := Window.keyBeyond_inside (w := w) h ha .left key
    simp only [run, onList, Window.previousKey, hkey, map_ok]
    rfl
  | count => by simp only [run, onList, Window.count, Window.entries_inside h ha, map_ok]
  | isEmpty => by
    simp only [run, onList, Window.isEmpty, Window.endNode_inside h ha, map_ok]
    rw [← Interval.entries_stretch]
    cases w.interval.stretch cmp items <;> rfl
  | iterate shown plan => by
    obtain ⟨it, hspan, hit⟩ := Window.span_inside (w := w) h ha
    have hrun := (Span.tracks h).runAll false shown plan ⟨_, hit, rfl⟩
    rw [Interval.entries_stretch] at hrun
    simp only [run, onList, hspan, hrun, ok_bind, pure_ok]
  | narrow further ops => by
    simp only [run, onList, Window.narrow]
    cases w.interval.narrow cmp further with
    | error refusal => rfl
    | ok both =>
      have hall := runAll_onListAll h ha ⟨both⟩ ops
      simp only [map_ok, hall]

theorem runAll_onListAll [Std.TransCmp cmp] (h : t.Keeps items)
    (ha : Ascending cmp (items.map (·.2))) (w : Window K) : ∀ ops : List (WindowRead K),
    runAll cmp t w ops = .ok (onListAll cmp (items.map (·.2)) w.interval ops)
  | [] => by simp only [runAll, onListAll]
  | op :: ops => by
    have hop := run_onList h ha w op
    have hops := runAll_onListAll h ha w ops
    simp only [runAll, onListAll, hop, hops, ok_bind, pure_ok]

end

end WindowRead

theorem WindowWrite.runAll_read [Written K] {cmp : K → K → Ordering} {t : Tree K V} {w : Window K}
    (ops : List (WindowRead K)) :
    runAll cmp t w (ops.map .read) = (·, t) <$> WindowRead.runAll cmp t w ops := by
  induction ops with
  | nil => simp only [List.map_nil, runAll, WindowRead.runAll, map_ok]
  | cons op ops ih =>
    simp only [List.map_cons, runAll, run, WindowRead.runAll]
    cases op.run cmp t w with
    | error fault => rfl
    | ok r =>
      simp only [ok_bind, pure_ok, ih]
      cases WindowRead.runAll cmp t w ops <;> rfl

variable [Written K] [Written V] [DecidableEq K] [DecidableEq V]
  {C : (K → K → Ordering) → Prop} {s : Session K V} {l : Ledger} {number : Nat} {t : Tree K V}
  {cmp : K → K → Ordering}

/-- After any run under a lawful comparison, every pair of bounds is refused, if
they are crossed, and then no key lies between them; or it is accepted, and then
every read of the window is answered as on the list of those entries of the tree
whose keys satisfy both bounds. A window for changes is opened on the same
bounds, and its reads and those of its read-only part are answered the same. -/
theorem reached_window_reads (h : Reaches C s l) (hgov : Governs C cmp)
    (ht : s.tree number = .ok t) (bounds : Interval K) :
    ∃ es, t.entries = .ok es ∧ Ascending cmp es ∧
      ((bounds.Crossed cmp ∧ (∀ key, bounds.within cmp key = false) ∧ ∃ flaw,
          (∀ ops, (Query.window bounds ops).run cmp t = .ok (.refused (.invalidRange flaw))) ∧
            ∀ ops, (Edit.window bounds ops).run cmp t = .ok (.refused (.invalidRange flaw), t)) ∨
        (¬ bounds.Crossed cmp ∧ ∃ w, Window.ofBounds cmp bounds = .ok w ∧ ∀ ops,
          (Query.window bounds ops).run cmp t =
              .ok (.answers (WindowRead.onListAll cmp es bounds ops)) ∧
            WindowWrite.runAll cmp t w (ops.map .read) =
              .ok (WindowRead.onListAll cmp es bounds ops, t) ∧
            (WindowWrite.asReadOnly ops).run cmp t w =
              .ok (.answers (WindowRead.onListAll cmp es bounds ops), t))) := by
  obtain ⟨items, hkept⟩ := h.sane.tree number t ht
  have := hgov.lawful
  have hk := hkept.keeps
  have ha := hkept.ascending cmp hgov
  refine ⟨items.map (·.2), hk.entries, ha, ?_⟩
  rcases bounds.check_eq cmp with ⟨hcross, flaw, hcheck⟩ | ⟨hcross, hcheck⟩
  · have hopen : Window.ofBounds cmp bounds = .error (.invalidRange flaw) := by
      simp [Window.ofBounds, hcheck]
    refine .inl ⟨hcross, hcross.not_within, flaw, ?_, ?_⟩
    · intro ops
      simp [Query.run, hopen]
    · intro ops
      simp [Edit.run, hopen]
  · have hopen : Window.ofBounds cmp bounds = .ok ⟨bounds⟩ := by simp [Window.ofBounds, hcheck]
    refine .inr ⟨hcross, ⟨bounds⟩, hopen, ?_⟩
    intro ops
    have hreads := WindowRead.runAll_onListAll hk ha ⟨bounds⟩ ops
    refine ⟨?_, ?_, ?_⟩
    · simp [Query.run, hopen, hreads]
    · rw [WindowWrite.runAll_read, hreads]
      rfl
    · simp only [WindowWrite.run, hreads, ok_bind, pure_ok]

/-- Four entries. -/
def fourEntries : List ((Int → Int → Ordering) × Nat × Command Int Int) :=
  [(compare, 0, .edit (.insertAll [(3, 30), (1, 10), (7, 70), (5, 50)]))]

/-- A window on the two entries in the middle. -/
theorem fourEntries_middle :
    ∃ (s : Session Int Int) (l : Ledger) (t : Tree Int Int),
      Session.blank.follow .blank fourEntries = some (s, l) ∧ s.tree 0 = .ok t ∧
        (Query.window ⟨.excluded 1, .excluded 7⟩ [.nextKey 0, .previousKey 9, .get 7, .count,
            .iterate .keys [.take .right, .takeAll .left]]).run compare t =
          .ok (.answers [.key 3, .key 5, .nothing, .count 2, .list [.key 5, .list [.key 3]]]) := by
  have hrun : Session.blank.follow .blank fourEntries = some _ := rfl
  have hreach := Reaches.follow (C := (· = compare)) .blank (by simp [fourEntries]) hrun
  obtain ⟨es, hes, -, ⟨⟨lo, hi, hlo, hhi, hcross⟩, -, -⟩ | ⟨-, w, -, hreads⟩⟩ :=
    @reached_window_reads Int Int _ _ _ _ _ _ _ 0 _ compare hreach ⟨inferInstance, fun _ h => h⟩
      rfl ⟨.excluded 1, .excluded 7⟩
  · obtain rfl := Option.some.inj hlo
    obtain rfl := Option.some.inj hhi
    rcases hcross with hcross | ⟨hcross, -⟩ <;> cases hcross
  · have hentries : es = [(1, 10), (3, 30), (5, 50), (7, 70)] := Except.ok.inj (hes.symm.trans rfl)
    rw [hentries] at hreads
    obtain ⟨hquery, -, -⟩ := hreads [.nextKey 0, .previousKey 9, .get 7, .count,
      .iterate .keys [.take .right, .takeAll .left]]
    exact ⟨_, _, _, hrun, rfl, hquery⟩

end SlotTree
