import SlotTree.Proofs.Roaming
import SlotTree.Proofs.Stretch

/-
  Meeting — two ends that take from one list.

  What a call at either end yields depends on nothing but the ends of the calls
  before it. As long as there were fewer calls than items, it is the item whose
  place, from that end, is the number of calls at that end; after that there is
  nothing, at either end (`Feed.yield`). What is left lies between the two ends
  (`Feed.rest`), and what the two have yielded lies before and after it, so no
  item is yielded twice and none is passed over (`Feed.yielded_split`).

  Every iteration is answered in these terms (`Pull.onList_eq`), so the ends of
  an iteration over a tree or a window meet once (`roamed_ends_meet`).
-/
namespace SlotTree

variable {K V α : Type}

/-! ## Calls at the ends of a list -/

namespace Feed

/-- What a call at one end yields after calls at these ends. -/
def yield (es : List α) (calls : List Side) (s : Side) : Option α :=
  if calls.length < es.length then (handedOut s es)[calls.count s]? else none

/-- What is left after calls at these ends. -/
def rest (es : List α) (calls : List Side) : List α :=
  (es.drop (calls.count .left)).take (es.length - calls.length)

/-- What those of further calls that are made at one end yield. -/
def yielded (es : List α) (s : Side) : List Side → List Side → List α
  | _, [] => []
  | before, c :: calls =>
    (if c = s then (yield es before c).toList else []) ++ yielded es s (before ++ [c]) calls

variable {es : List α} {calls : List Side}

theorem count_ends (calls : List Side) :
    calls.count .left + calls.count .right = calls.length := by
  induction calls with
  | nil => rfl
  | cons s calls ih =>
    cases s with
    | left => simp only [List.count_cons, List.length_cons]; simp; omega
    | right => simp only [List.count_cons, List.length_cons]; simp; omega

@[simp] theorem rest_nil (es : List α) : rest es [] = es := by
  simp [rest]

theorem length_rest (es : List α) (calls : List Side) :
    (rest es calls).length = es.length - calls.length := by
  have := count_ends calls
  rw [rest, List.length_take, List.length_drop]
  omega

theorem takeFromList_rest (es : List α) (calls : List Side) (s : Side) :
    takeFromList s (rest es calls) = (yield es calls s, rest es (calls ++ [s])) := by
  have hends := count_ends calls
  have hlen := length_rest es calls
  cases s with
  | left =>
    have hcount : (calls ++ [Side.left]).count Side.left = calls.count .left + 1 := by simp
    refine Prod.ext ?_ ?_
    · simp only [takeFromList, rest, yield, handedOut, List.head?_take, List.head?_drop]
      split <;> split <;> first | rfl | omega
    · simp only [takeFromList, rest, hcount, List.length_append, List.length_singleton]
      rw [← List.drop_one, List.drop_take, List.drop_drop, Nat.sub_sub]
  | right =>
    have hcount : (calls ++ [Side.right]).count Side.left = calls.count .left := by simp
    refine Prod.ext ?_ ?_
    · simp only [takeFromList, List.getLast?_eq_getElem?, hlen, yield, handedOut]
      split
      · rw [rest, List.getElem?_take_of_lt (by omega), List.getElem?_drop,
          List.getElem?_reverse (by omega)]
        congr 1
        omega
      · rw [List.getElem?_eq_none (by omega)]
    · simp only [takeFromList, List.dropLast_eq_take, hlen]
      simp only [rest, hcount, List.length_append, List.length_singleton, List.take_take]
      congr 1
      omega

theorem takeFromList_split (s : Side) (l : List α) :
    (match s with
      | .left => (takeFromList s l).1.toList ++ (takeFromList s l).2
      | .right => (takeFromList s l).2 ++ (takeFromList s l).1.toList) = l := by
  cases s with
  | left => cases l <;> rfl
  | right =>
    rcases List.eq_nil_or_concat l with rfl | ⟨front, a, rfl⟩
    · rfl
    · simp [takeFromList]

/-- What further calls at the two ends yield lies before and after what they
leave. -/
theorem yielded_rest (es : List α) (before calls : List Side) :
    yielded es .left before calls ++ rest es (before ++ calls) ++
      (yielded es .right before calls).reverse = rest es before := by
  induction calls generalizing before with
  | nil => simp [yielded]
  | cons s calls ih =>
    have hsplit := takeFromList_split s (rest es before)
    rw [takeFromList_rest] at hsplit
    have hrest := ih (before ++ [s])
    rw [List.append_assoc before, List.singleton_append] at hrest
    cases s with
    | left =>
      rw [← hsplit, ← hrest]
      simp [yielded, List.append_assoc]
    | right =>
      rw [← hsplit, ← hrest]
      simp only [yielded, if_true]
      cases yield es before .right <;> simp

theorem yielded_split (es : List α) (calls : List Side) :
    yielded es .left [] calls ++ rest es calls ++ (yielded es .right [] calls).reverse = es := by
  simpa using yielded_rest es [] calls

end Feed

open SlotTree.Feed

/-! ## Plans -/

namespace Pull

/-- The calls after one thing more was done with an iteration over `n` items;
taking all of them ends with a call that finds nothing. -/
def calls (n : Nat) (before : List Side) : Pull → List Side
  | .take s => before ++ [s]
  | .takeAll s => before ++ List.replicate (n - before.length + 1) s
  | .hint | .length | .peekAll => before

/-- What one thing done with an iteration is answered after calls at these
ends. -/
def answer (sized mayPeek : Bool) (shown : Shown) (es : List (K × V)) (before : List Side) :
    Pull → Reply K V
  | .take s => .option shown.reply (yield es before s)
  | .hint =>
    let left := es.length - before.length
    .list (if sized then [.count left, .count left] else [.count 0, .nothing])
  | .length => if sized then .count (es.length - before.length) else .nothing
  | .peekAll => if mayPeek then .list ((rest es before).map shown.reply) else .nothing
  | .takeAll s => .list ((handedOut s (rest es before)).map shown.reply)

/-- What a plan is answered. -/
def answers (sized mayPeek : Bool) (shown : Shown) (es : List (K × V)) :
    List Side → List Pull → List (Reply K V)
  | _, [] => []
  | before, p :: plan =>
    p.answer sized mayPeek shown es before ::
      answers sized mayPeek shown es (p.calls es.length before) plan

theorem onList_rest (sized mayPeek : Bool) (shown : Shown) (es : List (K × V))
    (before : List Side) (plan : List Pull) :
    onList sized mayPeek shown (rest es before) plan =
      answers sized mayPeek shown es before plan := by
  induction plan generalizing before with
  | nil => rfl
  | cons p plan ih =>
    have hlen := length_rest es before
    cases p with
    | take s => simp only [onList, answers, answer, calls, takeFromList_rest, ih]
    | hint => simp only [onList, answers, answer, calls, hlen, ih]
    | length => simp only [onList, answers, answer, calls, hlen, ih]
    | peekAll => simp only [onList, answers, answer, calls, ih]
    | takeAll s =>
      -- The calls have used up the list.
      have hspent : rest es (before ++ List.replicate (es.length - before.length + 1) s) = [] := by
        apply List.eq_nil_of_length_eq_zero
        rw [length_rest, List.length_append, List.length_replicate]
        omega
      simp only [onList, answers, answer, calls, ← ih, hspent]

theorem onList_eq (sized mayPeek : Bool) (shown : Shown) (es : List (K × V)) (plan : List Pull) :
    onList sized mayPeek shown es plan = answers sized mayPeek shown es [] plan := by
  rw [← onList_rest, rest_nil]

end Pull

variable [Written K] [Written V] [DecidableEq K] [DecidableEq V]

/-- After any run, whatever is done with an iteration over the entries of a tree
is answered from the calls at its two ends so far: the next entry from that end
until all are out, then nothing, and the number of those left. Over a window,
under the one comparison in use, if it is lawful, the same goes for the entries
inside, but for their number. What the two ends have yielded lies before and
after what is left, so that every entry is yielded once. -/
theorem roamed_ends_meet {C : (K → K → Ordering) → Prop} {s : Session K V} {number : Nat}
    {t : Tree K V} (h : Roams C s) (ht : s.tree number = .ok t) :
    ∃ es, t.entries = .ok es ∧
      (∀ shown plan, t.iterate (.tree shown) plan =
        .ok (.list (Pull.answers true (shown = .entries) shown es [] plan))) ∧
      (∀ plan, t.iterate .listed plan =
        .ok (.list (Pull.answers true false .entries es [] plan))) ∧
      (∀ cmp, Governs C cmp → ∀ (w : Window K) shown plan,
        (WindowRead.iterate shown plan).run cmp t w =
          .ok (.list (Pull.answers false false shown (w.interval.inside cmp es) [] plan))) ∧
      ∀ (l : List (K × V)) (calls : List Side),
        yielded l .left [] calls ++ rest l calls ++ (yielded l .right [] calls).reverse = l ∧
          (rest l calls).length = l.length - calls.length := by
  obtain ⟨items, hk, hasc⟩ := h.keeps number t ht
  refine ⟨items.map (·.2), hk.entries, ?_, ?_, ?_, ?_⟩
  · intro shown plan
    rw [Tree.iterate_ok hk, ← Pull.onList_eq]
  · intro plan
    rw [Tree.iterate_ok hk, ← Pull.onList_eq]
  · intro cmp hgov w shown plan
    have := hgov.lawful
    rw [WindowRead.run_onList hk (hasc cmp hgov), WindowRead.onList, Pull.onList_eq]
  · intro l calls
    exact ⟨yielded_split l calls, length_rest l calls⟩

/-- The two ends of an iteration over four entries meet after two calls each,
and those over the three upper ones in the middle one. -/
theorem fourEntries_meet :
    ∃ (s : Session Int Int) (t : Tree Int Int), Roams (· = compare) s ∧ s.tree 0 = .ok t ∧
      t.iterate (.tree .keys) [.take .left, .take .right, .hint, .take .right, .take .left,
          .take .left, .take .right, .length] =
        .ok (.list [.key 1, .key 7, .list [.count 2, .count 2], .key 5, .key 3, .nothing, .nothing,
          .count 0]) ∧
      (WindowRead.iterate .entries [.take .right, .take .left, .takeAll .right]).run compare t
          ⟨.excluded 1, .unbounded⟩ =
        .ok (.list [.entry (7, 70), .entry (3, 30), .list [.entry (5, 50)]]) := by
  have hrun : Session.blank.follow .blank fourEntries = some _ := rfl
  have hreach := Reaches.follow (C := (· = compare)) .blank (by simp [fourEntries]) hrun
  obtain ⟨es, hes, htree, -, hwindow, -⟩ :=
    @roamed_ends_meet Int Int _ _ _ _ _ _ 0 _ hreach.roams rfl
  have hentries : es = [(1, 10), (3, 30), (5, 50), (7, 70)] := Except.ok.inj (hes.symm.trans rfl)
  subst hentries
  refine ⟨_, _, hreach.roams, rfl, htree _ _, ?_⟩
  exact hwindow compare ⟨inferInstance, fun _ h => h⟩ ⟨.excluded 1, .unbounded⟩ .entries _

end SlotTree
