import SlotTree.Proofs.Intact
import SlotTree.Proofs.Roaming
import SlotTree.Proofs.Stretch

/-
  Visiting — what a visit of all entries is shown, and what it leaves.

  A visit may answer anything. It has a memory of its own, which every call
  changes, and it puts a value in place of the one it is shown. `visits` lists
  its answers along a list of entries, and `keptOf` the entries that are kept.

  A visit that also notes down what it is shown leaves the same tree
  (`retain_noting`). So the notes at the end are the calls that were made: one
  for each entry, in the order of the entries, with the value from before
  (`roamed_visit_filters`).
-/
namespace SlotTree

variable {K V σ : Type}

namespace Tree

/-- The answers of a visit along a list of entries: the value that it leaves, and
whether the entry is kept. -/
def visits (visit : σ → K → V → σ × V × Bool) : σ → List (K × V) → List (V × Bool)
  | _, [] => []
  | state, (key, value) :: rest =>
    (visit state key value).2 :: visits visit (visit state key value).1 rest

/-- What a visit remembers after a list of entries. -/
def remembers (visit : σ → K → V → σ × V × Bool) : σ → List (K × V) → σ
  | state, [] => state
  | state, (key, value) :: rest => remembers visit (visit state key value).1 rest

/-- The entries that are kept, with the values that the visit left. -/
def keptOf (es : List (K × V)) (answers : List (V × Bool)) : List (K × V) :=
  ((es.zip answers).filter (·.2.2)).map (fun shown => (shown.1.1, shown.2.1))

/-- A visit that also notes down the entries it is shown. -/
def noting (visit : σ → K → V → σ × V × Bool) :
    σ × List (K × V) → K → V → (σ × List (K × V)) × V × Bool :=
  fun noted key value =>
    (((visit noted.1 key value).1, noted.2 ++ [(key, value)]), (visit noted.1 key value).2)

variable (visit : σ → K → V → σ × V × Bool) {t : Tree K V} {es : List (K × V)}

@[simp] theorem length_visits (start : σ) (es : List (K × V)) :
    (visits visit start es).length = es.length := by
  induction es generalizing start with
  | nil => rfl
  | cons e es ih => simp [visits, ih]

/-- The entries that a visit keeps, in terms of its answers. -/
theorem retained_eq (start : σ) (es : List (K × V)) :
    retained visit start es = (remembers visit start es, keptOf es (visits visit start es)) := by
  induction es generalizing start with
  | nil => rfl
  | cons e es ih =>
    obtain ⟨key, value⟩ := e
    simp only [retained, remembers, keptOf, visits, List.zip_cons_cons, List.filter_cons, ih]
    cases (visit start key value).2.2 <;> rfl

theorem length_keptOf {answers : List (V × Bool)} (h : answers.length = es.length) :
    (keptOf es answers).length + answers.countP (fun answer => !answer.2) = es.length := by
  induction es generalizing answers with
  | nil => simp_all [keptOf]
  | cons e es ih =>
    cases answers with
    | nil => cases h
    | cons answer answers =>
      have hrest := ih (Nat.succ.inj h)
      simp only [keptOf, List.length_map] at hrest
      simp only [keptOf, List.length_map, List.zip_cons_cons, List.filter_cons, List.countP_cons,
        List.length_cons]
      cases answer.2 <;> simp <;> omega

/-! ## Noting down -/

theorem visits_noting (start : σ) (seen es : List (K × V)) :
    visits (noting visit) (start, seen) es = visits visit start es := by
  induction es generalizing start seen with
  | nil => rfl
  | cons e es ih => simp [visits, noting, ih]

theorem remembers_noting (start : σ) (seen es : List (K × V)) :
    remembers (noting visit) (start, seen) es = (remembers visit start es, seen ++ es) := by
  induction es generalizing start seen with
  | nil => simp [remembers]
  | cons e es ih => simp [remembers, noting, ih]

/-- Noting down changes nothing but the notes. -/
theorem retainFrom_noting (steps : Nat) (t : Tree K V) (state : σ) (seen : List (K × V))
    (l : Link) :
    (fun done => (done.1.1, done.2)) <$> retainFrom (noting visit) steps t (state, seen) l =
      retainFrom visit steps t state l := by
  induction steps generalizing t state seen l with
  | zero => cases l <;> rfl
  | succ steps ih =>
    cases l with
    | none => rfl
    | some i =>
      simp only [retainFrom]
      cases t.node i with
      | error f => rfl
      | ok n =>
        simp only [ok_bind, noting]
        cases t.setValue i (visit state n.key n.value).2.1 with
        | error f => rfl
        | ok t₁ =>
          -- Both visits keep the entry, or both refuse it.
          by_cases hkeep : (visit state n.key n.value).2.2 = true
          · simp only [ok_bind, hkeep, if_true]
            cases t₁.neighbour .right i with
            | error f => rfl
            | ok next => exact ih t₁ _ _ next
          · simp only [ok_bind, hkeep]
            cases t₁.eraseNode (some i) with
            | error f => rfl
            | ok erased =>
              cases erased with
              | none => rfl
              | some r => exact ih r.tree _ _ r.next

theorem retain_noting (t : Tree K V) (start : σ) (seen : List (K × V)) :
    (fun done => (done.1.1, done.2)) <$> t.retain (noting visit) (start, seen) =
      t.retain visit start := by
  unfold retain
  cases t.firstNode with
  | error f => rfl
  | ok l => exact retainFrom_noting visit t.patience t start seen l

end Tree

open SlotTree.Tree

variable [Written K] [Written V] [DecidableEq K] [DecidableEq V]

/-- After any run, a visit of all entries of a tree comes to an end, whatever it
answers. It is shown every entry once, in their order and with the value from
before. The entries for which it answers `true` are left, with the values that it
put in; each of the others takes one off the size and moves the revision on by
one, and the links are those of a red-black tree. -/
theorem roamed_visit_filters {C : (K → K → Ordering) → Prop} {s : Session K V} {number : Nat}
    {t : Tree K V} (h : Roams C s) (ht : s.tree number = .ok t)
    (visit : σ → K → V → σ × V × Bool) (start : σ) :
    ∃ es t', t.entries = .ok es ∧ t.retain visit start = .ok (remembers visit start es, t') ∧
      t.retain (noting visit) (start, []) = .ok ((remembers visit start es, es), t') ∧
      t'.entries = .ok (keptOf es (visits visit start es)) ∧
      t'.size + (visits visit start es).countP (fun answer => !answer.2) = t.size ∧
      t'.revision =
        t.revision + UInt64.ofNat ((visits visit start es).countP (fun answer => !answer.2)) ∧
      t'.Intact := by
  obtain ⟨items, hk, -⟩ := h.keeps number t ht
  obtain ⟨t', kept, hrun, hkept, hthin⟩ := retain_ok (noting visit) (start, []) hk
  rw [retained_eq] at hkept hrun
  simp only [visits_noting, remembers_noting, List.nil_append] at hkept hrun
  have hcount := length_keptOf (length_visits visit start (items.map (·.2)))
  rw [← hkept, List.length_map, List.length_map, ← hk.size] at hcount
  refine ⟨items.map (·.2), t', hk.entries, ?_, hrun, ?_, ?_, ?_, ?_⟩
  · rw [← retain_noting visit t start [], hrun]
    rfl
  · rw [hthin.keeps.entries, hkept]
  · rw [hthin.keeps.size]
    exact hcount
  · rw [hthin.revision, ← hk.size]
    congr 2
    omega
  · obtain ⟨-, sh, hsound, -⟩ := hthin.keeps
    exact hsound.intact

/-- A visit that keeps every other entry and adds to each value how many entries
came before. -/
def everyOther (seen : Nat) (_ value : Int) : Nat × Int × Bool :=
  (seen + 1, value + seen, seen % 2 = 0)

/-- Of four entries, two are left. -/
theorem everyOther_filters :
    ∃ (s : Session Int Int) (t t' : Tree Int Int), Roams (· = compare) s ∧ s.tree 0 = .ok t ∧
      t.retain (noting everyOther) (0, []) =
        .ok ((4, [(1, 10), (3, 30), (5, 50), (7, 70)]), t') ∧
      t'.entries = .ok [(1, 10), (5, 52)] ∧ t'.size + 2 = t.size ∧
      t'.revision = t.revision + 2 ∧ t'.Intact := by
  have hrun : Session.blank.follow .blank fourEntries = some _ := rfl
  have hreach := Reaches.follow (C := (· = compare)) .blank (by simp [fourEntries]) hrun
  obtain ⟨es, t', hes, -, hnoted, hleft, hsize, hrev, hintact⟩ :=
    @roamed_visit_filters Int Int Nat _ _ _ _ _ _ 0 _ hreach.roams rfl everyOther 0
  have hentries : es = [(1, 10), (3, 30), (5, 50), (7, 70)] := Except.ok.inj (hes.symm.trans rfl)
  subst hentries
  exact ⟨_, _, t', hreach.roams, rfl, hnoted, hleft, hsize, hrev, hintact⟩

end SlotTree
