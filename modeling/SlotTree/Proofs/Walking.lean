import SlotTree.Proofs.Reach

/-
  Walks — lists of operations on one cursor.

  As long as nobody else changes the tree, a cursor and its tree go through a
  list of operations as a gap in the list of entries does (`runAll_gap`). A
  sweep to one end, from the other end, passes every entry once and leaves
  those that are not meant (`sweep_facing`).
-/
namespace SlotTree

variable {K V : Type}

/-- Carries out operations on a cursor one after the other. -/
def CursorOp.runAll (t : Tree K V) (c : Cursor) :
    List (CursorOp K V) → Except Fault (List (Reply K V) × Cursor × Tree K V)
  | [] => .ok ([], c, t)
  | op :: ops => do
    let (r, c, t) ← op.run t c
    let (rs, c, t) ← runAll t c ops
    return (r :: rs, c, t)

namespace Gap

/-- Carries out operations on a gap one after the other. -/
def runAll (g : Gap K V) : List (CursorOp K V) → List (Reply K V) × Gap K V
  | [] => ([], g)
  | op :: ops =>
    let (r, g) := g.run op
    let (rs, g) := g.runAll ops
    (r :: rs, g)

/-- The gap with lists of entries that lie behind it and ahead of it on side
`s`, both from the gap outwards. -/
def facing (s : Side) (behind ahead : List (K × V)) (held : Option Side) : Gap K V :=
  match s with
  | .right => ⟨behind.reverse, ahead, held⟩
  | .left => ⟨ahead.reverse, behind, held⟩

end Gap

/-- The entries in the order in which a walk to one side passes them. -/
def Side.along (s : Side) (es : List (K × V)) : List (K × V) :=
  match s with
  | .right => es
  | .left => es.reverse

/-- The entries that are not meant, where an entry is meant by its place in the
list and its key. -/
def kept (meant : Nat → K → Bool) (es : List (K × V)) (start : Nat) : List (K × V) :=
  ((es.zipIdx start).filter (fun x => !meant x.2 x.1.1)).map (·.1)

namespace Gap

variable {s : Side} {behind ahead : List (K × V)} {held : Option Side} {e : K × V}

@[simp] theorem entries_facing :
    (facing s behind ahead held).entries = s.along (behind.reverse ++ ahead) := by
  cases s <;> simp [facing, entries, Side.along]

theorem eq_facing {g : Gap K V} (h : g.distance s.other = 0) :
    g = facing s [] (s.along g.entries) g.held := by
  obtain ⟨before, after, held⟩ := g
  cases s with
  | right =>
    obtain rfl := List.eq_nil_of_length_eq_zero h
    rfl
  | left =>
    obtain rfl := List.eq_nil_of_length_eq_zero h
    simp [facing, entries, Side.along]

theorem step_facing :
    (facing s behind (e :: ahead) held).step s =
      some (e, facing s (e :: behind) ahead (some s.other)) := by
  cases s <;> simp [facing, step, Side.other]

theorem remove_facing :
    (facing s (e :: behind) ahead (some s.other)).remove = facing s behind ahead none := by
  cases s <;> simp [facing, remove, Side.other]

theorem distance_facing : (facing s behind ahead held).distance s = ahead.length := by
  cases s <;> simp [facing, distance]

/-- A sweep passes all entries ahead and leaves those that are not meant
behind. -/
theorem sweep_facing (meant : Nat → K → Bool) (seen : List K) :
    ∃ held', (facing s behind ahead held).sweep s meant ahead.length seen =
      (seen.reverse ++ ahead.map (·.1),
        facing s ((kept meant ahead seen.length).reverse ++ behind) [] held') := by
  induction ahead generalizing behind held seen with
  | nil => exact ⟨held, by simp [sweep, kept]⟩
  | cons e ahead ih =>
    simp only [List.length_cons, sweep, step_facing]
    by_cases hmeant : meant seen.length e.1
    · obtain ⟨held', hrun⟩ := @ih behind none (e.1 :: seen)
      refine ⟨held', ?_⟩
      rw [if_pos hmeant, remove_facing, hrun]
      simp [kept, hmeant]
    · obtain ⟨held', hrun⟩ := @ih (e :: behind) (some s.other) (e.1 :: seen)
      refine ⟨held', ?_⟩
      rw [if_neg hmeant, hrun]
      simp [kept, hmeant]

end Gap

namespace CursorOp

open Cursor

variable {t : Tree K V} {c : Cursor} {before after : List (Nat × K × V)} {held : Option Side}

theorem runAll_gap (h : Stands t c before after held) {ops : List (CursorOp K V)}
    (hops : ∀ op ∈ ops, op ≠ .text) :
    ∃ rs c' t' before' after' held', runAll t c ops = .ok (rs, c', t') ∧
      (Gap.between before after held).runAll ops = (rs, Gap.between before' after' held') ∧
      Stands t' c' before' after' held' := by
  induction ops generalizing t c before after held with
  | nil => exact ⟨[], c, t, before, after, held, rfl, rfl, h⟩
  | cons op ops ih =>
    obtain ⟨r, c₁, t₁, before₁, after₁, held₁, hrun, hgap, h₁, -, -⟩ :=
      run_gap h op (hops op (List.mem_cons_self ..))
    obtain ⟨rs, c', t', before', after', held', hruns, hgaps, h'⟩ :=
      ih h₁ (fun op hop => hops op (List.mem_cons_of_mem _ hop))
    refine ⟨r :: rs, c', t', before', after', held', ?_, ?_, h'⟩
    · simp [runAll, hrun, hruns]
    · simp [Gap.runAll, hgap, hgaps]

theorem refused_unchanged (h : Stands t c before after held) {op : CursorOp K V} {x : Refusal}
    {c' : Cursor} {t' : Tree K V} (hrun : op.run t c = .ok (.refused x, c', t')) :
    c' = c ∧ t' = t := by
  by_cases hop : op = .text
  · subst hop
    simp [run] at hrun
  · obtain ⟨r, c₁, t₁, -, -, -, hrun₁, -, -, hunchanged, -⟩ := run_gap h op hop
    obtain ⟨rfl, rfl, rfl⟩ : .refused x = r ∧ c' = c₁ ∧ t' = t₁ := by
      simpa using hrun.symm.trans hrun₁
    exact hunchanged x rfl

theorem sweep_all (h : Stands t c before after held) {s : Side} {g : Gap K V}
    (hg : Gap.between before after held = g) (hfar : g.distance s.other = 0)
    (meant : Nat → K → Bool) :
    ∃ c' t', run t c (.sweep s meant) =
        .ok (.list ((s.along g.entries).map (fun e => .key e.1)), c', t') ∧
      t'.entries = .ok (s.along (kept meant (s.along g.entries) 0)) := by
  obtain ⟨r, c', t', before', after', held', hrun, hgap, h', -, -⟩ :=
    run_gap h (.sweep s meant) nofun
  -- Everything lies ahead of the gap.
  have hahead := Gap.eq_facing hfar
  have hdist : g.distance s = (s.along g.entries).length := by
    conv_lhs => rw [hahead]
    exact Gap.distance_facing
  obtain ⟨held'', hsweep⟩ := @Gap.sweep_facing K V s [] (s.along g.entries) g.held meant []
  rw [← hahead, ← hdist] at hsweep
  rw [hg] at hgap
  simp only [Gap.run, hsweep, List.reverse_nil, List.nil_append, List.append_nil, List.length_nil,
    List.map_map, Prod.mk.injEq] at hgap
  obtain ⟨rfl, hend⟩ := hgap
  refine ⟨c', t', hrun, ?_⟩
  have hentries := congrArg Gap.entries hend
  rw [Gap.entries_facing, Gap.entries_between, List.reverse_reverse, List.append_nil] at hentries
  rw [h'.keeps.entries, ← hentries]

end CursorOp

open CursorOp

variable [Written K] [Written V] [DecidableEq K] [DecidableEq V]

/-- A new cursor of a reachable tree is a gap in the tree's list of entries: at
the start, at the end or, under a lawful comparison that was used throughout,
after exactly the entries with lesser keys. Every list of operations on the
cursor answers and leaves what it does on the gap, and what is refused changes
nothing. So a sweep to one side from the other end passes every entry once and
leaves those that are not meant. -/
theorem reached_cursor_walks {C : (K → K → Ordering) → Prop} {s : Session K V} {l : Ledger}
    {number : Nat} {t : Tree K V} (h : Reaches C s l) (ht : s.tree number = .ok t)
    (cmp : K → K → Ordering) (p : CursorPlace K) :
    ∃ c g, p.cursor cmp t = .ok c ∧ t.entries = .ok g.entries ∧ g.held = none ∧
      ((p.compares = true → Governs C cmp) → g = p.gap cmp g.entries) ∧
      (∀ ops : List (CursorOp K V), (∀ op ∈ ops, op ≠ .text) →
        ∃ rs c' t', runAll t c ops = .ok (rs, c', t') ∧ (g.runAll ops).1 = rs ∧
          t'.entries = .ok (g.runAll ops).2.entries ∧
          ∀ (op : CursorOp K V) x c'' t'', op.run t' c' = .ok (.refused x, c'', t'') →
            c'' = c' ∧ t'' = t') ∧
      ∀ (side : Side) (meant : Nat → K → Bool), g.distance side.other = 0 →
        ∃ c' t', run t c (.sweep side meant) =
            .ok (.list ((side.along g.entries).map (fun e => .key e.1)), c', t') ∧
          t'.entries = .ok (side.along (kept meant (side.along g.entries) 0)) := by
  obtain ⟨items, hkept⟩ := h.sane.tree number t ht
  obtain ⟨c, before, after, hplace, hstands, rfl, hgap⟩ := Cursor.place_stands cmp hkept.keeps p
  refine ⟨c, Gap.between before after none, hplace, ?_, rfl, ?_, ?_, ?_⟩
  · rw [Gap.entries_between]
    exact hstands.keeps.entries
  · intro hlaw
    rw [Gap.entries_between]
    apply hgap
    intro hcompares
    have hgov := hlaw hcompares
    exact ⟨hgov.lawful, hkept.ascending cmp hgov⟩
  · intro ops hops
    obtain ⟨rs, c', t', before', after', held', hrun, hgaps, h'⟩ := runAll_gap hstands hops
    refine ⟨rs, c', t', hrun, by rw [hgaps], ?_, ?_⟩
    · rw [hgaps, Gap.entries_between]
      exact h'.keeps.entries
    · intro op x c'' t'' hop
      exact refused_unchanged h' hop
  · intro side meant hfar
    exact sweep_all hstands rfl hfar meant

/-- Three entries under the order of numbers. -/
def threeEntries : List ((Int → Int → Ordering) × Nat × Command Int Int) :=
  [(compare, 0, .edit (.insertAll [(2, 20), (3, 30), (1, 10)]))]

/-- A cursor placed before the second entry removes it and goes back. -/
theorem threeEntries_walk :
    ∃ (s : Session Int Int) (l : Ledger) (t t' : Tree Int Int) (c c' : Cursor)
      (rs : List (Reply Int Int)),
      Session.blank.follow .blank threeEntries = some (s, l) ∧ s.tree 0 = .ok t ∧
        (CursorPlace.before 2).cursor compare t = .ok c ∧
        runAll t c [.step .right, .remove, .step .left] = .ok (rs, c', t') ∧
        rs = [.entry (2, 20), .entry (2, 20), .entry (1, 10)] ∧
        t'.entries = .ok [(1, 10), (3, 30)] := by
  have hrun : Session.blank.follow .blank threeEntries = some _ := rfl
  have hreach := Reaches.follow (C := (· = compare)) .blank (by simp [threeEntries]) hrun
  obtain ⟨c, g, hc, hes, -, hgap, hops, -⟩ :=
    @reached_cursor_walks Int Int _ _ _ _ _ _ _ 0 _ hreach rfl compare (.before 2)
  have hentries : g.entries = [(1, 10), (2, 20), (3, 30)] := Except.ok.inj (hes.symm.trans rfl)
  have hg := hgap (fun _ => ⟨inferInstance, fun _ h => h⟩)
  rw [hentries] at hg
  obtain ⟨rs, c', t', hall, hrs, hes', -⟩ :=
    hops [.step .right, .remove, .step .left] (by simp)
  rw [hg] at hrs hes'
  exact ⟨_, _, _, t', c, c', rs, hrun, rfl, hc, hall, hrs.symm, hes'⟩

end SlotTree
