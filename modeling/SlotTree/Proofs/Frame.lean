import SlotTree.Session
import SlotTree.Proofs.Slots

/-
  Frames — what a change of a session leaves alone.

  A tree is put under its number and a cursor under its own; all other numbers
  stand for what they stood for before.

  `Session.Changed` is what a command does to the trees of a session, and
  `Session.exec_changed` is where the commands are told apart: an invariant of
  the trees is a case for each way to change one.
-/
namespace SlotTree

variable {K V : Type}

namespace Session

variable {s : Session K V} {number m k : Nat} {t t' : Tree K V} {c : Cursor}

theorem orStop_eq_ok {α : Type} {x : Except Fault α} {a : α} : orStop x = .ok a ↔ x = .ok a := by
  cases x <;> simp [orStop]

theorem tree_eq_ok : s.tree number = .ok t ↔ s.trees[number]? = some t := by
  unfold tree
  cases s.trees[number]? <;> simp

theorem tree_lt (h : s.tree number = .ok t) : number < s.trees.size := by
  obtain ⟨hlt, -⟩ := Array.getElem?_eq_some_iff.mp (tree_eq_ok.mp h)
  exact hlt

theorem tree_setTree_self (h : s.tree number = .ok t) :
    (s.setTree number t').tree number = .ok t' := by
  rw [tree_eq_ok]
  simp [setTree, tree_lt h]

theorem tree_setTree_ne (h : m ≠ number) : (s.setTree number t').tree m = s.tree m := by
  simp [tree, setTree, Array.getElem?_setIfInBounds_ne h.symm]

@[simp] theorem cursor_setTree : (s.setTree number t').cursor k = s.cursor k := rfl

@[simp] theorem tree_setCursor : (s.setCursor k c).tree number = s.tree number := rfl

theorem cursor_setCursor_self : (s.setCursor k c).cursor k = .ok c := by
  simp [cursor, setCursor]

theorem cursor_setCursor_ne (h : m ≠ k) : (s.setCursor k c).cursor m = s.cursor m := by
  have hm : (m == k) = false := by simpa using h
  have hlookup : ∀ cursors : List (Nat × Cursor),
      (cursors.filter (fun p => p.1 != k)).lookup m = cursors.lookup m := by
    intro cursors
    induction cursors with
    | nil => rfl
    | cons p cursors ih =>
      obtain ⟨i, d⟩ := p
      by_cases hi : i = k
      · subst hi
        simp [ih, List.lookup_cons, hm]
      · simp [hi, List.lookup_cons, ih]
  simp [cursor, setCursor, List.lookup_cons, hm, hlookup]

theorem tree_addTree_self : (s.addTree t').tree s.trees.size = .ok t' := by
  rw [tree_eq_ok]
  simp [addTree]

theorem tree_addTree (h : s.tree number = .ok t) : (s.addTree t').tree number = .ok t := by
  have hne : number ≠ s.trees.size := Nat.ne_of_lt (tree_lt h)
  rw [tree_eq_ok] at h ⊢
  simpa [addTree, Array.getElem?_push, hne] using h

theorem tree_of_addTree (hne : number ≠ s.trees.size) (h : (s.addTree t').tree number = .ok t) :
    s.tree number = .ok t := by
  rw [tree_eq_ok] at h ⊢
  simpa [addTree, Array.getElem?_push, hne] using h

@[simp] theorem cursor_addTree : (s.addTree t').cursor k = s.cursor k := rfl

theorem put_back (ht : s.tree number = .ok t) (hc : s.cursor k = .ok c) :
    (∀ n, ((s.setTree number t).setCursor k c).tree n = s.tree n) ∧
      ∀ j, ((s.setTree number t).setCursor k c).cursor j = s.cursor j := by
  constructor
  · intro n
    rw [tree_setCursor]
    by_cases hn : n = number
    · rw [hn, tree_setTree_self ht, ht]
    · rw [tree_setTree_ne hn]
  · intro j
    by_cases hj : j = k
    · rw [hj, cursor_setCursor_self, hc]
    · rw [cursor_setCursor_ne hj, cursor_setTree]

end Session

/-! ## What a command does to the trees -/

/-- Whether a command is a question, or about cursors alone. -/
def Command.Reads : Command K V → Prop
  | .query _ | .probe _ | .same _ | .flip | .place _ _ | .copyCursor _ _ => True
  | .edit _ | .surgery _ | .openTree | .copyTree | .cursor _ _ => False

variable [Written K] [Written V] [DecidableEq K]

/-- What a command to the tree of a number does to the trees of a session. -/
inductive Session.Changed (cmp : K → K → Ordering) (s : Session K V) (number : Nat) :
    Command K V → Session K V → Prop where
  | reads {command : Command K V} {s' : Session K V} :
    command.Reads → (∀ m, s'.tree m = s.tree m) → Changed cmp s number command s'
  | edit {e : Edit K V} {t t' : Tree K V} {r : Reply K V} :
    s.tree number = .ok t → e.run cmp t = .ok (r, t') →
    Changed cmp s number (.edit e) (s.setTree number t')
  | surgery {op : Surgery K V} {s' : Session K V} : Changed cmp s number (.surgery op) s'
  | openTree {t : Tree K V} :
    s.tree number = .ok t → Changed cmp s number .openTree (s.addTree Tree.empty)
  | copyTree {t : Tree K V} :
    s.tree number = .ok t → Changed cmp s number .copyTree (s.addTree t.copy)
  | cursor {k : Nat} {op : CursorOp K V} {t t' : Tree K V} {c c' : Cursor} {r : Reply K V} :
    s.tree number = .ok t → s.cursor k = .ok c → op.run t c = .ok (r, c', t') →
    Changed cmp s number (.cursor k op) ((s.setTree number t').setCursor k c')

/-- Every command that does not stop a session changes its trees in one of these
ways. -/
theorem Session.exec_changed [DecidableEq V] {cmp : K → K → Ordering} {s : Session K V}
    {number : Nat} {command : Command K V} {o : Outcome K V}
    (hrun : s.exec cmp number command = .ok o) : s.Changed cmp number command o.session := by
  obtain ⟨t, ht, hrun⟩ := bind_eq_ok.mp hrun
  cases command with
  | query q =>
    obtain ⟨r, -, hrun⟩ := bind_eq_ok.mp hrun
    cases hrun
    exact .reads trivial (fun _ => rfl)
  | probe p =>
    obtain ⟨r, -, hrun⟩ := bind_eq_ok.mp hrun
    cases hrun
    exact .reads trivial (fun _ => rfl)
  | surgery op => exact .surgery
  | edit e =>
    obtain ⟨done, he, hrun⟩ := bind_eq_ok.mp hrun
    cases hrun
    exact .edit ht (orStop_eq_ok.mp he)
  | openTree =>
    cases hrun
    exact .openTree ht
  | copyTree =>
    cases hrun
    exact .copyTree ht
  | same other =>
    obtain ⟨t₂, -, hrun⟩ := bind_eq_ok.mp hrun
    obtain ⟨flag, -, hrun⟩ := bind_eq_ok.mp hrun
    cases hrun
    exact .reads trivial (fun _ => rfl)
  | flip =>
    cases hrun
    exact .reads trivial (fun _ => rfl)
  | place k p =>
    obtain ⟨c, -, hrun⟩ := bind_eq_ok.mp hrun
    cases hrun
    exact .reads trivial (fun _ => rfl)
  | copyCursor source target =>
    obtain ⟨c, -, hrun⟩ := bind_eq_ok.mp hrun
    cases hrun
    exact .reads trivial (fun _ => rfl)
  | cursor k op =>
    obtain ⟨c, hc, hrun⟩ := bind_eq_ok.mp hrun
    obtain ⟨done, hop, hrun⟩ := bind_eq_ok.mp hrun
    cases hrun
    exact .cursor ht hc (orStop_eq_ok.mp hop)

end SlotTree
