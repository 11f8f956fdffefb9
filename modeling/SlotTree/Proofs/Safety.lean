import SlotTree.Proofs.Audit
import SlotTree.Proofs.Intact
import SlotTree.Proofs.Reach

/-
  Safety — no run of commands damages a tree.

  Nor does one break off, as long as there is room for what it stores and
  reserves. Nothing is asked of the comparisons: each command may come with
  another one, and none needs to obey any law. What depends on the comparison is
  where keys are put, and that is the one thing an audit can then object to.
-/
namespace SlotTree

variable {K V : Type}

theorem Tree.Sound.validate {t : Tree K V} {sh : Shape K V} (h : t.Sound sh)
    (cmp : K → K → Ordering) :
    t.validate cmp = .ok (.ok ()) ∨
      ∃ i, t.validate cmp = .ok (.error (.corrupted (.misplacedKey i))) := by
  rcases audit_ok cmp h with ⟨-, hrun⟩ | ⟨-, i, hrun⟩
  · exact .inl (by simp [Tree.validate, hrun])
  · exact .inr ⟨i, by simp [Tree.validate, hrun]⟩

variable [Written K] [Written V] [DecidableEq K] [DecidableEq V]

/-- After any run, under any comparisons, every tree is a red-black tree of its
occupied slots, an audit finds at most a key in the wrong place, and every
change that is then asked for is carried out, if there is room for it. -/
theorem reached_trees_intact {C : (K → K → Ordering) → Prop} {s : Session K V} {l : Ledger}
    (h : Reaches C s l) :
    (∀ number t, s.tree number = .ok t →
      t.Intact ∧
        ∀ cmp, t.validate cmp = .ok (.ok ()) ∨
          ∃ i, t.validate cmp = .ok (.error (.corrupted (.misplacedKey i)))) ∧
      (∀ cmp number t command, s.tree number = .ok t → l.Permits number command →
        command.Changes s → command.Roomy cmp t →
          ∃ o, s.exec cmp number command = .ok o) ∧
      ∀ cmp number t, s.tree number = .ok t → ∀ (w : Window K) (op : WindowWrite K V),
        op.roomy cmp t w = true → ∃ r t', op.run cmp t w = .ok (r, t') := by
  have hsane := h.sane
  refine ⟨?_, ?_, ?_⟩
  · intro number t ht
    obtain ⟨items, ⟨-, sh, hsound, -⟩, -, -⟩ := hsane.tree number t ht
    exact ⟨hsound.intact, hsound.validate⟩
  · intro cmp number t command ht hp hcommand hroom
    rcases hsane.exec_ends cmp hp ht hcommand with hdone | ⟨f, -, -, hscarce⟩
    · exact hdone
    · exact absurd hroom hscarce
  · intro cmp number t ht w op hroom
    obtain ⟨items, hkept⟩ := hsane.tree number t ht
    obtain ⟨r, hrun, -⟩ := (WindowWrite.run_ends cmp hkept.keeps w op).total hroom
    exact ⟨r.1, r.2, hrun⟩

/-- Three entries of which a cursor removes the first, under comparisons that
call every key less or every key greater. -/
def lawlessRemoval : List ((Int → Int → Ordering) × Nat × Command Int Int) :=
  [(fun _ _ => .lt, 0, .edit (.insertAll [(1, 10), (2, 20), (3, 30)])),
    (fun _ _ => .gt, 0, .place 0 .front), (fun _ _ => .lt, 0, .cursor 0 (.step .right)),
    (fun _ _ => .gt, 0, .cursor 0 .remove)]

theorem lawlessRemoval_intact :
    ∃ (s : Session Int Int) (l : Ledger) (t : Tree Int Int),
      Session.blank.follow .blank lawlessRemoval = some (s, l) ∧ s.tree 0 = .ok t ∧ t.size = 2 ∧
        t.Intact := by
  have hrun : Session.blank.follow .blank lawlessRemoval = some _ := rfl
  have hreach := Reaches.follow (C := fun _ => True) .blank (fun _ _ => trivial) hrun
  exact ⟨_, _, _, hrun, rfl, rfl, ((reached_trees_intact hreach).1 0 _ rfl).1⟩

end SlotTree
