import SlotTree.Proofs.Reach

/-
  Staleness — a cursor notices exactly the modifications that it missed.

  The counts are those of the ledger: a bystander's count of the modifications
  of the cursor's tree, up to when the cursor last took note and up to now.
-/
namespace SlotTree

variable {K V : Type} [Written K] [Written V] [DecidableEq K] [DecidableEq V]

/-- After any run, an operation on a cursor that missed fewer than 2^64
modifications is refused exactly if something is objected to it: that the
cursor has no entry in hand to act on, that it missed a modification, or that
no entry is on that side. A refusal changes nothing, and a cursor that resets or
changes the tree itself has missed nothing then. -/
theorem reached_cursor_detects {C : (K → K → Ordering) → Prop} {s : Session K V} {l : Ledger}
    {k : Nat} {c : Cursor} (h : Reaches C s l) (hc : s.cursor k = .ok c)
    (hnear : l.missed k < UInt64.size) (cmp : K → K → Ordering) (op : CursorOp K V) :
    l.mark k ≤ l.count (l.owner k) ∧
      ∃ o, s.exec cmp (l.owner k) (.cursor k op) = .ok o ∧
        (∀ x, o.reply = .refused x ↔
          op.objection c (l.mark k) (l.count (l.owner k)) = some x) ∧
        (∀ x, o.reply = .refused x →
          (∀ n, o.session.tree n = s.tree n) ∧ ∀ j, o.session.cursor j = s.cursor j) ∧
        (op.settles = true → (∀ x, o.reply ≠ .refused x) →
          (l.after cmp s (l.owner k) (.cursor k op)).missed k = 0) := by
  have hsane := h.sane
  obtain ⟨t, items, r, c', t', items', ht, -, hcarried⟩ := hsane.carried hc hnear op
  have hle : l.mark k ≤ l.count (l.owner k) := by
    obtain ⟨_, -, hsaw⟩ := hsane.cursor k c hc
    exact hsaw.le
  refine ⟨hle, ⟨r, r.events, (s.setTree (l.owner k) t').setCursor k c'⟩, ?_, hcarried.refused,
    ?_, ?_⟩
  · simp [Session.exec, ht, hc, hcarried.run, Session.orStop]
  · intro x hx
    obtain ⟨rfl, rfl⟩ := hcarried.unchanged x hx
    exact Session.put_back ht hc
  · intro hs hr
    have hsyncs := hcarried.settled hs hr
    simp [Ledger.after, ht, hc, hsyncs, Ledger.missed]

/-- Two cursors, one a copy of the other, of which the first steps and sets a
value. -/
def sharedTree : List ((Int → Int → Ordering) × Nat × Command Int Int) :=
  [(compare, 0, .edit (.insertAll [(1, 10), (2, 20)])), (compare, 0, .place 0 .front),
    (compare, 0, .copyCursor 0 1), (compare, 0, .cursor 0 (.step .right)),
    (compare, 0, .cursor 0 (.setValue 11))]

theorem sharedTree_detects :
    ∃ (s : Session Int Int) (l : Ledger) (o : Outcome Int Int),
      Session.blank.follow .blank sharedTree = some (s, l) ∧
        s.exec compare 0 (.cursor 1 (.step .right)) = .ok o ∧
        o.reply = .refused (.concurrentModification 2 3) := by
  have hrun : Session.blank.follow .blank sharedTree = some _ := rfl
  have hreach := Reaches.follow (C := fun _ => True) .blank (fun _ _ => trivial) hrun
  obtain ⟨-, o, ho, hrefused, -⟩ :=
    reached_cursor_detects (k := 1) hreach rfl (by decide) compare (.step .right)
  exact ⟨_, _, o, hrun, ho, (hrefused _).mpr rfl⟩

end SlotTree
