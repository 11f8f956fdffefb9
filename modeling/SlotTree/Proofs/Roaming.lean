import SlotTree.Proofs.Reach

/-
  Roaming cursors — runs in which a cursor is given to any tree.

  `Reaches` keeps a cursor with its own tree and counts what it misses. A run
  that does neither is still a run: a cursor may be given to another tree, or
  after so many modifications that the revision has come round, and what it has
  in hand may then be any slot, occupied or not. What such a cursor does to the
  tree is harmless all the same. A value is put into an occupied slot or
  nowhere, and a removal takes the node of an occupied slot or none, so the
  tree stays sound and its keys are some of those from before, in the same
  order (`CursorOp.run_keepsSome`).

  `Roams C` is every session that such runs lead to, and every tree of it is
  sound; under one lawful comparison its keys ascend (`Roams.keeps`).
-/
namespace SlotTree

variable {K V : Type}

/-- The tree is sound, and its keys are some of those of a list, in the same
order. -/
def Tree.KeepsSome (t : Tree K V) (items : List (Nat × K × V)) : Prop :=
  ∃ items', t.Keeps items' ∧ (items'.map (·.2.1)).Sublist (items.map (·.2.1))

variable {t t' : Tree K V} {items items' : List (Nat × K × V)} {c c' : Cursor} {i : Nat}

namespace Tree

theorem Keeps.keepsSome (h : t.Keeps items) : t.KeepsSome items := ⟨items, h, .refl _⟩

theorem KeepsSome.trans (h : t'.KeepsSome items')
    (hkeys : (items'.map (·.2.1)).Sublist (items.map (·.2.1))) : t'.KeepsSome items := by
  obtain ⟨rest, hk, hsub⟩ := h
  exact ⟨rest, hk, hsub.trans hkeys⟩

theorem Keeps.item_of_get? (h : t.Keeps items) {n : Node K V}
    (hn : t.slots.get? (some i) = some n) :
    ∃ before after, items = before ++ (i, n.entry) :: after := by
  have hkeep := h
  obtain ⟨-, sh, hsound, rfl⟩ := h
  have hocc : i ∈ sh.ids := (hsound.occupied i).mp (Slots.contains_iff.mpr ⟨n, hn⟩)
  obtain ⟨⟨j, e⟩, hm, rfl⟩ := List.mem_map.mp hocc
  obtain ⟨before, after, hitems⟩ := List.append_of_mem hm
  rw [hitems] at hkeep
  obtain ⟨n', hn', rfl⟩ := hkeep.get?
  obtain rfl := Option.some.inj (hn.symm.trans hn')
  exact ⟨before, after, hitems⟩

theorem eraseNode_keepsSome (h : t.Keeps items) {l : Link} {r : Removed K V}
    (hrun : t.eraseNode l = .ok (some r)) : r.tree.KeepsSome items := by
  cases l with
  | none => cases hrun
  | some i =>
    cases hn : t.slots.get? (some i) with
    | none => simp [eraseNode, hn] at hrun
    | some n =>
      obtain ⟨before, after, rfl⟩ := h.item_of_get? hn
      obtain ⟨r', after', hrun', -, -, hrev, hk, hshift⟩ := eraseNode_ok h
      obtain rfl : r = r' := by simpa using hrun.symm.trans hrun'
      exact ⟨before ++ after', hk, (Thinned.one hk hrev hshift).keys⟩

end Tree

/-! ## What a cursor does to any tree -/

theorem Cursor.setValue_keepsSome (h : t.Keeps items) {v old : V}
    (hrun : c.setValue t v = .ok (old, c', t')) : t'.KeepsSome items := by
  unfold Cursor.setValue at hrun
  obtain ⟨i, -, hrun⟩ := bind_eq_ok.mp hrun
  cases hn : t.slots.get? (some i) with
  | none => simp [hn] at hrun
  | some n =>
    obtain ⟨before, after, rfl⟩ := h.item_of_get? hn
    simp only [hn, pure_ok, Except.ok.injEq, Prod.mk.injEq] at hrun
    obtain ⟨-, -, rfl⟩ := hrun
    -- The slot is occupied, so one item has another value.
    refine ⟨before ++ (i, n.entry.1, v) :: after, (h.update (fun m hm => ?_)).touched, by simp⟩
    obtain rfl := Option.some.inj (hn.symm.trans hm)
    rfl

theorem Cursor.remove_keepsSome (h : t.Keeps items) {e : K × V}
    (hrun : c.remove t = .ok (.ok (e, c', t'))) : t'.KeepsSome items := by
  unfold Cursor.remove at hrun
  split at hrun
  · cases hrun
  · obtain ⟨previous, -, hrun⟩ := bind_eq_ok.mp hrun
    obtain ⟨erased, herase, hrun⟩ := bind_eq_ok.mp hrun
    cases erased with
    | none => cases hrun
    | some r =>
      cases hrun
      exact Tree.eraseNode_keepsSome h herase

namespace CursorOp

theorem runSweep_keepsSome {s : Side} {meant : Nat → K → Bool} {steps : Nat} {seen : List K}
    {o : Except Refusal (List K)} (h : t.Keeps items)
    (hrun : runSweep s meant steps t c seen = .ok (o, c', t')) : t'.KeepsSome items := by
  induction steps generalizing t items c seen with
  | zero => cases hrun
  | succ steps ih =>
    unfold runSweep at hrun
    split at hrun
    · cases hrun
      exact h.keepsSome
    · obtain ⟨taken, -, hrun⟩ := bind_eq_ok.mp hrun
      split at hrun
      · cases hrun
        exact h.keepsSome
      · split at hrun
        · obtain ⟨removed, hremove, hrun⟩ := bind_eq_ok.mp hrun
          split at hrun
          · cases hrun
            exact h.keepsSome
          · obtain ⟨items₂, hk₂, hsub⟩ := Cursor.remove_keepsSome h hremove
            exact (ih hk₂ hrun).trans hsub
        · exact ih h hrun

theorem run_keepsSome (h : t.Keeps items) {op : CursorOp K V} {r : Reply K V}
    (hrun : op.run t c = .ok (r, c', t')) : t'.KeepsSome items := by
  cases op with
  | hasEntry | key | value | text =>
    cases hrun
    exact h.keepsSome
  | step s =>
    obtain ⟨taken, -, hrun⟩ := bind_eq_ok.mp hrun
    cases taken <;> cases hrun <;> exact h.keepsSome
  | reset =>
    obtain ⟨front, -, hrun⟩ := bind_eq_ok.mp hrun
    cases hrun
    exact h.keepsSome
  | setValue v =>
    rw [run] at hrun
    split at hrun
    · cases hrun
      exact h.keepsSome
    · next hset =>
      cases hrun
      exact Cursor.setValue_keepsSome h hset
  | remove =>
    obtain ⟨removed, hremove, hrun⟩ := bind_eq_ok.mp hrun
    split at hrun
    · cases hrun
      exact h.keepsSome
    · cases hrun
      exact Cursor.remove_keepsSome h hremove
  | sweep s meant =>
    obtain ⟨swept, hsweep, hrun⟩ := bind_eq_ok.mp hrun
    cases hrun
    exact runSweep_keepsSome h hsweep

end CursorOp

/-! ## Runs -/

/-- Whether a command is one of the map's own; corrupting a tree on purpose is
not. -/
def Command.IsPublic : Command K V → Prop
  | .surgery _ => False
  | _ => True

/-- The sessions that commands lead to from an empty tree, each command with a
comparison in `C`, whatever tree a cursor is given to. -/
inductive Roams [Written K] [Written V] [DecidableEq K] [DecidableEq V]
    (C : (K → K → Ordering) → Prop) : Session K V → Prop where
  | blank : Roams C .blank
  | command {s : Session K V} {cmp : K → K → Ordering} {number : Nat} {command : Command K V}
    {o : Outcome K V} :
    Roams C s → C cmp → command.IsPublic → s.exec cmp number command = .ok o →
    Roams C o.session
  | view {s : Session K V} {cmp : K → K → Ordering} {number : Nat} {w : Window K}
    {op : WindowWrite K V} {t t' : Tree K V} {r : Reply K V} :
    Roams C s → C cmp → s.tree number = .ok t → op.run cmp t w = .ok (r, t') →
    Roams C (s.setTree number t')

/-- A tree that keeps a list whose keys ascend under the comparison in use, if
there is one and it is lawful. -/
def Tree.Orderly (C : (K → K → Ordering) → Prop) (t : Tree K V) : Prop :=
  ∃ items, t.Keeps items ∧ ∀ cmp, Governs C cmp → Ascending cmp (items.map (·.2))

variable {C : (K → K → Ordering) → Prop} {cmp : K → K → Ordering} {n number m : Nat}
  {s : Session K V}

namespace Tree

theorem orderly_empty : (empty : Tree K V).Orderly C :=
  ⟨[], keeps_empty, fun _ _ => List.Pairwise.nil⟩

theorem Orderly.copy (h : t.Orderly C) : t.copy.Orderly C := by
  obtain ⟨items, hk, hasc⟩ := h
  exact ⟨items, hk.congr rfl rfl rfl, hasc⟩

theorem Evolves.orderly (hev : Evolves cmp t items n t' items') (hcmp : C cmp)
    (hasc : ∀ cmp, Governs C cmp → Ascending cmp (items.map (·.2))) : t'.Orderly C := by
  refine ⟨items', hev.keeps, ?_⟩
  intro cmp' hgov
  obtain rfl := hgov.alone cmp hcmp
  have := hgov.lawful
  exact hev.ascending (hasc cmp hgov)

theorem KeepsSome.orderly (h : t'.KeepsSome items)
    (hasc : ∀ cmp, Governs C cmp → Ascending cmp (items.map (·.2))) : t'.Orderly C := by
  obtain ⟨items', hk, hsub⟩ := h
  refine ⟨items', hk, ?_⟩
  intro cmp hgov
  refine (hasc cmp hgov).keys ?_
  simpa [List.map_map, Function.comp_def] using hsub

end Tree

theorem Session.orderly_setTree (h : ∀ m t, s.tree m = .ok t → t.Orderly C)
    (ht : s.tree number = .ok t) (ht' : t'.Orderly C) {t₁ : Tree K V}
    (ht₁ : (s.setTree number t').tree m = .ok t₁) : t₁.Orderly C := by
  by_cases hm : m = number
  · subst hm
    rw [Session.tree_setTree_self ht] at ht₁
    obtain rfl := Except.ok.inj ht₁
    exact ht'
  · rw [Session.tree_setTree_ne hm] at ht₁
    exact h m t₁ ht₁

theorem Session.orderly_addTree (h : ∀ m t, s.tree m = .ok t → t.Orderly C)
    (ht' : t'.Orderly C) {t₁ : Tree K V} (ht₁ : (s.addTree t').tree m = .ok t₁) :
    t₁.Orderly C := by
  by_cases hm : m = s.trees.size
  · subst hm
    obtain rfl := Except.ok.inj (Session.tree_addTree_self.symm.trans ht₁)
    exact ht'
  · exact h m t₁ (Session.tree_of_addTree hm ht₁)

variable [Written K] [Written V] [DecidableEq K] [DecidableEq V]

theorem Session.exec_orderly (h : ∀ m t, s.tree m = .ok t → t.Orderly C) (hcmp : C cmp)
    {command : Command K V} {o : Outcome K V} (hp : command.IsPublic)
    (hrun : s.exec cmp number command = .ok o) :
    ∀ m t, o.session.tree m = .ok t → t.Orderly C := by
  have hchanged := Session.exec_changed hrun
  generalize o.session = s' at hchanged ⊢
  cases hchanged with
  | reads _ hsame =>
    intro m t ht
    rw [hsame] at ht
    exact h m t ht
  | surgery => exact hp.elim
  | edit ht he =>
    obtain ⟨items, hk, hasc⟩ := h number _ ht
    obtain ⟨items', hev⟩ := (Edit.run_ends cmp hk _).of_ok he
    exact fun m t => Session.orderly_setTree h ht (hev.orderly hcmp hasc)
  | openTree => exact fun m t => Session.orderly_addTree h Tree.orderly_empty
  | copyTree ht => exact fun m t => Session.orderly_addTree h (h number _ ht).copy
  | cursor ht _ hop =>
    obtain ⟨items, hk, hasc⟩ := h number _ ht
    have ht' := (CursorOp.run_keepsSome hk hop).orderly hasc
    exact fun m t => Session.orderly_setTree h ht ht'

/-- Every tree of a session that a run leads to is sound, and its keys ascend
under the comparison in use, if it is lawful. -/
theorem Roams.keeps (h : Roams C s) : ∀ number t, s.tree number = .ok t → t.Orderly C := by
  induction h with
  | blank =>
    intro number t ht
    obtain rfl : number = 0 := Nat.lt_one_iff.mp (Session.tree_lt ht)
    cases ht
    exact Tree.orderly_empty
  | command _ hcmp hp hrun ih => exact Session.exec_orderly ih hcmp hp hrun
  | @view s cmp number w op t t' r _ hcmp ht hrun ih =>
    obtain ⟨items, hk, hasc⟩ := ih number t ht
    obtain ⟨items', hev⟩ := (WindowWrite.run_ends cmp hk w op).of_ok hrun
    exact fun m t₂ => Session.orderly_setTree ih ht (hev.orderly hcmp hasc)

theorem Reaches.roams {l : Ledger} (h : Reaches C s l) : Roams C s := by
  induction h with
  | blank => exact .blank
  | @command s l cmp number command o _ hcmp hp hrun ih =>
    refine .command ih hcmp ?_ hrun
    cases command <;> first | exact hp | trivial
  | view _ hcmp ht hrun ih => exact .view ih hcmp ht hrun

end SlotTree
