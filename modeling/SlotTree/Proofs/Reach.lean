import SlotTree.Proofs.Frame
import SlotTree.Proofs.Ledger
import SlotTree.Proofs.Placing

/-
  Reachable sessions — what holds after any run of commands.

  `Reaches C` is every session that commands lead to from one empty tree,
  together with the ledger of the run. Each command has a comparison of its
  own, any one in `C`. An operation through a window, at any depth, is also a
  command by itself. A cursor is used with the tree it was made for only, and
  while it missed fewer than 2^64 modifications of it; corrupting a tree on
  purpose is left out.

  `Sane` is the invariant: every tree is sound and its revision is the count of
  its modifications, and every cursor that missed none stands in a gap of its
  tree. Every command keeps it (`Sane.exec`), and every change that there is room
  for is carried out (`Sane.exec_ends`).
-/
namespace SlotTree

variable {K V : Type}

/-- A session with one empty tree. -/
def Session.blank : Session K V := ⟨#[Tree.empty], [], false⟩

/-- The sessions that commands lead to from an empty tree, each command with a
comparison in `C`, and the ledgers of these runs. -/
inductive Reaches [Written K] [Written V] [DecidableEq K] [DecidableEq V]
    (C : (K → K → Ordering) → Prop) : Session K V → Ledger → Prop where
  | blank : Reaches C .blank .blank
  | command {s : Session K V} {l : Ledger} {cmp : K → K → Ordering} {number : Nat}
    {command : Command K V} {o : Outcome K V} :
    Reaches C s l → C cmp → l.Permits number command → s.exec cmp number command = .ok o →
    Reaches C o.session (l.after cmp s number command)
  | view {s : Session K V} {l : Ledger} {cmp : K → K → Ordering} {number : Nat} {w : Window K}
    {op : WindowWrite K V} {t t' : Tree K V} {r : Reply K V} :
    Reaches C s l → C cmp → s.tree number = .ok t → op.run cmp t w = .ok (r, t') →
    Reaches C (s.setTree number t') (l.counted number (op.changes cmp t w))

/-- Carries out commands one after the other, each with its comparison, and
keeps the ledger; a command that is not permitted or stops the session ends
the run without a result. -/
def Session.follow [Written K] [Written V] [DecidableEq K] [DecidableEq V] (s : Session K V)
    (l : Ledger) : List ((K → K → Ordering) × Nat × Command K V) → Option (Session K V × Ledger)
  | [] => some (s, l)
  | (cmp, number, command) :: rest =>
    if l.Permits number command then
      match s.exec cmp number command with
      | .ok o => o.session.follow (l.after cmp s number command) rest
      | .error _ => none
    else none

theorem Reaches.follow [Written K] [Written V] [DecidableEq K] [DecidableEq V]
    {C : (K → K → Ordering) → Prop} {s s' : Session K V} {l l' : Ledger}
    {steps : List ((K → K → Ordering) × Nat × Command K V)} (h : Reaches C s l)
    (hC : ∀ step ∈ steps, C step.1) (hrun : s.follow l steps = some (s', l')) :
    Reaches C s' l' := by
  induction steps generalizing s l with
  | nil =>
    obtain ⟨rfl, rfl⟩ : s = s' ∧ l = l' := by simpa [Session.follow] using hrun
    exact h
  | cons step steps ih =>
    obtain ⟨cmp, number, command⟩ := step
    simp only [Session.follow] at hrun
    split at hrun
    · next hp =>
      split at hrun
      · next o ho =>
        have hcmp := hC _ (List.mem_cons_self ..)
        exact ih (.command h hcmp hp ho) (fun step hs => hC step (List.mem_cons_of_mem _ hs)) hrun
      · cases hrun
    · cases hrun

/-- Whether a command is a change, of trees or of cursors, that names none but
cursors there are. -/
def Command.Changes (s : Session K V) : Command K V → Prop
  | .edit _ | .openTree | .copyTree | .flip | .place _ _ => True
  | .copyCursor k _ | .cursor k _ => ∃ c, s.cursor k = .ok c
  | .query _ | .probe _ | .surgery _ | .same _ => False

/-- There is room for what a command stores or reserves. -/
def Command.Roomy [Written K] (cmp : K → K → Ordering) (t : Tree K V) : Command K V → Prop
  | .edit e => e.roomy cmp t = true
  | _ => True

/-! ## The invariant -/

/-- The comparison is lawful and the only one in use. -/
structure Governs (C : (K → K → Ordering) → Prop) (cmp : K → K → Ordering) : Prop where
  lawful : Std.TransCmp cmp
  alone : ∀ cmp', C cmp' → cmp' = cmp

/-- A tree that went through `now` modifications under comparisons in `C`. -/
structure Tree.Kept (C : (K → K → Ordering) → Prop) (t : Tree K V) (now : Nat)
    (items : List (Nat × K × V)) : Prop where
  keeps : t.Keeps items
  revision : t.revision = UInt64.ofNat now
  ascending : ∀ cmp, Governs C cmp → Ascending cmp (items.map (·.2))

/-- Every tree is sound and has its count for a revision, and every cursor saw
what it took note of. -/
structure Sane (C : (K → K → Ordering) → Prop) (s : Session K V) (l : Ledger) : Prop where
  tree : ∀ number t, s.tree number = .ok t → ∃ items, t.Kept C (l.count number) items
  cursor : ∀ k c, s.cursor k = .ok c →
    ∃ t, s.tree (l.owner k) = .ok t ∧ c.Saw t (l.count (l.owner k)) (l.mark k)

variable {C : (K → K → Ordering) → Prop} {s : Session K V} {l : Ledger} {cmp : K → K → Ordering}
  {number k now mark n : Nat} {t t' : Tree K V} {c : Cursor} {items items' : List (Nat × K × V)}

theorem Tree.Kept.evolves (h : t.Kept C now items) (hcmp : C cmp)
    (hev : Tree.Evolves cmp t items n t' items') : t'.Kept C (now + n) items' where
  keeps := hev.keeps
  revision := by rw [hev.revision, h.revision, UInt64.ofNat_add]
  ascending := by
    intro cmp' hgov
    obtain rfl := hgov.alone cmp hcmp
    have := hgov.lawful
    exact hev.ascending (h.ascending cmp hgov)

theorem Tree.Kept.copy (h : t.Kept C now items) : t.copy.Kept C 0 items :=
  ⟨h.keeps.congr rfl rfl rfl, rfl, h.ascending⟩

theorem kept_empty : (Tree.empty : Tree K V).Kept C 0 [] :=
  ⟨Tree.keeps_empty, rfl, fun _ _ => List.Pairwise.nil⟩

namespace Sane

theorem blank : Sane C (.blank : Session K V) .blank where
  tree := by
    intro number t ht
    obtain rfl : number = 0 := Nat.lt_one_iff.mp (Session.tree_lt ht)
    cases ht
    exact ⟨[], kept_empty⟩
  cursor := nofun

theorem setTree (h : Sane C s l) (ht : s.tree number = .ok t)
    (hkept : t.Kept C (l.count number) items) (hcmp : C cmp)
    (hev : Tree.Evolves cmp t items n t' items') :
    Sane C (s.setTree number t') (l.counted number n) where
  tree := by
    intro m t₁ ht₁
    by_cases hm : m = number
    · subst hm
      rw [Session.tree_setTree_self ht] at ht₁
      obtain rfl := Except.ok.inj ht₁
      rw [Ledger.count_counted_self]
      exact ⟨items', hkept.evolves hcmp hev⟩
    · rw [Session.tree_setTree_ne hm] at ht₁
      rw [Ledger.count_counted_ne hm]
      exact h.tree m t₁ ht₁
  cursor := by
    intro k c hc
    obtain ⟨t₁, ht₁, hsaw⟩ := h.cursor k c hc
    simp only [Ledger.owner_counted, Ledger.mark_counted]
    by_cases hm : l.owner k = number
    · -- The cursor belongs to the changed tree and has missed what the change counts.
      rw [hm] at ht₁ hsaw ⊢
      obtain rfl := Except.ok.inj (ht.symm.trans ht₁)
      rw [Ledger.count_counted_self]
      exact ⟨t', Session.tree_setTree_self ht, hsaw.evolves hkept.keeps hev⟩
    · rw [Ledger.count_counted_ne hm]
      exact ⟨t₁, (Session.tree_setTree_ne hm).trans ht₁, hsaw⟩

theorem addTree (h : Sane C s l) (hkept : t'.Kept C 0 items) :
    Sane C (s.addTree t') (l.opened s.trees.size) where
  tree := by
    intro m t₁ ht₁
    by_cases hm : m = s.trees.size
    · subst hm
      obtain rfl := Except.ok.inj (Session.tree_addTree_self.symm.trans ht₁)
      exact ⟨items, by simpa [Ledger.opened] using hkept⟩
    · have hcount : (l.opened s.trees.size).count m = l.count m := by simp [Ledger.opened, hm]
      rw [hcount]
      exact h.tree m t₁ (Session.tree_of_addTree hm ht₁)
  cursor := by
    intro k c hc
    obtain ⟨t₁, ht₁, hsaw⟩ := h.cursor k c hc
    -- A cursor's tree is one of those there were, so its count does not start anew.
    have hne : l.owner k ≠ s.trees.size := Nat.ne_of_lt (Session.tree_lt ht₁)
    have hcount : (l.opened s.trees.size).count (l.owner k) = l.count (l.owner k) := by
      simp [Ledger.opened, hne]
    refine ⟨t₁, Session.tree_addTree ht₁, ?_⟩
    change c.Saw t₁ ((l.opened s.trees.size).count (l.owner k)) (l.mark k)
    rwa [hcount]

theorem setCursor (h : Sane C s l) (ht : s.tree number = .ok t)
    (hsaw : c.Saw t (l.count number) mark) : Sane C (s.setCursor k c) (l.noted k number mark) where
  tree := fun m t₁ ht₁ => h.tree m t₁ ht₁
  cursor := by
    intro j d hd
    by_cases hj : j = k
    · subst hj
      rw [Session.cursor_setCursor_self] at hd
      obtain rfl := Except.ok.inj hd
      simp only [Ledger.owner_noted_self, Ledger.mark_noted_self, Ledger.count_noted]
      exact ⟨t, ht, hsaw⟩
    · rw [Session.cursor_setCursor_ne hj] at hd
      simp only [Ledger.owner_noted_ne hj, Ledger.mark_noted_ne hj, Ledger.count_noted]
      exact h.cursor j d hd

/-- A cursor saw part of its tree's modifications, so its operation is carried
out. -/
theorem carried (h : Sane C s l) (hc : s.cursor k = .ok c) (hnear : l.missed k < UInt64.size)
    (op : CursorOp K V) :
    ∃ t items r c' t' items', s.tree (l.owner k) = .ok t ∧ t.Kept C (l.count (l.owner k)) items ∧
      op.Carried t items (l.count (l.owner k)) c (l.mark k) r c' t' items' := by
  obtain ⟨t, ht, hsaw⟩ := h.cursor k c hc
  obtain ⟨items, hkept⟩ := h.tree _ t ht
  obtain ⟨r, c', t', items', hcarried⟩ :=
    CursorOp.run_saw hkept.keeps hkept.revision hsaw hnear op
  exact ⟨t, items, r, c', t', items', ht, hkept, hcarried⟩

variable [Written K] [Written V] [DecidableEq K]

/-- What the ledger notes of an operation on a cursor is what becomes of it. -/
theorem cursorOp (h : Sane C s l) (hcmp : C cmp) (hc : s.cursor k = .ok c)
    (hnear : l.missed k < UInt64.size) (op : CursorOp K V) (ht : s.tree (l.owner k) = .ok t)
    {r : Reply K V} {c' : Cursor} (hrun : op.run t c = .ok (r, c', t')) :
    Sane C ((s.setTree (l.owner k) t').setCursor k c')
      (l.after cmp s (l.owner k) (.cursor k op)) := by
  obtain ⟨t₁, items, r₁, c₁, t₂, items', ht₁, hkept, hcarried⟩ := h.carried hc hnear op
  obtain rfl := Except.ok.inj (ht.symm.trans ht₁)
  obtain ⟨rfl, rfl, rfl⟩ : r = r₁ ∧ c' = c₁ ∧ t' = t₂ := by
    simpa using hrun.symm.trans hcarried.run
  have hset := h.setTree ht hkept hcmp (hcarried.evolves cmp)
  have hsaw := hcarried.saw
  simp only [Ledger.after, ht, hc]
  cases hs : op.syncs t c with
  | true =>
    simp only [hs, if_true] at hsaw ⊢
    refine hset.setCursor (Session.tree_setTree_self ht) ?_
    simpa using hsaw
  | false =>
    simp only [hs, if_false, Bool.false_eq_true] at hsaw ⊢
    -- The cursor moves without a note, so its entries in the ledger stand.
    have hnote := @Ledger.noted_self (l.counted (l.owner k) (op.changes t c)) k
    simp only [Ledger.owner_counted, Ledger.mark_counted] at hnote
    rw [← hnote]
    refine hset.setCursor (Session.tree_setTree_self ht) ?_
    simpa using hsaw

variable [DecidableEq V]

theorem exec (h : Sane C s l) (hcmp : C cmp) {command : Command K V} {o : Outcome K V}
    (hp : l.Permits number command) (hrun : s.exec cmp number command = .ok o) :
    Sane C o.session (l.after cmp s number command) := by
  cases ht : s.tree number with
  | error stop => simp [Session.exec, ht] at hrun
  | ok t =>
  obtain ⟨items, hkept⟩ := h.tree number t ht
  simp only [Session.exec, ht, ok_bind] at hrun
  cases command with
  | query q =>
    cases hq : q.run cmp t <;> simp [Session.orStop, hq] at hrun
    subst hrun
    exact h
  | edit e =>
    obtain ⟨⟨r, t'⟩, he, hrun⟩ := bind_eq_ok.mp hrun
    obtain ⟨items', hev⟩ := (Edit.run_ends cmp hkept.keeps e).of_ok (Session.orStop_eq_ok.mp he)
    cases hrun
    simpa only [Ledger.after, ht] using h.setTree ht hkept hcmp hev
  | probe p =>
    cases hq : p.run cmp t <;> simp [Session.orStop, hq] at hrun
    subst hrun
    exact h
  | surgery op => exact hp.elim
  | openTree =>
    simp only [pure_ok, Except.ok.injEq] at hrun
    subst hrun
    exact h.addTree kept_empty
  | copyTree =>
    simp only [pure_ok, Except.ok.injEq] at hrun
    subst hrun
    exact h.addTree hkept.copy
  | same other =>
    cases ho : s.tree other with
    | error stop => simp [ho] at hrun
    | ok t₂ =>
      cases hq : t.same t₂ <;> simp [Session.orStop, ho, hq] at hrun
      subst hrun
      exact h
  | flip =>
    simp only [pure_ok, Except.ok.injEq] at hrun
    subst hrun
    exact ⟨h.tree, h.cursor⟩
  | place k p =>
    obtain ⟨c, before, after, hplace, hstands, -⟩ := Cursor.place_stands cmp hkept.keeps p
    simp only [hplace, Session.orStop, ok_bind, pure_ok, Except.ok.injEq] at hrun
    subst hrun
    exact h.setCursor ht (hstands.saw hkept.revision)
  | copyCursor source target =>
    cases hc : s.cursor source with
    | error stop => simp [hc] at hrun
    | ok c =>
      simp only [hc, ok_bind, pure_ok, Except.ok.injEq] at hrun
      subst hrun
      obtain ⟨t₁, ht₁, hsaw⟩ := h.cursor source c hc
      exact h.setCursor ht₁ hsaw
  | cursor k op =>
    obtain ⟨rfl, hnear⟩ := hp
    cases hc : s.cursor k with
    | error stop => simp [hc] at hrun
    | ok c =>
      obtain ⟨t₁, _, r, c', t', _, ht₁, -, hcarried⟩ := h.carried hc hnear op
      obtain rfl := Except.ok.inj (ht.symm.trans ht₁)
      simp only [hc, hcarried.run, Session.orStop, ok_bind, pure_ok, Except.ok.injEq] at hrun
      subst hrun
      exact h.cursorOp hcmp hc hnear op ht hcarried.run

/-- Every change is carried out, or the session stops for want of room. -/
theorem exec_ends (h : Sane C s l) (cmp : K → K → Ordering) {command : Command K V} (hp : l.Permits number command)
    (ht : s.tree number = .ok t) (hcommand : command.Changes s) :
    (∃ o, s.exec cmp number command = .ok o) ∨
      ∃ f, s.exec cmp number command = .error (.fault f) ∧ f.Scarce ∧ ¬ command.Roomy cmp t := by
  obtain ⟨items, hkept⟩ := h.tree number t ht
  simp only [Session.exec, ht, ok_bind]
  cases command with
  | query | probe | surgery | same => exact hcommand.elim
  | openTree | copyTree | flip => exact .inl ⟨_, rfl⟩
  | edit e =>
    have hends := Edit.run_ends cmp hkept.keeps e
    cases he : e.run cmp t with
    | ok done => exact .inl ⟨_, by simp only [he, Session.orStop, ok_bind]; rfl⟩
    | error f =>
      rw [he] at hends
      exact .inr ⟨f, by simp only [he, Session.orStop, error_bind], hends⟩
  | place k p =>
    obtain ⟨c, -, -, hplace, -⟩ := Cursor.place_stands cmp hkept.keeps p
    exact .inl ⟨_, by simp only [hplace, Session.orStop, ok_bind]; rfl⟩
  | copyCursor source target =>
    obtain ⟨c, hc⟩ := hcommand
    exact .inl ⟨_, by simp only [hc, ok_bind]; rfl⟩
  | cursor k op =>
    obtain ⟨rfl, hnear⟩ := hp
    obtain ⟨c, hc⟩ := hcommand
    obtain ⟨t₁, _, r, c', t', _, ht₁, -, hcarried⟩ := h.carried hc hnear op
    obtain rfl := Except.ok.inj (ht.symm.trans ht₁)
    exact .inl ⟨_, by simp only [hc, hcarried.run, Session.orStop, ok_bind]; rfl⟩

end Sane

theorem Reaches.sane [Written K] [Written V] [DecidableEq K] [DecidableEq V] (h : Reaches C s l) :
    Sane C s l := by
  induction h with
  | blank => exact .blank
  | command _ hcmp hp hrun ih => exact ih.exec hcmp hp hrun
  | @view s l cmp number w op t t' r _ hcmp ht hrun ih =>
    obtain ⟨items, hkept⟩ := ih.tree number t ht
    obtain ⟨items', hev⟩ := (WindowWrite.run_ends cmp hkept.keeps w op).of_ok hrun
    exact ih.setTree ht hkept hcmp hev

end SlotTree
