import SlotTree.Proofs.Reach

/-
  Noticing — which changes of content move the revision on.

  An operation that counts no modification leaves all entries as they were
  (`Edit.quiet`, `WindowWrite.quiet`, `CursorOp.quiet`), but for a visit of all
  entries that keeps every one and puts other values in. So every other change
  of content is counted, and is seen in the revision and by every cursor of the
  tree that did not make it.
-/
namespace SlotTree

variable {K V : Type}

/-- The tree `t'` has the entries that `t` has. -/
def Tree.Alike (t t' : Tree K V) : Prop := t'.entries = t.entries

namespace Tree

variable {t t' : Tree K V} {items items' : List (Nat × K × V)} (cmp : K → K → Ordering)

theorem Dropped.alike (h : t.Keeps items) (hd : Dropped t items t' items')
    (hsize : t.size ≤ t'.size) : t.Alike t' := by
  rw [Alike, hd.keeps.entries, h.entries, hd.eq_of_size h hsize]

theorem alike_of_gone {α : Type} {a : α} (h : t.Keeps items) {run : Except Fault (α × Tree K V)}
    (hdrop : ∃ a t' items', run = .ok (a, t') ∧ Dropped t items t' items') (hrun : run = .ok (a, t'))
    (h0 : t.gone run = 0) : t.Alike t' := by
  obtain ⟨a₁, t₁, items', rfl, hd⟩ := hdrop
  obtain ⟨rfl, rfl⟩ := Prod.mk.inj (Except.ok.inj hrun)
  apply hd.alike h
  simp only [gone] at h0
  omega

theorem modify_quiet (h : t.Keeps items) {key : K} {f : V → V} {old : Option V}
    (hrun : t.modify cmp key f = .ok (old, t')) (h0 : t.hasKey cmp key = false) : t.Alike t' := by
  obtain ⟨r, hrun', hr⟩ := modify_ok cmp h key f
  rw [hasKey_eq h hrun'] at h0
  obtain rfl := Except.ok.inj (hrun.symm.trans hrun')
  cases hr with
  | present => cases h0
  | absent => rfl

end Tree

open SlotTree.Tree

/-! ## Edits -/

namespace WindowWrite

variable [Written K] (cmp : K → K → Ordering)

mutual

theorem quiet {t : Tree K V} {items : List (Nat × K × V)} (h : t.Keeps items) (w : Window K) :
    ∀ (op : WindowWrite K V) {r t'}, run cmp t w op = .ok (r, t') → changes cmp t w op = 0 →
      t.Alike t'
  | read op, r, t', hrun, _ => by
    obtain ⟨answer, -, hrun⟩ := bind_eq_ok.mp hrun
    cases hrun
    rfl
  | asReadOnly ops, r, t', hrun, _ => by
    obtain ⟨answers, -, hrun⟩ := bind_eq_ok.mp hrun
    cases hrun
    rfl
  | insert key value, r, t', hrun, h0 => by
    -- Only a refused insertion is not counted.
    have hkey : w.admits cmp key = false := by simpa [changes] using h0
    cases hrun.symm.trans ((run_barred hkey).1 value)
    rfl
  | modify key value, r, t', hrun, h0 => by
    cases hkey : w.admits cmp key with
    | true =>
      rw [(run_admitted hkey).2.2 value] at hrun
      obtain ⟨done, hmodify, hrun⟩ := bind_eq_ok.mp hrun
      cases hrun
      exact modify_quiet cmp h hmodify (by simpa [changes, hkey] using h0)
    | false =>
      cases hrun.symm.trans ((run_barred hkey).2.2 value)
      rfl
  | remove key, r, t', hrun, h0 => by
    refine alike_of_gone h ?_ hrun h0
    cases hkey : w.admits cmp key with
    | true =>
      obtain ⟨old, t', items', hrun, hdrop⟩ := remove_dropped cmp h key
      rw [(run_admitted hkey).2.1]
      exact ⟨_, t', items', by simp only [Edit.run, hrun, ok_bind, pure_ok]; rfl, hdrop⟩
    | false => exact ⟨_, t, items, (run_barred hkey).2.1, .refl h⟩
  | pop s, r, t', hrun, h0 => by
    obtain ⟨e, t₁, items', hpop, hdrop⟩ := Window.pop_dropped cmp w h s
    have hrun₁ : run cmp t w (.pop s) = .ok (.option .entry e, t₁) := by
      simp only [run, hpop, ok_bind, pure_ok]
    exact alike_of_gone h ⟨_, t₁, items', hrun₁, hdrop⟩ hrun h0
  | clear, r, t', hrun, h0 => by
    obtain ⟨t₁, items', hclear, hdrop⟩ := Window.clear_dropped cmp w h
    have hrun₁ : run cmp t w .clear = .ok (.nothing, t₁) := by
      simp only [run, hclear, ok_bind, pure_ok]
    exact alike_of_gone h ⟨_, t₁, items', hrun₁, hdrop⟩ hrun h0
  | narrow bounds ops, r, t', hrun, h0 => by
    simp only [run, changes] at hrun h0
    cases hw : w.narrow cmp bounds with
    | error refusal =>
      simp only [hw] at hrun
      cases hrun
      rfl
    | ok inner =>
      simp only [hw] at hrun h0
      obtain ⟨done, hall, hrun⟩ := bind_eq_ok.mp hrun
      cases hrun
      exact quietAll h inner ops hall h0

theorem quietAll {t : Tree K V} {items : List (Nat × K × V)} (h : t.Keeps items) (w : Window K) :
    ∀ (ops : List (WindowWrite K V)) {rs t'}, runAll cmp t w ops = .ok (rs, t') →
      changesAll cmp t w ops = 0 → t.Alike t'
  | [], rs, t', hrun, _ => by
    cases hrun
    rfl
  | op :: ops, rs, t', hrun, h0 => by
    obtain ⟨done, hop, hrun⟩ := bind_eq_ok.mp hrun
    obtain ⟨rest, hall, hrun⟩ := bind_eq_ok.mp hrun
    cases hrun
    obtain ⟨items₁, hev⟩ := (run_ends cmp h w op).of_ok hop
    simp only [changesAll, hop, Nat.add_eq_zero_iff] at h0
    exact (quietAll hev.keeps w ops hall h0.2).trans (quiet h w op hop h0.1)

end

end WindowWrite

namespace Edit

variable [Written K] [Written V] [DecidableEq K] (cmp : K → K → Ordering) {t t' : Tree K V}
  {items : List (Nat × K × V)}

/-- An edit that counts no modification changes no entry, unless it is a visit
that removes nothing. -/
theorem quiet (h : t.Keeps items) (e : Edit K V) {r : Reply K V} (hrun : e.run cmp t = .ok (r, t'))
    (h0 : e.changes cmp t = 0) (hvisit : ∀ visit, e = .retain visit → t'.size ≠ t.size) :
    t.Alike t' := by
  cases e with
  | insert | clear => cases h0
  | reserve n width =>
    obtain ⟨done, hreserve, hrun⟩ := bind_eq_ok.mp hrun
    cases hrun
    obtain rfl := (reserve_ends t n width).of_ok hreserve
    rfl
  | insertAll entries | insertCounting entries =>
    obtain rfl := List.eq_nil_of_length_eq_zero h0
    cases hrun
    rfl
  | modify key value =>
    obtain ⟨done, hmodify, hrun⟩ := bind_eq_ok.mp hrun
    cases hrun
    exact modify_quiet cmp h hmodify (by simpa [changes] using h0)
  | remove key =>
    obtain ⟨old, t₁, items', hremove, hdrop⟩ := remove_dropped cmp h key
    exact alike_of_gone h
      ⟨_, t₁, items', by simp only [run, hremove, ok_bind, pure_ok]; rfl, hdrop⟩ hrun h0
  | removeEntry key =>
    obtain ⟨done, hremove, htaken, -⟩ := removeEntry_ok cmp h key
    obtain ⟨items', hdrop⟩ := htaken.dropped h
    exact alike_of_gone h
      ⟨_, done.2, items', by simp only [run, hremove, ok_bind, pure_ok]; rfl, hdrop⟩ hrun h0
  | removeCounting keys =>
    obtain ⟨n, t₁, items', hremovals, hdrop⟩ := runRemovals_dropped cmp h keys
    exact alike_of_gone h
      ⟨_, t₁, items', by simp only [run, hremovals, ok_bind, pure_ok]; rfl, hdrop⟩ hrun h0
  | pop s =>
    obtain ⟨done, hpop, htaken, -⟩ := pop_ok h s
    obtain ⟨items', hdrop⟩ := htaken.dropped h
    exact alike_of_gone h
      ⟨_, done.2, items', by simp only [run, hpop, ok_bind, pure_ok]; rfl, hdrop⟩ hrun h0
  | retain visit =>
    obtain ⟨t₁, kept, hretain, -, hthin⟩ := retain_ok (listing visit) [] h
    have ht' : t' = t₁ := by
      simp only [run, hretain, ok_bind, pure_ok, Except.ok.injEq, Prod.mk.injEq] at hrun
      exact hrun.2.symm
    -- With no entry gone the size would be the same.
    have hle : t'.size ≤ t.size := by
      rw [ht', hthin.keeps.size, h.size]
      exact hthin.length_le
    simp only [changes, hrun, gone] at h0
    exact absurd (by omega) (hvisit visit rfl)
  | window bounds ops =>
    simp only [run, changes] at hrun h0
    cases hw : Window.ofBounds cmp bounds with
    | error refusal =>
      simp only [hw] at hrun
      cases hrun
      rfl
    | ok w =>
      simp only [hw] at hrun h0
      obtain ⟨done, hall, hrun⟩ := bind_eq_ok.mp hrun
      cases hrun
      exact WindowWrite.quietAll cmp h w ops hall h0

end Edit

/-! ## Operations on cursors -/

namespace Gap

variable {g g' : Gap K V} {s : Side} {e : K × V}

theorem entries_step (h : g.step s = some (e, g')) : g'.entries = g.entries := by
  cases s with
  | right =>
    cases hafter : g.after with
    | nil => simp [step, hafter] at h
    | cons x after =>
      simp only [step, hafter, Option.some.injEq, Prod.mk.injEq] at h
      rw [← h.2]
      simp [entries, hafter]
  | left =>
    rcases List.eq_nil_or_concat g.before with hbefore | ⟨before, x, hbefore⟩
    · simp [step, hbefore] at h
    · rw [List.concat_eq_append] at hbefore
      simp only [step, hbefore, List.getLast?_concat, List.dropLast_concat, Option.some.injEq,
        Prod.mk.injEq] at h
      rw [← h.2]
      simp [entries, hbefore]

theorem entries_remove (g : Gap K V) : g.remove.entries.Sublist g.entries := by
  unfold remove
  split
  · exact (List.dropLast_sublist _).append_right _
  · exact (List.tail_sublist _).append_left _
  · exact .refl _

theorem entries_sweep (s : Side) (meant : Nat → K → Bool) (n : Nat) (g : Gap K V) (seen : List K) :
    (g.sweep s meant n seen).2.entries.Sublist g.entries := by
  induction n generalizing g seen with
  | zero => exact .refl _
  | succ n ih =>
    cases hstep : g.step s with
    | none => simp [sweep, hstep]
    | some x =>
      obtain ⟨e, g₁⟩ := x
      simp only [sweep, hstep]
      have hsame := entries_step hstep
      rw [← hsame]
      split
      · exact (ih _ _).trans (entries_remove g₁)
      · exact ih _ _

end Gap

namespace CursorOp

open Cursor

variable {t : Tree K V} {c : Cursor} {before after items : List (Nat × K × V)} {held : Option Side}
  {seen now : Nat}

theorem entries_run_sublist (g : Gap K V) {op : CursorOp K V} (hop : ∀ v, op ≠ .setValue v) :
    (g.run op).2.entries.Sublist g.entries := by
  have onHeld : ∀ (action : HeldAction) (f : K × V → Reply K V × Gap K V),
      (∀ e, (f e).2.entries.Sublist g.entries) →
      (g.withHeld action f).2.entries.Sublist g.entries := by
    intro action f hf
    unfold Gap.withHeld
    split
    · exact .refl _
    · exact hf _
  cases op with
  | hasEntry | text => exact .refl _
  | reset => simp [Gap.run, Gap.entries]
  | setValue v => exact absurd rfl (hop v)
  | key | value => exact onHeld _ _ (fun _ => .refl _)
  | remove => exact onHeld _ _ (fun _ => g.entries_remove)
  | sweep s meant => exact g.entries_sweep s meant _ _
  | step s =>
    simp only [Gap.run]
    cases hstep : g.step s with
    | none => exact .refl _
    | some x => exact (List.Sublist.refl _).trans (by rw [Gap.entries_step hstep])

theorem quiet (hk : t.Keeps items) (hrev : t.revision = .ofNat now) (h : c.Saw t now seen)
    (hnear : now - seen < UInt64.size) (op : CursorOp K V) :
    ∃ r c' t', op.run t c = .ok (r, c', t') ∧ (op.changes t c = 0 → t.Alike t') := by
  by_cases hset : ∃ v, op = .setValue v
  · obtain ⟨v, rfl⟩ := hset
    cases hrun : c.setValue t v with
    | error x => exact ⟨.refused x, c, t, by simp [run, hrun], fun _ => rfl⟩
    | ok done => exact ⟨_, _, _, by simp only [run, hrun]; rfl, by simp [changes, run, hrun]⟩
  rcases Nat.lt_or_eq_of_le h.le with hlt | rfl
  · by_cases hop : op = .reset
    · subst hop
      obtain ⟨c', hfront, -⟩ := front_stands hk
      exact ⟨.nothing, c', t, by simp [run, hfront], fun _ => rfl⟩
    · obtain ⟨r, hrun, -, -⟩ := run_lagging h.expected hrev hlt hnear op hop
      exact ⟨r, c, t, hrun, fun _ => rfl⟩
  obtain ⟨before, after, held, hstands⟩ := h.stands rfl
  by_cases hop : op = .text
  · subst hop
    exact ⟨.text c.text, c, t, rfl, fun _ => rfl⟩
  obtain ⟨r, c', t', before', after', held', hrun, hgap, hstands', -, hev⟩ :=
    run_gap hstands op hop
  refine ⟨r, c', t', hrun, ?_⟩
  intro h0
  -- The items keep their slots, so none is gone, and what is left is a part of what was there.
  have hids := (hev fun _ _ => .eq).still h0
  have hlen : (before' ++ after').length = (before ++ after).length := by
    simpa using congrArg List.length hids
  have hpart := entries_run_sublist (Gap.between before after held) (fun v hv => hset ⟨v, hv⟩)
  rw [hgap, Gap.entries_between, Gap.entries_between] at hpart
  have hsame := hpart.eq_of_length (by simpa using hlen)
  rw [Alike, hstands'.keeps.entries, hstands.keeps.entries, hsame]

end CursorOp

/-! ## Sessions -/

variable [Written K] [Written V] [DecidableEq K]
  {C : (K → K → Ordering) → Prop} {s : Session K V} {l : Ledger} {number k : Nat}
  {t t' : Tree K V} {c : Cursor} {cmp : K → K → Ordering}

/-- What the ledger notes of an operation on a cursor: its modifications, and
nothing of other cursors. -/
theorem Ledger.after_cursor {op : CursorOp K V} (ht : s.tree number = .ok t)
    (hc : s.cursor k = .ok c) :
    (l.after cmp s number (.cursor k op)).count number = l.count number + op.changes t c ∧
      ∀ j, j ≠ k → (l.after cmp s number (.cursor k op)).owner j = l.owner j ∧
        (l.after cmp s number (.cursor k op)).mark j = l.mark j := by
  simp only [after, ht, hc]
  split
  · exact ⟨by simp, fun j hj => ⟨owner_noted_ne hj, mark_noted_ne hj⟩⟩
  · exact ⟨by simp, fun j _ => ⟨rfl, rfl⟩⟩

variable [DecidableEq V]

/-- The next step of a cursor of the tree, to either side, is refused because
the tree has changed. -/
def Session.Alerts (s : Session K V) (number k : Nat) : Prop :=
  ∀ (cmp : K → K → Ordering) (side : Side), ∃ o expected actual,
    s.exec cmp number (.cursor k (.step side)) = .ok o ∧
      o.reply = .refused (.concurrentModification expected actual)

/-- Whether a command places a cursor or moves it. -/
def Command.Moves (k : Nat) : Command K V → Prop
  | .place j _ | .copyCursor _ j | .cursor j _ => j = k
  | .query _ | .edit _ | .probe _ | .surgery _ | .openTree | .copyTree | .same _ | .flip => False

theorem Sane.alerts (h : Sane C s l) (hc : s.cursor k = .ok c) (hmissed : 0 < l.missed k)
    (hnear : l.missed k < UInt64.size) : s.Alerts (l.owner k) k := by
  intro cmp side
  obtain ⟨t, items, r, c', t', items', ht, -, hcarried⟩ := h.carried hc hnear (.step side)
  have hlt : l.mark k < l.count (l.owner k) := by
    simp only [Ledger.missed] at hmissed
    omega
  have hr := (hcarried.refused _).mpr (by simp only [CursorOp.objection, Cursor.lag, hlt]; rfl)
  refine ⟨⟨r, r.events, (s.setTree (l.owner k) t').setCursor k c'⟩, _, _, ?_, hr⟩
  simp [Session.exec, ht, hc, hcarried.run, Session.orStop]

/-- The change of a tree between two sessions shows: in its revision, as long as
that has not come round to the same number, and to every cursor of the tree but
those that were moved. -/
structure Session.Notices (s : Session K V) (l : Ledger) (number : Nat) (moved : Nat → Prop)
    (s' : Session K V) (l' : Ledger) : Prop where
  revision : l'.count number - l.count number < UInt64.size →
    ∀ t t', s.tree number = .ok t → s'.tree number = .ok t' → t'.revision ≠ t.revision
  cursor : ∀ k c, s.cursor k = .ok c → l.owner k = number → ¬ moved k →
    l'.missed k < UInt64.size → s'.Alerts number k

theorem Sane.notices {s' : Session K V} {l' : Ledger} {n : Nat} {moved : Nat → Prop}
    (h : Sane C s l) (h' : Sane C s' l') (hcount : l'.count number = l.count number + n)
    (hn : n ≠ 0) (hcursor : ∀ k, ¬ moved k →
      s'.cursor k = s.cursor k ∧ l'.owner k = l.owner k ∧ l'.mark k = l.mark k) :
    s.Notices l number moved s' l' where
  revision := by
    intro hnear t t' ht ht'
    obtain ⟨items, hkept⟩ := h.tree number t ht
    obtain ⟨items', hkept'⟩ := h'.tree number t' ht'
    rw [hkept.revision, hkept'.revision]
    exact (revision_ne (by omega) hnear).symm
  cursor := by
    rintro k c hc rfl hk hnear
    obtain ⟨hsame, howner, hmark⟩ := hcursor k hk
    have hc' := hsame.trans hc
    have hle : l.mark k ≤ l.count (l.owner k) := by
      obtain ⟨t, -, hsaw⟩ := h.cursor k c hc
      exact hsaw.le
    have hmissed : 0 < l'.missed k := by
      rw [Ledger.missed, howner, hmark, hcount]
      omega
    have halerts := h'.alerts hc' hmissed hnear
    rwa [howner] at halerts

theorem Session.tree_exec {command : Command K V} {o : Outcome K V} (ht : s.tree number = .ok t)
    (hp : l.Permits number command) (hrun : s.exec cmp number command = .ok o)
    (hedit : ∀ e, command ≠ .edit e) (hcursor : ∀ k op, command ≠ .cursor k op) :
    o.session.tree number = .ok t := by
  have hchanged := Session.exec_changed hrun
  generalize o.session = s' at hchanged ⊢
  cases hchanged with
  | reads _ hsame => rwa [hsame]
  | edit => exact absurd rfl (hedit _)
  | cursor => exact absurd rfl (hcursor _ _)
  | surgery => exact hp.elim
  | openTree | copyTree => exact Session.tree_addTree ht

theorem Sane.edit_notices (h : Sane C s l) (hcmp : C cmp) (ht : s.tree number = .ok t)
    {e : Edit K V} {o : Outcome K V} (hrun : s.exec cmp number (.edit e) = .ok o) :
    ∃ t', o.session.tree number = .ok t' ∧
      ((∀ visit, e = .retain visit → t'.size ≠ t.size) → t'.entries ≠ t.entries →
        s.Notices l number (fun _ => False) o.session (l.after cmp s number (.edit e))) := by
  obtain ⟨items, hkept⟩ := h.tree number t ht
  have hafter : l.after cmp s number (.edit e) = l.counted number (e.changes cmp t) := by
    simp only [Ledger.after, ht]
  have hp : l.Permits number (.edit e : Command K V) := trivial
  have h' := h.exec hcmp hp hrun
  simp only [Session.exec, ht, ok_bind] at hrun
  obtain ⟨⟨r, t'⟩, he, hrun⟩ := bind_eq_ok.mp hrun
  cases hrun
  refine ⟨t', Session.tree_setTree_self ht, ?_⟩
  intro hvisit hdiffer
  have he' := Session.orStop_eq_ok.mp he
  have hn : e.changes cmp t ≠ 0 :=
    fun h0 => hdiffer (Edit.quiet cmp hkept.keeps e he' h0 hvisit)
  rw [hafter] at h' ⊢
  exact h.notices h' Ledger.count_counted_self hn (fun k _ => ⟨rfl, rfl, rfl⟩)

theorem Sane.cursor_notices (h : Sane C s l) (hcmp : C cmp) (ht : s.tree number = .ok t)
    {op : CursorOp K V} {o : Outcome K V} (hp : l.Permits number (.cursor k op : Command K V))
    (hrun : s.exec cmp number (.cursor k op) = .ok o) :
    ∃ t', o.session.tree number = .ok t' ∧
      (t'.entries ≠ t.entries →
        s.Notices l number (k = ·) o.session (l.after cmp s number (.cursor k op))) := by
  obtain ⟨items, hkept⟩ := h.tree number t ht
  have h' := h.exec hcmp hp hrun
  obtain ⟨rfl, hnear⟩ := hp
  cases hc : s.cursor k with
  | error stop => simp [Session.exec, ht, hc] at hrun
  | ok c =>
    obtain ⟨t₁, ht₁, hsaw⟩ := h.cursor k c hc
    obtain rfl := Except.ok.inj (ht.symm.trans ht₁)
    obtain ⟨r, c', t', hop, hquiet⟩ := CursorOp.quiet hkept.keeps hkept.revision hsaw hnear op
    simp only [Session.exec, ht, hc, hop, Session.orStop, ok_bind, pure_ok, Except.ok.injEq] at hrun
    subst hrun
    refine ⟨t', Session.tree_setTree_self ht, ?_⟩
    intro hdiffer
    have hn : op.changes t c ≠ 0 := fun h0 => hdiffer (hquiet h0)
    obtain ⟨hcount, hothers⟩ :=
      @Ledger.after_cursor K V _ _ _ s l (l.owner k) k t c cmp op ht hc
    refine h.notices h' hcount hn ?_
    intro j hj
    exact ⟨Session.cursor_setCursor_ne (Ne.symm hj), hothers j (Ne.symm hj)⟩

/-- After any run, a command or an operation through a window that leaves the
tree with other entries than before shows in the revision, if it counts fewer
than 2^64 modifications, and to every cursor of the tree that it did not move
and that then missed fewer than 2^64: the cursor's next step is refused. What
does not show is a visit of all entries that keeps every one of them, whatever
values it puts in. -/
theorem reached_change_noticed (h : Reaches C s l) (hcmp : C cmp) (ht : s.tree number = .ok t) :
    (∀ command o, l.Permits number command → s.exec cmp number command = .ok o →
      ∃ t', o.session.tree number = .ok t' ∧
        ((∀ visit, command = .edit (.retain visit) → t'.size ≠ t.size) →
          t'.entries ≠ t.entries →
            s.Notices l number (fun k => command.Moves k) o.session
              (l.after cmp s number command))) ∧
      ∀ (w : Window K) (op : WindowWrite K V) r t', op.run cmp t w = .ok (r, t') →
        t'.entries ≠ t.entries →
          s.Notices l number (fun _ => False) (s.setTree number t')
            (l.counted number (op.changes cmp t w)) := by
  have hsane := h.sane
  refine ⟨?_, ?_⟩
  · intro command o hp hrun
    by_cases hedit : ∃ e, command = .edit e
    · obtain ⟨e, rfl⟩ := hedit
      obtain ⟨t', ht', hshows⟩ := hsane.edit_notices hcmp ht hrun
      exact ⟨t', ht', fun hvisit => hshows (fun visit he => hvisit visit (congrArg _ he))⟩
    by_cases hcursor : ∃ k op, command = .cursor k op
    · obtain ⟨k, op, rfl⟩ := hcursor
      obtain ⟨t', ht', hshows⟩ := hsane.cursor_notices hcmp ht hp hrun
      exact ⟨t', ht', fun _ => hshows⟩
    · have hsame := Session.tree_exec ht hp hrun (fun e he => hedit ⟨e, he⟩)
        (fun k op hk => hcursor ⟨k, op, hk⟩)
      exact ⟨t, hsame, fun _ hdiffer => absurd rfl hdiffer⟩
  · intro w op r t' hrun hdiffer
    obtain ⟨items, hkept⟩ := hsane.tree number t ht
    have hn : op.changes cmp t w ≠ 0 :=
      fun h0 => hdiffer (WindowWrite.quiet cmp hkept.keeps w op hrun h0)
    have h' := (Reaches.view h hcmp ht hrun).sane
    exact hsane.notices h' Ledger.count_counted_self hn (fun k _ => ⟨rfl, rfl, rfl⟩)

/-- One entry and a cursor before it. -/
def watchedEntry : List ((Int → Int → Ordering) × Nat × Command Int Int) :=
  [(compare, 0, .edit (.insert 1 10)), (compare, 0, .place 0 .front)]

/-- Another value for the entry is noticed. -/
theorem watchedEntry_noticed :
    ∃ (s : Session Int Int) (l : Ledger) (o : Outcome Int Int) (t t' : Tree Int Int),
      Session.blank.follow .blank watchedEntry = some (s, l) ∧ s.tree 0 = .ok t ∧
        s.exec compare 0 (.edit (.insert 1 99)) = .ok o ∧ o.session.tree 0 = .ok t' ∧
        t.entries = .ok [(1, 10)] ∧ t'.entries = .ok [(1, 99)] ∧ t'.revision ≠ t.revision ∧
        o.session.Alerts 0 0 := by
  have hrun : Session.blank.follow .blank watchedEntry = some _ := rfl
  have hreach := Reaches.follow (C := fun _ => True) .blank (fun _ _ => trivial) hrun
  obtain ⟨hcommands, -⟩ :=
    @reached_change_noticed Int Int _ _ _ _ _ _ 0 _ compare _ hreach trivial rfl
  obtain ⟨t', ht', hshows⟩ := hcommands (.edit (.insert 1 99)) _ trivial rfl
  obtain rfl := Except.ok.inj (ht'.symm.trans rfl)
  have hnotices := hshows nofun (by decide)
  exact ⟨_, _, _, _, _, hrun, rfl, rfl, rfl, rfl, rfl,
    hnotices.revision (by decide) _ _ rfl rfl,
    hnotices.cursor 0 _ rfl rfl (by simp [Command.Moves]) (by decide)⟩

/-- Another value for the entry, put in by a visit that keeps it, is not: the
revision stays, and the cursor steps on. -/
theorem rewritingVisit_unnoticed :
    ∃ (s : Session Int Int) (l : Ledger) (o o' : Outcome Int Int) (t t' : Tree Int Int),
      Session.blank.follow .blank watchedEntry = some (s, l) ∧ s.tree 0 = .ok t ∧
        s.exec compare 0 (.edit (.retain fun _ _ _ => (99, true))) = .ok o ∧
        o.session.tree 0 = .ok t' ∧ t.entries = .ok [(1, 10)] ∧ t'.entries = .ok [(1, 99)] ∧
        t'.revision = t.revision ∧
        o.session.exec compare 0 (.cursor 0 (.step .right)) = .ok o' ∧ o'.reply = .entry (1, 99) :=
  ⟨_, _, _, _, _, _, rfl, rfl, rfl, rfl, rfl, rfl, rfl, rfl, rfl⟩

end SlotTree
