import SlotTree.Proofs.Audit
import SlotTree.Proofs.Measures
import SlotTree.Proofs.Reach
import SlotTree.Proofs.Traversal

/-
  Answers — no operation breaks off while there is room.

  A fault is the end of an operation that followed a link to a vacant slot,
  counted down from zero or walked without an end. On a sound tree none of the
  questions meets one, whatever the comparison (`Query.run_ok`); the changes are
  dealt with where they are specified. So a run of commands that a caller can
  give, and that there is room for, goes on to its end (`Reaches.follow_ok`),
  also with cursors that have missed changes and hold numbers of slots that are
  vacant or taken again. Room that is asked for can be more than there is
  (`hugeReserve_overflows`).

  Reading a key that is not there with an accessor that cannot say so is
  answered with a fault as a value, by that one question alone.
-/
namespace SlotTree

variable {K V : Type} {t : Tree K V} {items : List (Nat × K × V)}

namespace Tree

variable (cmp : K → K → Ordering) (h : t.Keeps items)
include h

/-! ## Questions about keys and entries -/

theorem entry?_ok (key : K) : ∃ e, t.entry? cmp key = .ok e := by
  obtain ⟨l, hrun, -⟩ := find_found cmp h key
  exact ⟨t.entryOf l, by simp [hrun, entry?]⟩

theorem get?_ok (key : K) : ∃ v, t.get? cmp key = .ok v := by
  obtain ⟨e, he⟩ := entry?_ok cmp h key
  exact ⟨e.map (·.2), by simp [get?, he]⟩

theorem contains_ok (key : K) : ∃ b, t.contains cmp key = .ok b := by
  obtain ⟨l, hrun, -⟩ := find_found cmp h key
  exact ⟨l.isSome, by simp [contains, hrun]⟩

theorem nearestKey_ok (s : Side) (inclusive : Bool) (key : K) :
    ∃ k, t.keyOf <$> t.nearest cmp s inclusive key = .ok k := by
  obtain ⟨l, hrun, -⟩ := nearest_names cmp h s inclusive key
  exact ⟨t.keyOf l, by simp [hrun]⟩

theorem merge_ends {u : Tree K V} {others : List (Nat × K × V)} (hu : u.Keeps others) :
    Ends (t.merge cmp u) (t.roomyFor cmp (others.map (·.2)) = true)
      (fun t' => ∃ items', Evolves cmp t items others.length t' items') := by
  have hmerge : t.merge cmp u = t.insertAll cmp (others.map (·.2)) := by
    simp [merge, entriesFrom_ok hu, Feed.handedOut]
  rw [hmerge]
  simpa using insertAll_ends cmp h (others.map (·.2))

end Tree

/-! ## Questions -/

theorem Reply.option_ne_broken {α : Type} {g : α → Reply K V} {f : Fault} (x : Option α)
    (hg : ∀ a, g a ≠ .broken f) : Reply.option g x ≠ .broken f := by
  cases x with
  | none => simp [Reply.option]
  | some a => exact hg a

theorem Reply.result_ne_broken {α : Type} {g : α → Reply K V} {f : Fault} (x : Except Refusal α)
    (hg : ∀ a, g a ≠ .broken f) : Reply.result g x ≠ .broken f := by
  cases x with
  | error => simp [Reply.result]
  | ok a => exact hg a

namespace Query

variable (cmp : K → K → Ordering)

theorem runAround_ok (h : t.Keeps items) (key : K) :
    ∃ rs, runAround cmp t key = .ok (.list rs) := by
  obtain ⟨lower, hlower⟩ := Tree.nearestKey_ok cmp h .left false key
  obtain ⟨floor, hfloor⟩ := Tree.nearestKey_ok cmp h .left true key
  obtain ⟨v, hv⟩ := Tree.get?_ok cmp h key
  obtain ⟨ceiling, hceiling⟩ := Tree.nearestKey_ok cmp h .right true key
  obtain ⟨higher, hhigher⟩ := Tree.nearestKey_ok cmp h .right false key
  simp only [runAround, Tree.lowerKey, Tree.floorKey, Tree.ceilingKey, Tree.higherKey,
    Tree.previousKey, Tree.nextKey, hlower, hfloor, hv, hceiling, hhigher, ok_bind, pure_ok]
  exact ⟨_, rfl⟩

variable [Written K] [Written V] [DecidableEq K]

theorem run_ok (h : t.Keeps items) (q : Query K) : ∃ r : Reply K V, q.run cmp t = .ok r := by
  -- The answer to a question that wraps what a function of the tree answers.
  have wrap : ∀ {α : Type} (g : α → Reply K V) {x : Except Fault α}, q.run cmp t = g <$> x →
      (∃ a, x = .ok a) → ∃ r : Reply K V, q.run cmp t = .ok r := by
    rintro α g _ hrun ⟨a, rfl⟩
    exact ⟨g a, hrun⟩
  obtain ⟨-, sh, hsound, -⟩ := id h
  cases q with
  | size | isEmpty | revision | compare | occupancy | intersect => exact ⟨_, rfl⟩
  | get k => exact wrap _ rfl (Tree.get?_ok cmp h k)
  | entry k => exact wrap _ rfl (Tree.entry?_ok cmp h k)
  | contains k => exact wrap _ rfl (Tree.contains_ok cmp h k)
  | index k =>
    simp only [run]
    cases t.get cmp k <;> exact ⟨_, rfl⟩
  | endKey s => exact wrap _ rfl ⟨_, by simp only [Tree.endKey, h.endNode, map_ok]; rfl⟩
  | endEntry s => exact wrap _ rfl ⟨_, by simp only [Tree.endEntry, h.endNode, map_ok]; rfl⟩
  | nextKey k | higherKey k => exact wrap _ rfl (Tree.nearestKey_ok cmp h .right false k)
  | previousKey k | lowerKey k => exact wrap _ rfl (Tree.nearestKey_ok cmp h .left false k)
  | ceilingKey k => exact wrap _ rfl (Tree.nearestKey_ok cmp h .right true k)
  | floorKey k => exact wrap _ rfl (Tree.nearestKey_ok cmp h .left true k)
  | around k =>
    obtain ⟨rs, hrun⟩ := runAround_ok cmp h k
    exact ⟨.list rs, hrun⟩
  | height => exact wrap _ rfl ⟨_, Tree.height_ok hsound⟩
  | blackHeight => exact wrap _ rfl ⟨_, Tree.blackHeight_ok hsound⟩
  | isSound =>
    rcases Tree.audit_ok cmp hsound with ⟨-, hrun⟩ | ⟨-, i, hrun⟩
    · exact wrap _ rfl ⟨_, by simp only [Tree.isSound, hrun, map_ok]; rfl⟩
    · exact wrap _ rfl ⟨_, by simp only [Tree.isSound, hrun, map_ok]; rfl⟩
  | validate =>
    rcases Tree.audit_ok cmp hsound with ⟨-, hrun⟩ | ⟨-, i, hrun⟩
    · exact wrap _ rfl ⟨_, by simp only [Tree.validate, hrun, ok_bind]; rfl⟩
    · exact wrap _ rfl ⟨_, by simp only [Tree.validate, hrun, ok_bind]; rfl⟩
  | text => exact wrap _ rfl ⟨_, Tree.text_ok h⟩
  | outline => exact wrap _ rfl ⟨_, Tree.outline_ok hsound⟩
  | iterate source plan => exact ⟨_, Tree.iterate_ok h source plan⟩
  | window bounds ops =>
    simp only [run]
    cases Window.ofBounds cmp bounds with
    | error refusal => exact ⟨_, rfl⟩
    | ok w =>
      obtain ⟨rs, hrs⟩ := WindowRead.runAll_ok cmp h w ops
      exact ⟨.answers rs, by simp [hrs]⟩

/-- The answer is a fault only where a key is read that is not there, with the
accessor that cannot say so. -/
theorem eq_missingKey (h : t.Keeps items) {q : Query K} {f : Fault}
    (hrun : q.run cmp t = .ok (.broken f)) :
    f = .missingKey ∧ ∃ key, q = .index key ∧ t.get? cmp key = .ok none := by
  have wrapped : ∀ {α : Type} {g : α → Reply K V} {x : Except Fault α}, (∀ a, g a ≠ .broken f) →
      g <$> x ≠ .ok (.broken f) := by
    intro α g x hg heq
    cases x with
    | error => cases heq
    | ok a => exact hg a (Except.ok.inj heq)
  cases q with
  | index key =>
    obtain ⟨v, hv⟩ := Tree.get?_ok cmp h key
    cases v with
    | some v => simp [run, Tree.get, hv] at hrun
    | none =>
      simp only [run, Tree.get, hv, ok_bind, Except.ok.injEq, Reply.broken.injEq] at hrun
      exact ⟨hrun.symm, key, rfl, hv⟩
  | size | isEmpty | revision | compare | occupancy | intersect => simp [run] at hrun
  | get | nextKey | previousKey | ceilingKey | floorKey | higherKey | lowerKey | endKey =>
    exact absurd hrun (wrapped (fun a => Reply.option_ne_broken a (by simp)))
  | entry | endEntry =>
    exact absurd hrun (wrapped (fun a => Reply.option_ne_broken a (by simp [Reply.entry])))
  | contains | height | blackHeight | isSound | text | outline =>
    exact absurd hrun (wrapped (by simp))
  | validate => exact absurd hrun (wrapped (fun a => Reply.result_ne_broken a (by simp)))
  | around k =>
    obtain ⟨rs, hrs⟩ := runAround_ok cmp h k
    cases hrs.symm.trans hrun
  | iterate source plan => simp [run, Tree.iterate_ok h] at hrun
  | window bounds ops =>
    simp only [run] at hrun
    cases hw : Window.ofBounds cmp bounds with
    | error refusal => simp [hw] at hrun
    | ok w =>
      rw [hw] at hrun
      exact absurd hrun (wrapped (by simp))

end Query

/-! ## Changes do not answer with faults -/

theorem answer_ne_broken {α β : Type} {g : α → Reply K V × β} {x : Except Fault α} {f : Fault}
    {b : β} (hg : ∀ a, (g a).1 ≠ .broken f) : (x >>= fun a => pure (g a)) ≠ .ok (.broken f, b) := by
  intro heq
  cases x with
  | error => cases heq
  | ok a => exact hg a (congrArg Prod.fst (Except.ok.inj heq))

theorem CursorOp.ne_broken {c c' : Cursor} {t' : Tree K V} {op : CursorOp K V} {f : Fault} :
    op.run t c ≠ .ok (.broken f, c', t') := by
  cases op with
  | hasEntry | text => simp [run]
  | key | value =>
    intro hrun
    have hreply := congrArg Prod.fst (Except.ok.inj hrun)
    exact Reply.result_ne_broken _ (by simp) hreply
  | step s =>
    simp only [run]
    cases c.step t s with
    | error => simp
    | ok x => cases x <;> simp [Reply.entry]
  | setValue v =>
    simp only [run]
    cases c.setValue t v <;> simp
  | remove =>
    simp only [run]
    cases c.remove t with
    | error => simp
    | ok x => cases x <;> simp [Reply.entry]
  | reset => exact answer_ne_broken (by simp)
  | sweep s meant => exact answer_ne_broken (fun x => Reply.result_ne_broken x.1 (by simp))

variable [Written K]

theorem Edit.ne_broken {cmp : K → K → Ordering} {t' : Tree K V} {e : Edit K V} {f : Fault} :
    e.run cmp t ≠ .ok (.broken f, t') := by
  cases e with
  | insert | modify | remove =>
    exact answer_ne_broken (fun x => Reply.option_ne_broken x.1 (by simp))
  | removeEntry | pop =>
    exact answer_ne_broken (fun x => Reply.option_ne_broken x.1 (by simp [Reply.entry]))
  | insertAll | insertCounting | removeCounting | retain | reserve =>
    exact answer_ne_broken (by simp)
  | clear => simp [run]
  | window bounds ops =>
    simp only [run]
    cases Window.ofBounds cmp bounds with
    | error => simp
    | ok w => exact answer_ne_broken (by simp)

/-! ## Runs of commands -/

variable [Written V] [DecidableEq K] [DecidableEq V]

/-- Whether a command is one that a caller can give: it does not name slots, and
it names trees and cursors that there are. -/
def Command.Public (s : Session K V) : Command K V → Prop
  | .probe _ | .surgery _ => False
  | .same other => ∃ t, s.tree other = .ok t
  | .copyCursor k _ | .cursor k _ => ∃ c, s.cursor k = .ok c
  | .query _ | .edit _ | .openTree | .copyTree | .flip | .place _ _ => True

/-- Every command of the list is one that a caller can give when its turn comes,
to a tree that there is and with room for what it stores and reserves. -/
def Session.Proper (s : Session K V) (l : Ledger) :
    List ((K → K → Ordering) × Nat × Command K V) → Prop
  | [] => True
  | (cmp, number, command) :: rest =>
    (∃ t, s.tree number = .ok t ∧ command.Roomy cmp t) ∧ l.Permits number command ∧
      command.Public s ∧ ∀ o, s.exec cmp number command = .ok o →
        o.session.Proper (l.after cmp s number command) rest

variable {C : (K → K → Ordering) → Prop} {s s' : Session K V} {l l' : Ledger} {number : Nat}
  {cmp : K → K → Ordering}

theorem Command.Changes.ne_broken {command : Command K V} {o : Outcome K V} {f : Fault}
    (hc : command.Changes s) (hrun : s.exec cmp number command = .ok o) : o.reply ≠ .broken f := by
  cases ht : s.tree number with
  | error stop => simp [Session.exec, ht] at hrun
  | ok t =>
    simp only [Session.exec, ht, ok_bind] at hrun
    cases command with
    | query | probe | surgery | same => exact hc.elim
    | edit e =>
      cases he : e.run cmp t with
      | error => simp [he, Session.orStop] at hrun
      | ok x =>
        simp only [he, Session.orStop, ok_bind, pure_ok, Except.ok.injEq] at hrun
        subst hrun
        intro hreply
        exact Edit.ne_broken (he.trans (congrArg Except.ok (Prod.ext hreply rfl)))
    | openTree | copyTree | flip =>
      simp only [pure_ok, Except.ok.injEq] at hrun
      subst hrun
      simp
    | place k p =>
      cases hp : p.cursor cmp t with
      | error => simp [hp, Session.orStop] at hrun
      | ok c =>
        simp only [hp, Session.orStop, ok_bind, pure_ok, Except.ok.injEq] at hrun
        subst hrun
        simp
    | copyCursor k target =>
      obtain ⟨c, hk⟩ := hc
      simp only [hk, ok_bind, pure_ok, Except.ok.injEq] at hrun
      subst hrun
      simp
    | cursor k op =>
      obtain ⟨c, hk⟩ := hc
      cases hop : op.run t c with
      | error => simp [hk, hop, Session.orStop] at hrun
      | ok x =>
        simp only [hk, hop, Session.orStop, ok_bind, pure_ok, Except.ok.injEq] at hrun
        subst hrun
        intro hreply
        exact CursorOp.ne_broken (hop.trans (congrArg Except.ok (Prod.ext hreply rfl)))

/-- A command that a caller can give is answered, or there is no room for it. -/
theorem Sane.answers (h : Sane C s l) (cmp : K → K → Ordering) {command : Command K V}
    (ht : s.tree number = .ok t) (hp : l.Permits number command) (hc : command.Public s) :
    (∃ o, s.exec cmp number command = .ok o ∧
        ∀ f, o.reply = .broken f → f = .missingKey ∧
          ∃ key, command = .query (.index key) ∧ t.get? cmp key = .ok none) ∨
      ∃ f, s.exec cmp number command = .error (.fault f) ∧ f.Scarce ∧ ¬ command.Roomy cmp t := by
  obtain ⟨items, hkept⟩ := h.tree number t ht
  have hk := hkept.keeps
  have changes : command.Changes s →
      (∃ o, s.exec cmp number command = .ok o ∧
        ∀ f, o.reply = .broken f → f = .missingKey ∧
          ∃ key, command = .query (.index key) ∧ t.get? cmp key = .ok none) ∨
      ∃ f, s.exec cmp number command = .error (.fault f) ∧ f.Scarce ∧
        ¬ command.Roomy cmp t := by
    intro hchanges
    rcases h.exec_ends cmp hp ht hchanges with ⟨o, ho⟩ | hscarce
    · exact .inl ⟨o, ho, fun f hf => absurd hf (hchanges.ne_broken ho)⟩
    · exact .inr hscarce
  cases command with
  | probe | surgery => exact hc.elim
  | edit | openTree | copyTree | flip | place => exact changes trivial
  | copyCursor | cursor => exact changes hc
  | query q =>
    obtain ⟨r, hrun⟩ := Query.run_ok cmp hk q
    refine .inl ⟨⟨r, q.events t r, s⟩, by simp [Session.exec, ht, hrun, Session.orStop], ?_⟩
    rintro f rfl
    obtain ⟨hf, key, rfl, hkey⟩ := Query.eq_missingKey cmp hk hrun
    exact ⟨hf, key, rfl, hkey⟩
  | same other =>
    obtain ⟨u, hu⟩ := hc
    obtain ⟨others, hothers⟩ := h.tree other u hu
    obtain ⟨b, hrun, -⟩ := Tree.same_ok hk hothers.keeps
    exact .inl ⟨⟨.flag b, [], s⟩, by simp [Session.exec, ht, hu, hrun, Session.orStop], by simp⟩

theorem Reaches.follow_ok {steps : List ((K → K → Ordering) × Nat × Command K V)}
    (h : Reaches (fun _ => True) s l) (hsteps : s.Proper l steps) :
    ∃ s' l', s.follow l steps = some (s', l') := by
  induction steps generalizing s l with
  | nil => exact ⟨s, l, rfl⟩
  | cons step steps ih =>
    obtain ⟨cmp, number, command⟩ := step
    obtain ⟨⟨t, ht, hroom⟩, hp, hc, hrest⟩ := hsteps
    rcases h.sane.answers cmp ht hp hc with ⟨o, ho, -⟩ | ⟨f, -, -, hscarce⟩
    · obtain ⟨s', l', hrun⟩ := ih (.command h trivial hp ho) (hrest o ho)
      exact ⟨s', l', by simp [Session.follow, hp, ho, hrun]⟩
    · exact absurd hroom hscarce

/-- After any run, under any comparisons, every operation is answered that there
is room for: each command that a caller can give, each operation through a window
and each merge of two trees. So no run of commands breaks off. Without room an
operation breaks off with a fault that says so, and with no other one. The one
fault that a caller can see is the answer to a question that reads a missing key
and cannot say so. -/
theorem reached_operations_answer (h : Reaches (fun _ => True) s l) :
    (∀ cmp number t command, s.tree number = .ok t → l.Permits number command →
      command.Public s →
        (∃ o, s.exec cmp number command = .ok o ∧
          ∀ f, o.reply = .broken f → f = .missingKey ∧
            ∃ key, command = .query (.index key) ∧ t.get? cmp key = .ok none) ∨
        ∃ f, s.exec cmp number command = .error (.fault f) ∧ f.Scarce ∧
          ¬ command.Roomy cmp t) ∧
      (∀ cmp number t, s.tree number = .ok t → ∀ w : Window K,
        (∀ op : WindowRead K, ∃ r : Reply K V, op.run cmp t w = .ok r) ∧
          ∀ op : WindowWrite K V,
            Ends (op.run cmp t w) (op.roomy cmp t w = true) (fun _ => True)) ∧
      (∀ cmp number other t u, s.tree number = .ok t → s.tree other = .ok u →
        ∃ es, u.entries = .ok es ∧
          Ends (t.merge cmp u) (t.roomyFor cmp es = true) (fun _ => True)) ∧
      ∀ steps, s.Proper l steps → ∃ s' l', s.follow l steps = some (s', l') := by
  have hsane := h.sane
  refine ⟨?_, ?_, ?_, ?_⟩
  · intro cmp number t command ht hp hc
    exact hsane.answers cmp ht hp hc
  · intro cmp number t ht w
    obtain ⟨items, hkept⟩ := hsane.tree number t ht
    refine ⟨WindowRead.run_ok cmp hkept.keeps w, fun op => ?_⟩
    exact (WindowWrite.run_ends cmp hkept.keeps w op).mono id (fun _ _ _ => trivial)
  · intro cmp number other t u ht hu
    obtain ⟨items, hkept⟩ := hsane.tree number t ht
    obtain ⟨others, hothers⟩ := hsane.tree other u hu
    refine ⟨_, hothers.keeps.entries, ?_⟩
    exact (Tree.merge_ends cmp hkept.keeps hothers.keeps).mono id (fun _ _ _ => trivial)
  · intro steps hsteps
    exact h.follow_ok hsteps

/-- A caller can ask the empty tree for more room than there is. -/
theorem hugeReserve_overflows :
    Reaches (fun _ => True) (.blank : Session Int Int) .blank ∧
      Ledger.blank.Permits 0 (.edit (.reserve 9223372036854775807) : Command Int Int) ∧
      (.edit (.reserve 9223372036854775807) : Command Int Int).Public .blank ∧
      (.blank : Session Int Int).exec compare 0 (.edit (.reserve 9223372036854775807)) =
        .error (.fault .capacityOverflow) :=
  ⟨.blank, trivial, trivial, rfl⟩

/-- Two cursors under comparisons without laws. One removes the first entry,
whose slot then goes to another entry; the other one still names that slot. -/
def takenSlot : List ((Int → Int → Ordering) × Nat × Command Int Int) :=
  [(fun _ _ => .lt, 0, .edit (.insertAll [(1, 10), (2, 20), (3, 30)])),
    (fun _ _ => .gt, 0, .place 0 .front), (fun _ _ => .gt, 0, .place 1 .front),
    (fun _ _ => .lt, 0, .cursor 0 (.step .right)), (fun _ _ => .gt, 0, .cursor 0 .remove),
    (fun _ _ => .lt, 0, .edit (.insert 4 40))]

theorem takenSlot_answers :
    ∃ (s : Session Int Int) (l : Ledger) (o o' : Outcome Int Int),
      Session.blank.follow .blank takenSlot = some (s, l) ∧
        s.exec (fun _ _ => .gt) 0 (.cursor 1 (.step .right)) = .ok o ∧
        o.reply = .refused (.concurrentModification 3 5) ∧
        s.exec (fun _ _ => .gt) 0 (.query (.index 9)) = .ok o' ∧
        o'.reply = .broken .missingKey := by
  have hrun : Session.blank.follow .blank takenSlot = some _ := rfl
  have hreach := Reaches.follow (C := fun _ => True) .blank (fun _ _ => trivial) hrun
  obtain ⟨hcommands, -⟩ := reached_operations_answer hreach
  have hstep := hcommands (fun _ _ => .gt) 0 _ (.cursor 1 (.step .right)) rfl (by decide) ⟨_, rfl⟩
  have hindex := hcommands (fun _ _ => .gt) 0 _ (.query (.index 9)) rfl trivial trivial
  obtain ⟨o, ho, -⟩ | ⟨_, -, -, hscarce⟩ := hstep
  case inr => exact absurd trivial hscarce
  obtain ⟨o', ho', -⟩ | ⟨_, -, -, hscarce⟩ := hindex
  case inr => exact absurd trivial hscarce
  refine ⟨_, _, o, o', hrun, ho, ?_, ho', ?_⟩
  · obtain rfl := Except.ok.inj (ho.symm.trans rfl)
    rfl
  · obtain rfl := Except.ok.inj (ho'.symm.trans rfl)
    rfl

end SlotTree
