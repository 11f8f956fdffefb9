import SlotTree.Session.SlotsOp
import SlotTree.Proofs.Slots

/-
  Pools — what slots are to whoever uses them.

  A pool holds items under numbers and a stack of the numbers given back. It has
  no cells and counts nothing: what it holds is a function, and a number is handed
  out from the top of the stack or, if that is empty, as the first one never handed
  out. `Pool.run` says of every operation what it answers and what it leaves.

  A pool breaks off where it has no number left that can be written as a link, and
  where more room is asked for than there can be; anything else it answers.

  Slots show a pool if they are tidy and agree with it number by number
  (`Slots.Shows`). One operation keeps that and answers the same or breaks off with
  the same fault (`Shows.run`), so any run from no slots at all goes as with a pool
  (`slots_serve_as_pool`). What was given back stays away until its number is handed
  out again (`Pool.serve_vacant`).
-/
namespace SlotTree

variable {α : Type}

/-- An operation on slots, or a change of two items at once, each from what both
were before. -/
inductive SlotsAct (α : Type) where
  | op (op : SlotsOp α)
  | writePair (a b : Link) (f : α → α → α × α)

/-- Carries out an operation or a change of two items; this answers the items that
are then under the two links. -/
def SlotsAct.run (s : Slots α) : SlotsAct α → Except Fault (SlotsReply α × Slots α)
  | .op o => o.run s
  | .writePair a b f =>
    match s.updatePair a b f with
    | none => .ok (.nothing, s)
    | some written =>
      match written.get? a, written.get? b with
      | some x, some y => .ok (.pair x y, written)
      | _, _ => .ok (.nothing, written)

/-- Carries out operations one after the other. -/
def Slots.serve (s : Slots α) : List (SlotsAct α) → Except Fault (List (SlotsReply α) × Slots α)
  | [] => .ok ([], s)
  | act :: acts => do
    let (r, s) ← act.run s
    let (rs, s) ← s.serve acts
    return (r :: rs, s)

/-! ## Pools -/

/-- Items under numbers, the numbers given back with the last one first, and how
many numbers there are. -/
structure Pool (α : Type) where
  held : Nat → Option α
  stack : List Nat
  opened : Nat

namespace Pool

/-- The pool without any number. -/
def empty : Pool α := ⟨fun _ => none, [], 0⟩

/-- What is held under a link. -/
def look (p : Pool α) : Link → Option α
  | none => none
  | some i => p.held i

/-- The number that is handed out next. -/
def next (p : Pool α) : Nat := p.stack.head?.getD p.opened

/-- The pool with an item under the next number. -/
def add (p : Pool α) (a : α) : Pool α where
  held := fun i => if i = p.next then some a else p.held i
  stack := p.stack.tail
  opened := if p.stack = [] then p.opened + 1 else p.opened

/-- The pool after a number was given back; one that holds nothing cannot be. -/
def without (p : Pool α) : Link → Pool α
  | none => p
  | some i =>
    match p.held i with
    | none => p
    | some _ => { p with held := fun j => if j = i then none else p.held j, stack := i :: p.stack }

/-- The pool with the item under a link changed, if there is one. -/
def write (p : Pool α) (id : Link) (f : α → α) : Pool α :=
  { p with held := fun i => if id = some i then (p.held i).map f else p.held i }

/-- Changes the items under two different links, if there are both. -/
def writePair (p : Pool α) (a b : Link) (f : α → α → α × α) : SlotsReply α × Pool α :=
  match p.look a, p.look b with
  | some x, some y =>
    if a = b then (.nothing, p)
    else
      (.pair (f x y).1 (f x y).2, (p.write a (fun _ => (f x y).1)).write b (fun _ => (f x y).2))
  | _, _ => (.nothing, p)

/-- The item under a link that is taken on trust. -/
def trusted (p : Pool α) (id : Link) : SlotsReply α :=
  match p.look id with
  | some a => .item (some a)
  | none => .broken (.dangling id)

/-- What an operation answers and leaves. -/
def run (p : Pool α) : SlotsAct α → Except Fault (SlotsReply α × Pool α)
  | .op (.allocate a) =>
    if p.next < absentNumber then .ok (.id p.next, p.add a) else .error (.exhausted p.next)
  | .op (.release id) => .ok (.item (p.look id), p.without id)
  | .op (.get id) => .ok (.item (p.look id), p)
  | .op (.modify id a) => .ok (.item (p.look id), p.write id (a.getD ·))
  | .op (.swap a b) => .ok (p.writePair a b (fun x y => (y, x)))
  | .op (.contains id) => .ok (.flag (p.look id).isSome, p)
  | .op (.index id) => .ok (p.trusted id, p)
  | .op (.indexModify id a) => .ok (p.trusted id, p.write id (fun _ => a))
  | .op (.reserve n width) =>
    if (p.opened + (n - p.stack.length)) * width ≤ mostBytes then .ok (.flag true, p)
    else .error .capacityOverflow
  | .op .copy => .ok (.nothing, p)
  | .op .clear => .ok (.nothing, empty)
  | .writePair a b f => .ok (p.writePair a b f)

/-- What operations one after the other answer and leave. -/
def serve (p : Pool α) : List (SlotsAct α) → Except Fault (List (SlotsReply α) × Pool α)
  | [] => .ok ([], p)
  | act :: acts => do
    let (r, p) ← p.run act
    let (rs, p) ← p.serve acts
    return (r :: rs, p)

variable {p p' : Pool α} {i : Nat} {r : SlotsReply α} {rs : List (SlotsReply α)}

theorem held_write (p : Pool α) (id : Link) (f : α → α) (i : Nat) :
    (p.write id f).held i = if id = some i then (p.held i).map f else p.held i := rfl

theorem held_write_none {id : Link} {f : α → α} (h : p.held i = none) :
    (p.write id f).held i = none := by
  simp [held_write, h]

theorem held_writePair_none {a b : Link} {f : α → α → α × α} (h : p.held i = none) :
    (p.writePair a b f).2.held i = none := by
  unfold writePair
  split
  · split
    · exact h
    · exact held_write_none (held_write_none h)
  · exact h

theorem held_without_none {id : Link} (h : p.held i = none) : (p.without id).held i = none := by
  unfold without
  split
  · exact h
  · split
    · exact h
    · simp [h]

theorem held_without (p : Pool α) (i : Nat) : (p.without (some i)).held i = none := by
  cases h : p.held i with
  | none => simp [without, h]
  | some a => simp [without, h]

/-- Nothing is held under a number until an operation hands it out. -/
theorem run_vacant {act : SlotsAct α} (h : p.held i = none) (hrun : p.run act = .ok (r, p'))
    (hid : r ≠ .id i) : p'.held i = none := by
  cases act with
  | writePair a b f =>
    obtain rfl : _ = p' := congrArg Prod.snd (Except.ok.inj hrun)
    exact held_writePair_none h
  | op op =>
    cases op with
    | allocate a =>
      simp only [run] at hrun
      split at hrun
      · cases hrun
        have hne : i ≠ p.next := fun heq => hid (by rw [heq])
        simp [add, hne, h]
      · cases hrun
    | reserve n width =>
      simp only [run] at hrun
      split at hrun
      · cases hrun
        exact h
      · cases hrun
    | release id =>
      cases hrun
      exact held_without_none h
    | modify | indexModify =>
      cases hrun
      exact held_write_none h
    | swap a b =>
      obtain rfl : _ = p' := congrArg Prod.snd (Except.ok.inj hrun)
      exact held_writePair_none h
    | clear =>
      cases hrun
      rfl
    | get | contains | index | copy =>
      cases hrun
      exact h

theorem serve_vacant {acts : List (SlotsAct α)} (h : p.held i = none)
    (hrun : p.serve acts = .ok (rs, p')) (hid : .id i ∉ rs) : p'.held i = none := by
  induction acts generalizing p rs with
  | nil =>
    cases hrun
    exact h
  | cons act acts ih =>
    obtain ⟨⟨r, p₁⟩, hone, hrun⟩ := bind_eq_ok.mp hrun
    obtain ⟨⟨rest, p₂⟩, hrest, hrun⟩ := bind_eq_ok.mp hrun
    cases hrun
    rw [List.mem_cons, not_or] at hid
    exact ih (run_vacant h hone (Ne.symm hid.1)) hrest hid.2

end Pool

/-! ## Slots that show a pool -/

namespace Slots

/-- Tidy slots with the same items, the same free numbers and the same number of
slots as a pool. -/
structure Shows (s : Slots α) (p : Pool α) : Prop where
  tidy : s.Tidy
  held : ∀ i, s.get? (some i) = p.held i
  stack : s.free = p.stack
  opened : s.size = p.opened

/-- A run on slots goes as one on a pool: it breaks off with the same fault, or it
answers the same and its slots show what the pool holds. -/
def RunsAs {β : Type} (slots : Except Fault (β × Slots α)) (pool : Except Fault (β × Pool α)) :
    Prop :=
  match pool with
  | .error f => slots = .error f
  | .ok (r, p) => ∃ s, slots = .ok (r, s) ∧ s.Shows p

theorem RunsAs.bind {β γ : Type} {x : Except Fault (β × Slots α)} {y : Except Fault (β × Pool α)}
    {f : β × Slots α → Except Fault (γ × Slots α)} {g : β × Pool α → Except Fault (γ × Pool α)}
    (h : RunsAs x y) (next : ∀ r s p, s.Shows p → RunsAs (f (r, s)) (g (r, p))) :
    RunsAs (x >>= f) (y >>= g) := by
  cases y with
  | error fault =>
    rw [show x = .error fault from h]
    rfl
  | ok done =>
    obtain ⟨s, rfl, hs⟩ := h
    exact next done.1 s done.2 hs

theorem RunsAs.shows {β : Type} {x : Except Fault (β × Slots α)} {y : Except Fault (β × Pool α)}
    (h : RunsAs x y) {r : β} {s : Slots α} (hx : x = .ok (r, s)) :
    ∃ p, y = .ok (r, p) ∧ s.Shows p := by
  cases y with
  | error fault => cases hx.symm.trans h
  | ok done =>
    obtain ⟨s', hs', hshows⟩ := h
    obtain ⟨rfl, rfl⟩ := Prod.mk.inj (Except.ok.inj (hx.symm.trans hs'))
    exact ⟨done.2, rfl, hshows⟩

variable {s : Slots α} {p : Pool α}

theorem shows_empty : (empty : Slots α).Shows .empty :=
  ⟨tidy_empty, fun _ => get?_empty _, rfl, rfl⟩

namespace Shows

theorem look (h : s.Shows p) (id : Link) : s.get? id = p.look id := by
  cases id with
  | none => rfl
  | some i => exact h.held i

theorem next (h : s.Shows p) : s.next = p.next := by
  rw [Slots.next, Pool.next, h.stack, h.opened]

theorem add (h : s.Shows p) (a : α) : (s.occupy a).2.Shows (p.add a) where
  tidy := tidy_occupy h.tidy a
  held := by
    intro i
    rw [get?_occupy h.tidy, h.next, h.held]
    simp [Pool.add]
  stack := by
    rw [free_occupy, h.stack]
    rfl
  opened := by
    rw [size_occupy, h.stack, h.opened]
    rfl

theorem write (h : s.Shows p) (id : Link) (f : α → α) : (s.update id f).Shows (p.write id f) where
  tidy := tidy_update h.tidy id f
  held := by
    intro i
    rw [get?_update, Pool.held_write, h.held]
  stack := (free_update s id f).trans h.stack
  opened := (size_update s id f).trans h.opened

theorem without (h : s.Shows p) (id : Link) :
    (p.look id = none ∧ s.release id = .ok none ∧ p.without id = p) ∨
      ∃ a s', p.look id = some a ∧ s.release id = .ok (some (a, s')) ∧
        s'.Shows (p.without id) := by
  cases id with
  | none => exact .inl ⟨rfl, rfl, rfl⟩
  | some i =>
    cases hi : p.held i with
    | none => exact .inl ⟨hi, by simp [release, h.held, hi], by simp [Pool.without, hi]⟩
    | some a =>
      have hget : s.get? (some i) = some a := (h.held i).trans hi
      refine .inr ⟨a, s.released i, hi, release_ok h.tidy hget,
        tidy_released h.tidy hget, ?_, ?_, ?_⟩
      · intro j
        rw [get?_released, h.held]
        simp [Pool.without, hi]
      · simp [released, Pool.without, hi, h.stack]
      · rw [size_released, h.opened]
        simp [Pool.without, hi]

theorem writePair (h : s.Shows p) (a b : Link) (f : α → α → α × α) :
    RunsAs ((SlotsAct.writePair a b f).run s) (.ok (p.writePair a b f)) := by
  simp only [RunsAs, SlotsAct.run, Pool.writePair, updatePair_eq, h.look]
  cases ha : p.look a with
  | none => exact ⟨s, rfl, h⟩
  | some x =>
    cases hb : p.look b with
    | none => exact ⟨s, rfl, h⟩
    | some y =>
      by_cases hab : a = b
      · exact ⟨s, by simp [hab], by simpa [hab] using h⟩
      · have hba : ¬ b = a := Ne.symm hab
        refine ⟨_, ?_, by simpa [hab] using (h.write a _).write b _⟩
        simp [hab, hba, get?_update, h.look, ha, hb]

theorem trusted (h : s.Shows p) (id : Link) :
    (∃ a, s.fetch id = .ok a ∧ p.trusted id = .item (some a)) ∨
      s.fetch id = .error (.dangling id) ∧ p.trusted id = .broken (.dangling id) ∧
        p.look id = none := by
  unfold fetch Pool.trusted
  rw [h.look]
  cases p.look id with
  | none => exact .inr ⟨rfl, rfl, rfl⟩
  | some a => exact .inl ⟨a, rfl, rfl⟩

theorem run (h : s.Shows p) (act : SlotsAct α) : RunsAs (act.run s) (p.run act) := by
  cases act with
  | writePair a b f => exact h.writePair a b f
  | op op =>
    cases op with
    | allocate a =>
      simp only [SlotsAct.run, SlotsOp.run, Pool.run, allocate_eq, h.next]
      split
      · exact ⟨_, rfl, h.add a⟩
      · rfl
    | reserve n width =>
      simp only [SlotsAct.run, SlotsOp.run, Pool.run, reserve, bytesFor, h.opened, h.stack]
      split
      · exact ⟨s, rfl, h⟩
      · rfl
    | release id =>
      rcases h.without id with ⟨hlook, hrun, hp⟩ | ⟨a, s', hlook, hrun, hs'⟩
      · refine ⟨s, by simp [SlotsAct.run, SlotsOp.run, hrun, hlook], ?_⟩
        simpa [hp] using h
      · exact ⟨s', by simp [SlotsAct.run, SlotsOp.run, hrun, hlook], hs'⟩
    | get id => exact ⟨s, by simp [SlotsAct.run, SlotsOp.run, h.look], h⟩
    | modify id a => exact ⟨_, by simp [SlotsAct.run, SlotsOp.run, h.look], h.write id _⟩
    | swap a b => exact h.writePair a b _
    | contains id => exact ⟨s, by simp [SlotsAct.run, SlotsOp.run, contains, h.look], h⟩
    | index id =>
      rcases h.trusted id with ⟨a, hfetch, hp⟩ | ⟨hfetch, hp, -⟩
      · exact ⟨s, by simp [SlotsAct.run, SlotsOp.run, hfetch, hp], h⟩
      · exact ⟨s, by simp [SlotsAct.run, SlotsOp.run, hfetch, hp], h⟩
    | indexModify id a =>
      rcases h.trusted id with ⟨old, hfetch, hp⟩ | ⟨hfetch, hp, hnone⟩
      · exact ⟨_, by simp [SlotsAct.run, SlotsOp.run, hfetch, hp], h.write id _⟩
      · -- Nothing is written where nothing is held.
        refine ⟨s, by simp [SlotsAct.run, SlotsOp.run, hfetch, hp], ?_⟩
        have hsame : s.update id (fun _ => a) = s :=
          update_same (fun x hx => by rw [h.look, hnone] at hx; cases hx)
        exact hsame ▸ h.write id _
    | copy => exact ⟨s, rfl, h⟩
    | clear => exact ⟨empty, rfl, shows_empty⟩

theorem serve (h : s.Shows p) (acts : List (SlotsAct α)) :
    RunsAs (s.serve acts) (p.serve acts) := by
  induction acts generalizing s p with
  | nil => exact ⟨s, rfl, h⟩
  | cons act acts ih =>
    refine (h.run act).bind (fun r s₁ p₁ hs₁ => ?_)
    exact (ih hs₁).bind (fun rs s₂ p₂ hs₂ => ⟨s₂, rfl, hs₂⟩)

end Shows

end Slots

/-- Any run of operations from no slots at all goes as with a pool: it breaks off
where that does, and else answers the same and leaves slots that show what the pool
holds. Of these, the number handed out next is the one given back last or, if none
is free, the number of slots; it holds nothing, and it is handed out as long as there
are fewer than 2^32 - 1 slots. Two items can be had at once exactly if they are under
different links, each from its own place, and both can then be changed. An item that
is given back is answered once: until its number is handed out again, a further
attempt is answered with nothing. -/
theorem slots_serve_as_pool (acts : List (SlotsAct α)) :
    Slots.RunsAs (Slots.empty.serve acts) (Pool.empty.serve acts) ∧
      ∀ rs s, Slots.empty.serve acts = .ok (rs, s) →
        s.Tidy ∧ s.contains (some (s.free.head?.getD s.size)) = false ∧
        (∀ a, s.size < absentNumber →
          ∃ s', s.allocate a = .ok (s.free.head?.getD s.size, s')) ∧
        (∀ a b x y, s.pair a b = some (x, y) ↔ a ≠ b ∧ (a = some x.1 ∧ s.get? a = some x.2) ∧
          b = some y.1 ∧ s.get? b = some y.2) ∧
        (∀ a b f, (∃ s', s.updatePair a b f = some s') ↔
          a ≠ b ∧ s.contains a = true ∧ s.contains b = true) ∧
        ∀ i later rs' s', s.serve (.op (.release (some i)) :: later) = .ok (rs', s') →
          ∃ rest, rs' = .item (s.get? (some i)) :: rest ∧
            (.id i ∉ rest → s'.release (some i) = .ok none) := by
  have hserve := Slots.shows_empty.serve acts
  refine ⟨hserve, ?_⟩
  intro rs s hrun
  obtain ⟨p, -, h⟩ := hserve.shows hrun
  refine ⟨h.tidy, ?_, ?_, fun a b x y => Slots.pair_eq_some_iff,
    fun a b f => Slots.exists_updatePair, ?_⟩
  · change (s.get? (some s.next)).isSome = false
    rw [h.tidy.get?_next]
    rfl
  · intro a hsize
    have hnext : s.next < absentNumber := Nat.lt_of_le_of_lt h.tidy.next_le hsize
    exact ⟨(s.occupy a).2, by rw [Slots.allocate_eq, if_pos hnext]; rfl⟩
  · intro i later rs' s' hlater
    obtain ⟨p', hpool, h'⟩ := (h.serve (.op (.release (some i)) :: later)).shows hlater
    obtain ⟨given, hone, hpool⟩ := bind_eq_ok.mp hpool
    cases hone
    obtain ⟨⟨rest, p₁⟩, hrest, hpool⟩ := bind_eq_ok.mp hpool
    cases hpool
    refine ⟨rest, by rw [h.look], ?_⟩
    intro hid
    have hgone := Pool.serve_vacant (Pool.held_without p i) hrest hid
    rcases h'.without (some i) with ⟨-, hnone, -⟩ | ⟨a, -, hlook, -⟩
    · exact hnone
    · cases hgone.symm.trans hlook

/-- Two items are handed out and changed at once; then the first is given back, and
a further attempt fails as long as its number is not handed out again. -/
theorem twoItems_serve_as_pool :
    ∃ s : Slots Int,
      Slots.empty.serve [.op (.allocate 10), .op (.allocate 20),
          .writePair (some 1) (some 0) (fun x y => (x - y, x))] =
        .ok ([.id 0, .id 1, .pair 10 20], s) ∧
      (∃ s', s.allocate 30 = .ok (2, s')) ∧ s.pair (some 1) (some 0) = some ((1, 10), (0, 20)) ∧
      s.updatePair (some 0) (some 0) (fun x y => (y, x)) = none ∧
      ∃ s', s.serve [.op (.release (some 0)), .op (.get (some 0)), .op (.get (some 1))] =
          .ok ([.item (some 20), .item none, .item (some 10)], s') ∧
        s'.release (some 0) = .ok none := by
  have hrun : Slots.empty.serve [.op (.allocate 10), .op (.allocate 20),
      .writePair (some 1) (some 0) (fun x y => (x - y, x))] =
      .ok ([.id 0, .id 1, .pair 10 20], (⟨#[some 20, some 10], [], 2⟩ : Slots Int)) := rfl
  obtain ⟨-, -, hnext, hpair, hwrite, hrelease⟩ := (slots_serve_as_pool _).2 _ _ hrun
  refine ⟨_, hrun, hnext 30 (by decide), (hpair _ _ _ _).mpr (by decide), ?_, _, rfl, ?_⟩
  · by_contra hne
    obtain ⟨s', hs'⟩ := Option.ne_none_iff_exists'.mp hne
    exact ((hwrite _ _ _).mp ⟨s', hs'⟩).1 rfl
  · obtain ⟨rest, hrest, hgone⟩ :=
      hrelease 0 [.op (.get (some 0)), .op (.get (some 1))] _ _ rfl
    refine hgone ?_
    rw [← (List.cons.inj hrest).2]
    simp

end SlotTree
