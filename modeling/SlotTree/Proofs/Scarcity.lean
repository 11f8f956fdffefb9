import SlotTree.Session.TreeOp
import SlotTree.Proofs.Slots

/-
  Scarcity — where a run may break off for want of room.

  Two things can be wanting. A new entry needs a slot number that can be written
  as a link, and reserved room must not take more bytes than can be asked for.
  `roomy` says of each operation that neither is wanting: fewer than 2^32 - 1
  entries are there whenever it stores one, and what it reserves is not too
  much. `Ends x room done` is what then is shown of a run `x`: its answer
  satisfies `done`, or it broke off for want of room, and there was no `room`.
-/
namespace SlotTree

/-- Whether a fault says that room is wanting. -/
def Fault.Scarce : Fault → Prop
  | .exhausted _ | .capacityOverflow => True
  | .dangling _ | .missingKey | .underflow | .endless => False

/-- A run ends with an answer as described, or breaks off for want of room, which
it does not do if there is room. -/
def Ends {α : Type} (x : Except Fault α) (room : Prop) (done : α → Prop) : Prop :=
  match x with
  | .ok a => done a
  | .error f => f.Scarce ∧ ¬ room

namespace Ends

variable {α β : Type} {x : Except Fault α} {room room' : Prop} {done : α → Prop}

theorem of_ok (h : Ends x room done) {a : α} (hx : x = .ok a) : done a := by
  subst hx
  exact h

theorem total (h : Ends x room done) (hroom : room) : ∃ a, x = .ok a ∧ done a := by
  cases x with
  | error f => exact absurd hroom h.2
  | ok a => exact ⟨a, rfl, h⟩

theorem of_total (h : ∃ a, x = .ok a ∧ done a) : Ends x room done := by
  obtain ⟨a, rfl, hdone⟩ := h
  exact hdone

theorem mono {done' : α → Prop} (h : Ends x room done) (hroom : room' → room)
    (hdone : ∀ a, x = .ok a → done a → done' a) : Ends x room' done' := by
  cases x with
  | error f => exact ⟨h.1, fun hr => h.2 (hroom hr)⟩
  | ok a => exact hdone a rfl h

theorem bind {f : α → Except Fault β} {more : α → Prop} {done' : β → Prop}
    (h : Ends x room done) (hroom : room' → room ∧ ∀ a, x = .ok a → more a)
    (next : ∀ a, x = .ok a → done a → Ends (f a) (more a) done') :
    Ends (x >>= f) room' done' := by
  cases x with
  | error f => exact ⟨h.1, fun hr => h.2 (hroom hr).1⟩
  | ok a => exact (next a rfl h).mono (fun hr => (hroom hr).2 a rfl) (fun _ _ hd => hd)

theorem wrap {g : α → β} {done' : β → Prop} (h : Ends x room done)
    (hdone : ∀ a, x = .ok a → done a → done' (g a)) :
    Ends (x >>= fun a => pure (g a)) room done' := by
  cases x with
  | error f => exact h
  | ok a => exact hdone a rfl h

end Ends

variable {K V : Type}

/-! ## Room for an operation -/

/-- Whether there is a slot number left for one more entry. -/
def Tree.roomy (t : Tree K V) : Bool := t.size < absentNumber

/-- Whether there is room for entries whenever one of them is stored. -/
def Tree.roomyFor (cmp : K → K → Ordering) : Tree K V → List (K × V) → Bool
  | _, [] => true
  | t, e :: es =>
    t.roomy &&
      match t.insert cmp e.1 e.2 with
      | .ok (_, t) => roomyFor cmp t es
      | .error _ => true

theorem Tree.roomyFor_cons {cmp : K → K → Ordering} {t : Tree K V} {e : K × V} {es : List (K × V)}
    (h : t.roomyFor cmp (e :: es) = true) :
    t.roomy = true ∧ ∀ r, t.insert cmp e.1 e.2 = .ok r → r.2.roomyFor cmp es = true := by
  simp only [roomyFor, Bool.and_eq_true] at h
  refine ⟨h.1, fun r hrun => ?_⟩
  simpa only [hrun] using h.2

namespace WindowWrite

variable [Written K]

mutual

/-- Whether there is room for an operation through a window. -/
def roomy (cmp : K → K → Ordering) (t : Tree K V) (w : Window K) : WindowWrite K V → Bool
  | insert _ _ => t.roomy
  | narrow bounds ops =>
    match w.narrow cmp bounds with
    | .error _ => true
    | .ok inner => roomyAll cmp t inner ops
  | read _ | remove _ | modify _ _ | pop _ | clear | asReadOnly _ => true

/-- Whether there is room for each operation of a list. -/
def roomyAll (cmp : K → K → Ordering) (t : Tree K V) (w : Window K) :
    List (WindowWrite K V) → Bool
  | [] => true
  | op :: ops =>
    roomy cmp t w op &&
      match run cmp t w op with
      | .ok (_, t) => roomyAll cmp t w ops
      | .error _ => true

end

theorem roomyAll_cons {cmp : K → K → Ordering} {t : Tree K V} {w : Window K}
    {op : WindowWrite K V} {ops : List (WindowWrite K V)}
    (h : roomyAll cmp t w (op :: ops) = true) :
    roomy cmp t w op = true ∧ ∀ r, run cmp t w op = .ok r → roomyAll cmp r.2 w ops = true := by
  simp only [roomyAll, Bool.and_eq_true] at h
  refine ⟨h.1, fun r hrun => ?_⟩
  simpa only [hrun] using h.2

end WindowWrite

/-- Whether there is room for a change. -/
def Edit.roomy [Written K] (cmp : K → K → Ordering) (t : Tree K V) : Edit K V → Bool
  | .insert _ _ => t.roomy
  | .insertAll entries | .insertCounting entries => t.roomyFor cmp entries
  | .reserve n width => t.slots.bytesFor n width ≤ mostBytes
  | .window bounds ops =>
    match Window.ofBounds cmp bounds with
    | .error _ => true
    | .ok w => WindowWrite.roomyAll cmp t w ops
  | .modify _ _ | .remove _ | .removeEntry _ | .removeCounting _ | .pop _ | .clear | .retain _ =>
    true

end SlotTree
