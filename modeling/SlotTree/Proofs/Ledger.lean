import Mathlib.Logic.Function.Basic
import SlotTree.Session
import SlotTree.Proofs.Missed

/-
  Ledgers — what a bystander counts of a session.

  A ledger keeps, for every tree, how many counted modifications it went
  through, and for every cursor, the tree it was made for and how many of that
  tree's modifications had happened when the cursor last took note: when it was
  made, when it was reset, or when it last changed the tree itself. A copy of a
  cursor inherits both. None of this looks at a revision.
-/
namespace SlotTree

variable {K V : Type}

/-- The modifications of every tree, and for every cursor its tree and how many
modifications of that tree it took note of. -/
structure Ledger where
  count : Nat → Nat
  owner : Nat → Nat
  mark : Nat → Nat

namespace Ledger

/-- Before the first command. -/
def blank : Ledger := ⟨fun _ => 0, fun _ => 0, fun _ => 0⟩

/-- The ledger after `n` more modifications of a tree. -/
def counted (l : Ledger) (tree n : Nat) : Ledger :=
  { l with count := Function.update l.count tree (l.count tree + n) }

/-- The ledger with a tree and a mark for a cursor. -/
def noted (l : Ledger) (cursor tree mark : Nat) : Ledger :=
  { l with
    owner := Function.update l.owner cursor tree
    mark := Function.update l.mark cursor mark }

/-- The ledger with a new tree under a number. -/
def opened (l : Ledger) (tree : Nat) : Ledger :=
  { l with count := Function.update l.count tree 0 }

/-- How many modifications of its tree a cursor missed. -/
def missed (l : Ledger) (cursor : Nat) : Nat := l.count (l.owner cursor) - l.mark cursor

/-- Whether a command may be given to the tree of a number: cursors are used
with their own tree, before they missed 2^64 modifications. -/
def Permits (l : Ledger) (number : Nat) : Command K V → Prop
  | .surgery _ => False
  | .cursor c _ => l.owner c = number ∧ l.missed c < UInt64.size
  | _ => True

instance (l : Ledger) (number : Nat) (command : Command K V) :
    Decidable (l.Permits number command) :=
  match command with
  | .surgery _ => isFalse id
  | .cursor _ _ => inferInstanceAs (Decidable (_ ∧ _))
  | .query _ | .edit _ | .probe _ | .openTree | .copyTree | .same _ | .flip | .place _ _
  | .copyCursor _ _ => isTrue trivial

/-- The ledger after a command to the tree of a number. -/
def after [Written K] [Written V] [DecidableEq K] (l : Ledger) (cmp : K → K → Ordering)
    (s : Session K V) (number : Nat) : Command K V → Ledger
  | .edit e =>
    match s.tree number with
    | .ok t => l.counted number (e.changes cmp t)
    | .error _ => l
  | .openTree | .copyTree => l.opened s.trees.size
  | .place c _ => l.noted c number (l.count number)
  | .copyCursor source target => l.noted target (l.owner source) (l.mark source)
  | .cursor c op =>
    match s.tree number, s.cursor c with
    | .ok t, .ok held =>
      let l := l.counted number (op.changes t held)
      if op.syncs t held then l.noted c number (l.count number) else l
    | _, _ => l
  | _ => l

variable {l : Ledger} {tree cursor n mark m : Nat}

@[simp] theorem count_counted_self : (l.counted tree n).count tree = l.count tree + n := by
  simp [counted]

theorem count_counted_ne (h : m ≠ tree) : (l.counted tree n).count m = l.count m := by
  simp [counted, h]

@[simp] theorem owner_counted : (l.counted tree n).owner = l.owner := rfl

@[simp] theorem mark_counted : (l.counted tree n).mark = l.mark := rfl

@[simp] theorem count_noted : (l.noted cursor tree mark).count = l.count := rfl

@[simp] theorem owner_noted_self : (l.noted cursor tree mark).owner cursor = tree := by
  simp [noted]

@[simp] theorem mark_noted_self : (l.noted cursor tree mark).mark cursor = mark := by
  simp [noted]

theorem owner_noted_ne (h : m ≠ cursor) : (l.noted cursor tree mark).owner m = l.owner m := by
  simp [noted, h]

theorem mark_noted_ne (h : m ≠ cursor) : (l.noted cursor tree mark).mark m = l.mark m := by
  simp [noted, h]

theorem noted_self : l.noted cursor (l.owner cursor) (l.mark cursor) = l := by
  simp [noted]

end Ledger

end SlotTree
