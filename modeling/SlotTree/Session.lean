import SlotTree.Session.CursorOp
import SlotTree.Session.Surgery
import SlotTree.Session.TreeOp

/-
  Sessions — trees and cursors under a run of commands.

  A session holds numbered trees and numbered cursors. A command names the
  tree it works on; a cursor can be given any tree. Whether the session is
  flipped matters only to a comparison that looks at it. A session stops at
  the first command that breaks off with a fault or names what is not there.
-/
namespace SlotTree

/-- Trees and cursors by number, and a switch that a comparison may look at. -/
structure Session (K V : Type) where
  trees : Array (Tree K V)
  cursors : List (Nat × Cursor)
  flipped : Bool

/-- A command to a session. -/
inductive Command (K V : Type) where
  | query (q : Query K)
  | edit (e : Edit K V)
  | probe (p : Probe K)
  | surgery (s : Surgery K V)
  /-- Adds an empty tree. -/
  | openTree
  /-- Adds a copy of the tree. -/
  | copyTree
  /-- Compares the tree with another one, entry by entry. -/
  | same (other : Nat)
  | flip
  /-- Makes a cursor, in place of any before it under that number. -/
  | place (number : Nat) (place : CursorPlace K)
  | copyCursor (source target : Nat)
  | cursor (number : Nat) (op : CursorOp K V)

/-- Why a session stops. -/
inductive Stop where
  | fault (f : Fault)
  | unknownTree (number : Nat)
  | unknownCursor (number : Nat)
  deriving DecidableEq, Repr

/-- What a command leaves: its reply, its notes and the session. -/
structure Outcome (K V : Type) where
  reply : Reply K V
  events : List Event
  session : Session K V

/-- What is shown of a command: its reply, its notes and the tree it named, as
it is afterwards. -/
structure Report (K V : Type) where
  reply : Reply K V
  events : List Event
  tree : Tree K V

namespace Session

variable {K V : Type}

/-- A session with one tree that holds the entries of a list. -/
def start (cmp : K → K → Ordering) (entries : List (K × V)) : Except Fault (Session K V) := do
  return ⟨#[← Tree.ofList cmp entries], [], false⟩

/-- The tree of a number. -/
def tree (s : Session K V) (number : Nat) : Except Stop (Tree K V) :=
  match s.trees[number]? with
  | some t => .ok t
  | none => .error (.unknownTree number)

/-- The cursor of a number. -/
def cursor (s : Session K V) (number : Nat) : Except Stop Cursor :=
  match s.cursors.lookup number with
  | some c => .ok c
  | none => .error (.unknownCursor number)

/-- The session with another tree under a number. -/
def setTree (s : Session K V) (number : Nat) (t : Tree K V) : Session K V :=
  { s with trees := s.trees.setIfInBounds number t }

/-- The session with one more tree. -/
def addTree (s : Session K V) (t : Tree K V) : Session K V := { s with trees := s.trees.push t }

/-- The session with a cursor under a number, in place of any before. -/
def setCursor (s : Session K V) (number : Nat) (c : Cursor) : Session K V :=
  { s with cursors := (number, c) :: s.cursors.filter (fun p => p.1 != number) }

/-- An answer, or the end of the session. -/
def orStop {α : Type} : Except Fault α → Except Stop α
  | .ok a => .ok a
  | .error f => .error (.fault f)

variable [Written K] [Written V] [DecidableEq K] [DecidableEq V]

/-- Carries out a command on the tree of a number. -/
def exec (cmp : K → K → Ordering) (s : Session K V) (number : Nat) (command : Command K V) :
    Except Stop (Outcome K V) := do
  let t ← s.tree number
  match command with
  | .query q =>
    let r ← orStop (q.run cmp t)
    return ⟨r, q.events t r, s⟩
  | .edit e =>
    let (r, after) ← orStop (e.run cmp t)
    return ⟨r, e.events t r, s.setTree number after⟩
  | .probe p =>
    let r ← orStop (p.run cmp t)
    return ⟨r, r.events, s⟩
  | .surgery op =>
    let (r, after) ← orStop (op.run cmp t)
    return ⟨r, r.events, s.setTree number after⟩
  | .openTree => return ⟨.count s.trees.size, [], s.addTree Tree.empty⟩
  | .copyTree => return ⟨.count s.trees.size, [], s.addTree t.copy⟩
  | .same other => return ⟨.flag (← orStop (t.same (← s.tree other))), [], s⟩
  | .flip => return ⟨.flag (!s.flipped), [], { s with flipped := !s.flipped }⟩
  | .place c place => return ⟨.nothing, [], s.setCursor c (← orStop (place.cursor cmp t))⟩
  | .copyCursor source target => return ⟨.nothing, [], s.setCursor target (← s.cursor source)⟩
  | .cursor c op =>
    let (r, moved, after) ← orStop (op.run t (← s.cursor c))
    return ⟨r, r.events, (s.setTree number after).setCursor c moved⟩

/-- Carries out commands one after the other, each under the number of its
tree, until one of them stops the session. The comparison is told whether the
session is flipped. -/
def run (cmp : Bool → K → K → Ordering) :
    Session K V → List (Nat × Command K V) → List (Report K V) × Option Stop
  | _, [] => ([], none)
  | s, (number, command) :: rest =>
    let outcome := do
      let o ← s.exec (cmp s.flipped) number command
      return (o, ← o.session.tree number)
    match outcome with
    | .error stop => ([], some stop)
    | .ok (o, t) =>
      let (reports, stop) := run cmp o.session rest
      (⟨o.reply, o.events, t⟩ :: reports, stop)

end Session

end SlotTree
