import SlotTree.Refusal

/-
  Events — the notes an operation leaves for whoever watches the tree.

  A refused window, a refused key and a cursor that missed a change leave a
  note that follows from the refusal. Clearing a tree and failing an audit
  leave one of their own.
-/
namespace SlotTree

/-- How urgent a note is. -/
inductive Level where
  | trace
  | debug
  | warn
  deriving DecidableEq, Repr

/-- The name of a level. -/
def Level.name : Level → String
  | .trace => "TRACE"
  | .debug => "DEBUG"
  | .warn => "WARN"

/-- A note: its level, its message and the values that go with it. -/
structure Event where
  level : Level
  message : String
  fields : List (String × String)
  deriving DecidableEq, Repr

namespace Event

/-- The note for a tree that is cleared of some number of entries. -/
def cleared (entries : Nat) : Event :=
  ⟨.trace, "clearing tree map", [("entries", toString entries)]⟩

/-- The note for a tree with some number of entries that failed its audit. -/
def auditFailed (refusal : Refusal) (entries : Nat) : Event :=
  ⟨.warn, "tree map failed validation",
    [("error", refusal.message), ("entries", toString entries)]⟩

end Event

/-- The note a refusal leaves by itself. -/
def Refusal.event? : Refusal → Option Event
  | .concurrentModification expected actual =>
    some ⟨.debug, "cursor detected concurrent modification",
      [("expected", toString expected), ("actual", toString actual)]⟩
  | .invalidRange .disjoint => some ⟨.debug, "rejected sub-range with no overlap", []⟩
  | .invalidRange flaw => some ⟨.debug, "rejected inverted range", [("reason", flaw.details)]⟩
  | .keyOutOfRange => some ⟨.debug, "range view rejected a key outside its bounds", []⟩
  | .noSuchElement | .nothingHeld _ | .invalidState _ _ | .corrupted _ => none

end SlotTree
