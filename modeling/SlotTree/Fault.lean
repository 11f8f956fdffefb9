/-
  Faults — the ways an operation on linked slots can break off.

  A tree whose nodes live in numbered slots follows links from slot to slot.
  A link that names a vacant slot cannot be followed, a counter cannot go
  below zero, and a walk round a ring of links never arrives. Each of these
  breaks the operation off with a `Fault`; on a soundly linked tree none of
  them happens. Three faults a caller can provoke: reading a key that is not
  there with an accessor that has no way to say so (`missingKey`), storing more
  items than there are numbers for (`exhausted`), and asking for more room than
  any memory has (`capacityOverflow`).
-/
namespace SlotTree

/-- The number of a slot, or nothing: what a link field holds. -/
abbrev Link := Option Nat

/-- The number that stands for an absent link wherever links are written as
numbers. -/
def absentNumber : Nat := 4294967295

/-- The number a link is written as. -/
def Link.number (l : Link) : Nat := l.getD absentNumber

/-- The largest number of bytes that can be asked for at once. -/
def mostBytes : Nat := 9223372036854775807

/-- A reason for which an operation breaks off without an answer. -/
inductive Fault where
  /-- A link was followed that names no occupied slot. -/
  | dangling (id : Link)
  /-- A key was read that the tree does not hold. -/
  | missingKey
  /-- A counter at zero was counted down. -/
  | underflow
  /-- A walk along links went on for longer than there are slots to visit. -/
  | endless
  /-- A slot was opened whose number cannot be written as a link. -/
  | exhausted (slot : Nat)
  /-- Room was asked for that takes too many bytes. -/
  | capacityOverflow
  deriving DecidableEq, Repr

/-- The text of a fault. -/
def Fault.message : Fault → String
  | .dangling id => "dangling node id " ++ toString id.number
  | .missingKey => "key not found in TreeMap"
  | .underflow => "attempt to subtract with overflow"
  | .endless => "a walk along the links does not end"
  | .exhausted slot => "arena exhausted: slot " ++ toString slot ++ " does not fit in a NodeId"
  | .capacityOverflow => "capacity overflow"

/-- The number before `n`; zero has none. -/
def countDown : Nat → Except Fault Nat
  | 0 => .error .underflow
  | n + 1 => .ok n

end SlotTree
