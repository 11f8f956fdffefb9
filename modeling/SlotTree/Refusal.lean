/-
  Refusals — the answers an operation gives instead of a result.

  A refusal is part of the contract: a key outside a window, bounds that
  cannot hold any key, a cursor that has missed a change, a cursor with
  nothing on that side or nothing in hand, and an audit that found a tree
  unsound. An operation that refuses changes nothing. Each refusal is a cause;
  its wording is in `Refusal.message`.
-/
namespace SlotTree

/-- What is wrong with a pair of bounds. -/
inductive RangeFlaw where
  | inverted
  | bothExcluded
  | disjoint
  | other (details : String)
  deriving DecidableEq, Repr

/-- The wording of a flaw. -/
def RangeFlaw.details : RangeFlaw → String
  | .inverted => "lower bound is greater than upper bound"
  | .bothExcluded => "bounds are equal and both excluded"
  | .disjoint => "ranges do not overlap"
  | .other details => details

/-- What a cursor is asked to do with the entry it returned last. -/
inductive HeldAction where
  | readKey
  | readValue
  | setValue
  | remove
  deriving DecidableEq, Repr

/-- The wording of an action. -/
def HeldAction.operation : HeldAction → String
  | .readKey => "read the key"
  | .readValue => "read the value"
  | .setValue => "set the value"
  | .remove => "remove"

/-- What an audit finds wrong with a tree; numbers are slots or counts. -/
inductive Corruption where
  | rootHasParent
  | linkCycle
  | danglingLink (id : Nat)
  | unmatchedLink (child parent : Nat)
  | redRoot
  | danglingNode (id : Nat)
  | misplacedKey (id : Nat)
  | redPair (id : Nat)
  | unevenBlack (id left right : Nat)
  | wrongSize (reachable size : Nat)
  | wrongLive (live size : Nat)
  | other (component details : String)
  deriving DecidableEq, Repr

/-- The part of the tree that a finding is about. -/
def Corruption.component : Corruption → String
  | .rootHasParent | .redRoot => "root"
  | .linkCycle | .danglingLink _ | .unmatchedLink _ _ => "links"
  | .danglingNode _ => "node"
  | .misplacedKey _ => "order"
  | .redPair _ => "color"
  | .unevenBlack _ _ _ => "black height"
  | .wrongSize _ _ => "size"
  | .wrongLive _ _ => "arena"
  | .other component _ => component

/-- The wording of a finding. -/
def Corruption.details : Corruption → String
  | .rootHasParent => "root has a parent"
  | .linkCycle => "cycle in child links"
  | .danglingLink id | .danglingNode id => "dangling id " ++ toString id
  | .unmatchedLink child parent =>
    "node " ++ toString child ++ " does not point back at parent " ++ toString parent
  | .redRoot => "root is red"
  | .misplacedKey id => "key at node " ++ toString id ++ " is outside its subtree bounds"
  | .redPair id => "red node " ++ toString id ++ " has a red child"
  | .unevenBlack id left right =>
    "node " ++ toString id ++ ": " ++ toString left ++ " on the left vs " ++ toString right ++
      " on the right"
  | .wrongSize reachable size => toString reachable ++ " reachable vs len " ++ toString size
  | .wrongLive live size => toString live ++ " live slots vs len " ++ toString size
  | .other _ details => details

/-- An answer instead of a result. -/
inductive Refusal where
  /-- A key lies outside the bounds of the window it was given to. -/
  | keyOutOfRange
  /-- Bounds leave no room for a key. -/
  | invalidRange (flaw : RangeFlaw)
  /-- The tree's revision is not the one the cursor last saw. -/
  | concurrentModification (expected actual : UInt64)
  /-- There is no entry on that side of the cursor. -/
  | noSuchElement
  /-- The cursor has no entry in hand to act on. -/
  | nothingHeld (action : HeldAction)
  /-- An operation is not allowed in some other state. -/
  | invalidState (operation state : String)
  /-- An audit found the tree unsound. -/
  | corrupted (finding : Corruption)
  deriving DecidableEq, Repr

namespace Refusal

/-- The text of a refusal. -/
def message : Refusal → String
  | keyOutOfRange => "key is outside the bounds of this range view"
  | invalidRange flaw => "invalid range: " ++ flaw.details
  | concurrentModification expected actual =>
    "concurrent modification: cursor expected modification count " ++ toString expected ++
      ", map is at " ++ toString actual
  | noSuchElement => "no such element"
  | nothingHeld action =>
    "invalid state: cannot " ++ action.operation ++
      " before next() or previous(), or twice for the same entry"
  | invalidState operation state => "invalid state: cannot " ++ operation ++ " " ++ state
  | corrupted finding => "corrupted tree: " ++ finding.component ++ ": " ++ finding.details

/-- Whether the caller broke a rule about bounds. -/
def isContractViolation : Refusal → Bool
  | keyOutOfRange | invalidRange _ => true
  | _ => false

/-- Whether a cursor missed a change. -/
def isConcurrentModification : Refusal → Bool
  | concurrentModification _ _ => true
  | _ => false

end Refusal

end SlotTree
