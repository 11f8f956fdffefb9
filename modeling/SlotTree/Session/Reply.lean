import SlotTree.Event
import SlotTree.Interval

/-
  Replies — what a session answers to a command, whatever the command is.
-/
namespace SlotTree

/-- An answer, built from the things trees hold. -/
inductive Reply (K V : Type) where
  | nothing
  | flag (b : Bool)
  | count (n : Nat)
  | order (o : Ordering)
  | text (s : String)
  | color (c : Color)
  | link (l : Link)
  | key (k : K)
  | value (v : V)
  | bound (b : Bound K)
  /-- The root and the occupied slots. -/
  | store (root : Link) (nodes : List (Nat × Node K V))
  | list (items : List (Reply K V))
  /-- The answers to a list of operations, each a result or a refusal. -/
  | answers (items : List (Reply K V))
  | refused (refusal : Refusal)
  | broken (fault : Fault)

namespace Reply

variable {K V : Type}

/-- An entry as the list of its key and its value. -/
def entry (e : K × V) : Reply K V := list [key e.1, value e.2]

/-- A reply that may be absent. -/
def option {α : Type} (f : α → Reply K V) : Option α → Reply K V
  | none => nothing
  | some a => f a

/-- An interval as the list of its bounds. -/
def interval (i : Interval K) : Reply K V := list [bound i.lower, bound i.upper]

/-- A reply, or the refusal that came instead. -/
def result {α : Type} (f : α → Reply K V) : Except Refusal α → Reply K V
  | .ok a => f a
  | .error refusal => refused refusal

mutual

/-- The notes that the refusals in a reply leave, in order. -/
def events : Reply K V → List Event
  | refused refusal => refusal.event?.toList
  | list items => eventsOfList items
  | answers items => eventsOfList items
  | _ => []

/-- The notes of several replies. -/
def eventsOfList : List (Reply K V) → List Event
  | [] => []
  | r :: rs => r.events ++ eventsOfList rs

end

end Reply

end SlotTree
