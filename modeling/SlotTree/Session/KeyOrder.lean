import SlotTree.Session.Key

/-
  Orders of a session — the comparisons its trees can go by.

  Some are orders in good standing, some take different keys for equal, and
  the last ones break every law of an order: a tree has to stay sound under
  those too.
-/
namespace SlotTree

/-- A comparison that a session can ask for. -/
inductive KeyOrder where
  | natural
  | reverse
  /-- By size: the absolute value, the number of characters, the number of
  items. -/
  | bySize
  /-- By the remainder of a number by ten. -/
  | byLastDigit
  /-- Strings without regard to the case of the letters from A to Z. -/
  | ignoringCase
  /-- Every key equals every other. -/
  | alwaysEqual
  /-- Every key is less than every other. -/
  | alwaysLess
  /-- Every key is greater than every other. -/
  | alwaysGreater
  /-- By the difference of the remainders by three, round and round. -/
  | roundabout
  /-- Natural, or reversed while the session is flipped. -/
  | flipping
  deriving DecidableEq, Repr

namespace KeyOrder

/-- The size of a key. -/
def size : Key → Nat
  | .int n => n.natAbs
  | .str s => s.length
  | .list items => items.length

/-- The remainder of a number, never negative; that of any other key is
zero. -/
def residue (modulus : Int) : Key → Int
  | .int n => n.emod modulus
  | _ => 0

/-- A character with the letters from A to Z in lower case. -/
def lowerAscii (c : Char) : Char :=
  if 'A' ≤ c ∧ c ≤ 'Z' then Char.ofNat (c.toNat + 32) else c

/-- The order of keys without regard to the case of the letters from A to Z. -/
def compareIgnoringCase : Key → Key → Ordering
  | .str a, .str b => Ord.compare (a.map lowerAscii) (b.map lowerAscii)
  | a, b => a.compare b

/-- Equal, before or after, by how far `b` is ahead of `a` on a ring of
three. -/
def compareOnRing (a b : Key) : Ordering :=
  match (residue 3 b - residue 3 a).emod 3 with
  | 0 => .eq
  | 1 => .lt
  | _ => .gt

/-- The comparison, in a session that is flipped or not. -/
def compare (flipped : Bool) (o : KeyOrder) (a b : Key) : Ordering :=
  match o with
  | natural => a.compare b
  | reverse => b.compare a
  | bySize => Ord.compare (size a) (size b)
  | byLastDigit => Ord.compare (residue 10 a) (residue 10 b)
  | ignoringCase => compareIgnoringCase a b
  | alwaysEqual => .eq
  | alwaysLess => .lt
  | alwaysGreater => .gt
  | roundabout => compareOnRing a b
  | flipping => if flipped then b.compare a else a.compare b

end KeyOrder

end SlotTree
