import SlotTree.Session.KeyOrder

/-
  Selectors — which of the keys visited one after the other are meant, and
  runs of keys in arithmetic progression.
-/
namespace SlotTree

/-- A rule that picks keys, by the key or by the number of the visit. -/
inductive Selector where
  | all
  | none
  /-- Numbers with a given remainder. -/
  | residue (modulus remainder : Int)
  /-- Every n-th visit, beginning with the first. -/
  | every (n : Nat)
  | oneOf (keys : List Key)
  /-- Keys before a given one in the natural order. -/
  | below (bound : Key)
  deriving Repr

namespace Selector

/-- Whether the key of a visit is meant; visits are numbered from zero. -/
def accepts (sel : Selector) (visit : Nat) (key : Key) : Bool :=
  match sel with
  | all => true
  | none => false
  | residue modulus remainder =>
    match key with
    | .int n => n.emod modulus == remainder
    | _ => false
  | every n => visit % n == 0
  | oneOf keys => keys.contains key
  | below bound => key.compare bound == .lt

/-- The visit that gives each value a new one, if there is one, and keeps the
entries that are meant. -/
def keep {V : Type} (sel : Selector) (set : Option V) (visit : Nat) (key : Key) (value : V) :
    V × Bool :=
  (set.getD value, sel.accepts visit key)

end Selector

/-- The numbers `i * factor + offset` for the first `n` numbers `i`, each
reduced to its remainder by `modulus`. -/
def progression (n : Nat) (factor offset modulus : Int) : List Int :=
  (List.range n).map (fun i => (Int.ofNat i * factor + offset).emod modulus)

end SlotTree
