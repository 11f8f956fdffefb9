import SlotTree.Node
import SlotTree.Refusal
import SlotTree.Written

/-
  Intervals — the keys between two bounds, under a comparison the caller
  brings.

  Each bound is included, excluded or missing. What holds for the lower bound
  holds for the upper one with the sides exchanged, so most definitions take
  the side of the bound as a parameter.
-/
namespace SlotTree

/-- One end of an interval. -/
inductive Bound (K : Type) where
  | included (key : K)
  | excluded (key : K)
  | unbounded
  deriving DecidableEq, Repr

namespace Bound

variable {K : Type}

/-- The key of a bound that has one. -/
def key? : Bound K → Option K
  | .included k | .excluded k => some k
  | .unbounded => none

/-- Whether the bound keeps its own key out. -/
def isExcluded : Bound K → Bool
  | .excluded _ => true
  | _ => false

/-- Whether a key lies beyond the bound, which ends an interval on side `s`. -/
def isBeyond (cmp : K → K → Ordering) (s : Side) (b : Bound K) (key : K) : Bool :=
  match b with
  | .included k => cmp key k == s.order
  | .excluded k => cmp key k != s.other.order
  | .unbounded => false

/-- Of two bounds on side `s` the one that lets fewer keys in. On equal keys
an excluded bound wins. -/
def tighter (cmp : K → K → Ordering) (s : Side) (a b : Bound K) : Bound K :=
  match a.key?, b.key? with
  | none, _ => b
  | some _, none => a
  | some x, some y =>
    match cmp x y with
    | .eq => if a.isExcluded then a else b
    | order => if order = s.other.order then a else b

/-- The text of a bound. -/
def text [Written K] : Bound K → String
  | .included k => "Included(" ++ Written.text k ++ ")"
  | .excluded k => "Excluded(" ++ Written.text k ++ ")"
  | .unbounded => "Unbounded"

end Bound

/-- The keys between a lower and an upper bound. -/
structure Interval (K : Type) where
  lower : Bound K
  upper : Bound K
  deriving DecidableEq, Repr

namespace Interval

variable {K : Type}

/-- The bound on one side. -/
def bound (i : Interval K) : Side → Bound K
  | .left => i.lower
  | .right => i.upper

/-- Whether a key lies beyond the interval on side `s`. -/
def isBeyond (cmp : K → K → Ordering) (i : Interval K) (s : Side) (key : K) : Bool :=
  (i.bound s).isBeyond cmp s key

/-- Whether a key lies between the bounds. -/
def contains (cmp : K → K → Ordering) (i : Interval K) (key : K) : Bool :=
  !i.isBeyond cmp .left key && !i.isBeyond cmp .right key

/-- What is wrong with the bounds: a lower key above the upper one, or one key
that both keep out. -/
def flaw? (cmp : K → K → Ordering) (i : Interval K) : Option RangeFlaw :=
  match i.lower.key?, i.upper.key? with
  | some lo, some hi =>
    match cmp lo hi with
    | .gt => some .inverted
    | .eq => if i.lower.isExcluded && i.upper.isExcluded then some .bothExcluded else none
    | .lt => none
  | _, _ => none

/-- Refuses bounds that have a flaw. -/
def check (cmp : K → K → Ordering) (i : Interval K) : Except Refusal Unit :=
  match i.flaw? cmp with
  | some flaw => .error (.invalidRange flaw)
  | none => .ok ()

/-- The keys that lie in both intervals. -/
def intersect (cmp : K → K → Ordering) (a b : Interval K) : Interval K :=
  ⟨a.lower.tighter cmp .left b.lower, a.upper.tighter cmp .right b.upper⟩

/-- Whether the bounds share one key that exactly one of them keeps out. -/
def meetsAtGap (cmp : K → K → Ordering) (i : Interval K) : Bool :=
  match i.lower, i.upper with
  | .included lo, .excluded hi | .excluded lo, .included hi => cmp lo hi == .eq
  | _, _ => false

/-- The part of an interval between further bounds, which are refused if they
have a flaw of their own or nothing in common with the interval. -/
def narrow (cmp : K → K → Ordering) (i requested : Interval K) : Except Refusal (Interval K) := do
  requested.check cmp
  let both := i.intersect cmp requested
  both.check cmp
  if both.meetsAtGap cmp then .error (.invalidRange .disjoint) else .ok both

/-- The text of an interval. -/
def text [Written K] (i : Interval K) : String :=
  "KeyRange \x7b lower: " ++ i.lower.text ++ ", upper: " ++ i.upper.text ++ " \x7d"

end Interval

end SlotTree
