import SlotTree.Window
import SlotTree.Session.Plan

/-
  Operations of a session on windows, with windows inside windows.

  A list of operations on a window is answered one by one. Narrowing a window
  opens another one for a list of operations of its own.
-/
namespace SlotTree

/-- An operation that only reads. -/
inductive WindowRead (K : Type) where
  | bounds
  | text
  | admits (key : K)
  | endKey (s : Side)
  | endEntry (s : Side)
  | get (key : K)
  | contains (key : K)
  | nextKey (key : K)
  | previousKey (key : K)
  | count
  | isEmpty
  | iterate (shown : Shown) (plan : List Pull)
  | narrow (bounds : Interval K) (ops : List (WindowRead K))

/-- An operation that may change the tree. -/
inductive WindowWrite (K V : Type) where
  | read (op : WindowRead K)
  | insert (key : K) (value : V)
  | remove (key : K)
  | modify (key : K) (value : Option V)
  | pop (s : Side)
  | clear
  | asReadOnly (ops : List (WindowRead K))
  | narrow (bounds : Interval K) (ops : List (WindowWrite K V))

variable {K V : Type} [Written K]

namespace WindowRead

mutual

/-- Carries out an operation. -/
def run (cmp : K → K → Ordering) (t : Tree K V) (w : Window K) :
    WindowRead K → Except Fault (Reply K V)
  | bounds => .ok (.interval w.interval)
  | text => .ok (.text w.interval.text)
  | admits key => .ok (.flag (w.admits cmp key))
  | endKey s => Reply.option .key <$> w.endKey cmp t s
  | endEntry s => Reply.option .entry <$> w.endEntry cmp t s
  | get key => Reply.option .value <$> w.get? cmp t key
  | contains key => Reply.flag <$> w.contains cmp t key
  | nextKey key => Reply.option .key <$> w.nextKey cmp t key
  | previousKey key => Reply.option .key <$> w.previousKey cmp t key
  | count => Reply.count <$> w.count cmp t
  | isEmpty => Reply.flag <$> w.isEmpty cmp t
  | iterate shown plan => do
    let it ← w.span cmp t
    return .list (← Pull.runAll (Feed.ofSpan t) false shown plan it)
  | narrow further ops =>
    match w.narrow cmp further with
    | .error refusal => .ok (.refused refusal)
    | .ok inner => Reply.answers <$> runAll cmp t inner ops

/-- Carries out operations one after the other. -/
def runAll (cmp : K → K → Ordering) (t : Tree K V) (w : Window K) :
    List (WindowRead K) → Except Fault (List (Reply K V))
  | [] => .ok []
  | op :: ops => do
    let r ← run cmp t w op
    return r :: (← runAll cmp t w ops)

end

end WindowRead

namespace WindowWrite

/-- The reply to a change that may be refused, with the tree it leaves. -/
def settle (t : Tree K V) : Except Refusal (Option V × Tree K V) → Reply K V × Tree K V
  | .error refusal => (.refused refusal, t)
  | .ok (old, t) => (.option .value old, t)

mutual

/-- Carries out an operation. -/
def run (cmp : K → K → Ordering) (t : Tree K V) (w : Window K) :
    WindowWrite K V → Except Fault (Reply K V × Tree K V)
  | read op => do return (← op.run cmp t w, t)
  | insert key value => settle t <$> w.insert cmp t key value
  | remove key => settle t <$> w.remove cmp t key
  | modify key value => do
    let (old, t) ← w.modify cmp t key (value.getD ·)
    return (.option .value old, t)
  | pop s => do
    let (e, t) ← w.pop cmp t s
    return (.option .entry e, t)
  | clear => do return (.nothing, ← w.clear cmp t)
  | asReadOnly ops => do return (.answers (← WindowRead.runAll cmp t w ops), t)
  | narrow bounds ops =>
    match w.narrow cmp bounds with
    | .error refusal => .ok (.refused refusal, t)
    | .ok inner => do
      let (rs, t) ← runAll cmp t inner ops
      return (.answers rs, t)

/-- Carries out operations one after the other. -/
def runAll (cmp : K → K → Ordering) (t : Tree K V) (w : Window K) :
    List (WindowWrite K V) → Except Fault (List (Reply K V) × Tree K V)
  | [] => .ok ([], t)
  | op :: ops => do
    let (r, t) ← run cmp t w op
    let (rs, t) ← runAll cmp t w ops
    return (r :: rs, t)

end

end WindowWrite

end SlotTree
