import SlotTree.Tree.Audit
import SlotTree.Session.WindowOp

/-
  Operations of a session on one tree — the questions and the changes.
-/
namespace SlotTree

/-- A question about a tree. -/
inductive Query (K : Type) where
  | size
  | isEmpty
  | revision
  | get (key : K)
  | entry (key : K)
  | contains (key : K)
  | index (key : K)
  | endKey (s : Side)
  | endEntry (s : Side)
  | nextKey (key : K)
  | previousKey (key : K)
  | ceilingKey (key : K)
  | floorKey (key : K)
  | higherKey (key : K)
  | lowerKey (key : K)
  /-- All answers about the neighbourhood of a key at once. -/
  | around (key : K)
  | compare (a b : K)
  | height
  | blackHeight
  | isSound
  | validate
  | text
  | outline
  /-- How many slots are occupied and how many are free. -/
  | occupancy
  | iterate (source : Source) (plan : List Pull)
  | window (bounds : Interval K) (ops : List (WindowRead K))
  /-- The common part of two intervals and whether the two are the same. -/
  | intersect (a b : Interval K)

/-- A change of a tree. -/
inductive Edit (K V : Type) where
  | insert (key : K) (value : V)
  | insertAll (entries : List (K × V))
  /-- Inserts one by one and counts the values that were replaced. -/
  | insertCounting (entries : List (K × V))
  | modify (key : K) (value : Option V)
  | remove (key : K)
  | removeEntry (key : K)
  /-- Removes one by one and counts the keys that were there. -/
  | removeCounting (keys : List K)
  | pop (s : Side)
  | clear
  | retain (visit : Nat → K → V → V × Bool)
  /-- Makes room for entries in cells of a width. -/
  | reserve (n : Nat) (width : Nat := 64)
  | window (bounds : Interval K) (ops : List (WindowWrite K V))

variable {K V : Type} [Written K] [Written V] [DecidableEq K]

namespace Query

/-- All answers about the neighbourhood of a key. -/
def runAround (cmp : K → K → Ordering) (t : Tree K V) (key : K) : Except Fault (Reply K V) := do
  return .list
    [.option .key (← t.lowerKey cmp key), .option .key (← t.floorKey cmp key),
      .option .value (← t.get? cmp key), .option .key (← t.ceilingKey cmp key),
      .option .key (← t.higherKey cmp key), .option .key (← t.previousKey cmp key),
      .option .key (← t.nextKey cmp key)]

/-- Answers a question. -/
def run (cmp : K → K → Ordering) (t : Tree K V) : Query K → Except Fault (Reply K V)
  | size => .ok (.count t.size)
  | isEmpty => .ok (.flag t.isEmpty)
  | revision => .ok (.count t.revision.toNat)
  | get key => Reply.option .value <$> t.get? cmp key
  | entry key => Reply.option .entry <$> t.entry? cmp key
  | contains key => Reply.flag <$> t.contains cmp key
  | index key =>
    match t.get cmp key with
    | .ok v => .ok (.value v)
    | .error fault => .ok (.broken fault)
  | endKey s => Reply.option .key <$> t.endKey s
  | endEntry s => Reply.option .entry <$> t.endEntry s
  | nextKey key => Reply.option .key <$> t.nextKey cmp key
  | previousKey key => Reply.option .key <$> t.previousKey cmp key
  | ceilingKey key => Reply.option .key <$> t.ceilingKey cmp key
  | floorKey key => Reply.option .key <$> t.floorKey cmp key
  | higherKey key => Reply.option .key <$> t.higherKey cmp key
  | lowerKey key => Reply.option .key <$> t.lowerKey cmp key
  | around key => runAround cmp t key
  | compare a b => .ok (.order (cmp a b))
  | height => Reply.count <$> t.height
  | blackHeight => Reply.count <$> t.blackHeight
  | isSound => Reply.flag <$> t.isSound cmp
  | validate => Reply.result (fun _ => .nothing) <$> t.validate cmp
  | text => Reply.text <$> t.text
  | outline => Reply.text <$> t.outline
  | occupancy => .ok (.list [.count t.slots.live, .count t.slots.free.length])
  | iterate source plan => t.iterate source plan
  | window bounds ops =>
    match Window.ofBounds cmp bounds with
    | .error refusal => .ok (.refused refusal)
    | .ok w => Reply.answers <$> WindowRead.runAll cmp t w ops
  | intersect a b =>
    let both := a.intersect cmp b
    .ok (.list [.bound both.lower, .bound both.upper, .flag (a = b)])

/-- The notes a question leaves: those of its refusals, and one for an audit
that failed. -/
def events (q : Query K) (t : Tree K V) (r : Reply K V) : List Event :=
  match q, r with
  | validate, .refused refusal => [Event.auditFailed refusal t.size]
  | _, r => r.events

end Query

namespace Edit

/-- Inserts one by one and counts the values that were replaced. -/
def runInserts (cmp : K → K → Ordering) :
    Tree K V → List (K × V) → Except Fault (Nat × Tree K V)
  | t, [] => .ok (0, t)
  | t, (key, value) :: rest => do
    let (old, t) ← t.insert cmp key value
    let (n, t) ← runInserts cmp t rest
    return (old.toList.length + n, t)

/-- Removes one by one and counts the keys that were there. -/
def runRemovals (cmp : K → K → Ordering) : Tree K V → List K → Except Fault (Nat × Tree K V)
  | t, [] => .ok (0, t)
  | t, key :: rest => do
    let (old, t) ← t.remove cmp key
    let (n, t) ← runRemovals cmp t rest
    return (old.toList.length + n, t)

/-- A visit that numbers the entries and lists their keys, the last one
first. -/
def listing (visit : Nat → K → V → V × Bool) (seen : List K) (key : K) (value : V) :
    List K × V × Bool :=
  (key :: seen, visit seen.length key value)

/-- Makes a change. -/
def run (cmp : K → K → Ordering) (t : Tree K V) :
    Edit K V → Except Fault (Reply K V × Tree K V)
  | insert key value => do
    let (old, t) ← t.insert cmp key value
    return (.option .value old, t)
  | insertAll entries => do return (.nothing, ← t.insertAll cmp entries)
  | insertCounting entries => do
    let (n, t) ← runInserts cmp t entries
    return (.count n, t)
  | modify key value => do
    let (old, t) ← t.modify cmp key (value.getD ·)
    return (.option .value old, t)
  | remove key => do
    let (old, t) ← t.remove cmp key
    return (.option .value old, t)
  | removeEntry key => do
    let (e, t) ← t.removeEntry cmp key
    return (.option .entry e, t)
  | removeCounting keys => do
    let (n, t) ← runRemovals cmp t keys
    return (.count n, t)
  | pop s => do
    let (e, t) ← t.pop s
    return (.option .entry e, t)
  | clear => .ok (.nothing, t.clear)
  | retain visit => do
    let (seen, t) ← t.retain (listing visit) []
    return (.list (seen.reverse.map .key), t)
  | reserve n width => do return (.flag true, ← t.reserve n width)
  | window bounds ops =>
    match Window.ofBounds cmp bounds with
    | .error refusal => .ok (.refused refusal, t)
    | .ok w => do
      let (rs, t) ← WindowWrite.runAll cmp t w ops
      return (.answers rs, t)

/-- The notes a change leaves: those of its refusals, and one for a tree that
is cleared. -/
def events (e : Edit K V) (before : Tree K V) (r : Reply K V) : List Event :=
  match e with
  | clear => [Event.cleared before.size]
  | _ => r.events

end Edit

end SlotTree
