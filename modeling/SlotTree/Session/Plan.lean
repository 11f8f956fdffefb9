import SlotTree.Tree.Traversal
import SlotTree.Session.Reply

/-
  Plans — lists of what to take from an iteration.

  A plan is carried out on a feed, whose state goes from one item of the plan
  to the next. What is shown of an entry depends on the kind of the iteration.
-/
namespace SlotTree

/-- One thing to do with an iteration. -/
inductive Pull where
  | take (s : Side)
  | hint
  | length
  /-- Lists what is left without taking it. -/
  | peekAll
  | takeAll (s : Side)
  deriving DecidableEq, Repr

/-- What an iteration shows of each entry. -/
inductive Shown where
  | entries
  | keys
  | values
  deriving DecidableEq, Repr

namespace Shown

variable {K V : Type}

/-- What is shown of an entry. -/
def reply (s : Shown) (e : K × V) : Reply K V :=
  match s with
  | entries => .entry e
  | keys => .key e.1
  | values => .value e.2

end Shown

/-- What an iteration over all entries goes through. -/
inductive Source where
  /-- The tree, node by node. -/
  | tree (shown : Shown)
  /-- The list of entries that a copy of the tree is given up for. -/
  | listed
  deriving DecidableEq, Repr

namespace Pull

variable {K V σ : Type}

/-- Carries out one item. `mayPeek` tells whether what is left can be listed
without taking it. -/
def run (f : Feed σ (K × V)) (mayPeek : Bool) (shown : Shown) (it : σ) :
    Pull → Except Fault (Reply K V × σ)
  | take s => do
    let (e, it) ← f.take s it
    return (.option shown.reply e, it)
  | hint =>
    let (least, most) := f.hint it
    .ok (.list [.count least, .option .count most], it)
  | length => .ok (.option .count (f.length it), it)
  | peekAll =>
    if mayPeek then do
      let (es, _) ← f.takeAll .left it
      return (.list (es.map shown.reply), it)
    else .ok (.nothing, it)
  | takeAll s => do
    let (es, it) ← f.takeAll s it
    return (.list (es.map shown.reply), it)

/-- Carries out a plan. -/
def runAll (f : Feed σ (K × V)) (mayPeek : Bool) (shown : Shown) :
    List Pull → σ → Except Fault (List (Reply K V))
  | [], _ => .ok []
  | p :: ps, it => do
    let (r, it) ← p.run f mayPeek shown it
    return r :: (← runAll f mayPeek shown ps it)

end Pull

variable {K V : Type}

/-- Carries out a plan on all entries of a tree. What is left can be listed
without taking it only when the tree shows whole entries. -/
def Tree.iterate (t : Tree K V) (source : Source) (plan : List Pull) :
    Except Fault (Reply K V) := do
  match source with
  | .tree shown =>
    let it ← t.traverse
    let mayPeek := shown = .entries
    return .list (← Pull.runAll (Feed.ofTree t) mayPeek shown plan it)
  | .listed =>
    let es ← t.copy.intoEntries
    return .list (← Pull.runAll (Feed.ofList (K × V)) false .entries plan es)

end SlotTree
