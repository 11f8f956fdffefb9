import SlotTree.Written

/-
  Keys and values of a session — numbers, strings and lists of keys.

  In the natural order numbers come before strings and strings before lists;
  numbers compare as numbers, strings by their code points and lists item by
  item, a proper beginning of a list before the list.
-/
namespace SlotTree

/-- A number, a string or a list of keys. -/
inductive Key where
  | int (n : Int)
  | str (s : String)
  | list (items : List Key)
  deriving Repr

/-- A number or a string. -/
inductive Value where
  | int (n : Int)
  | str (s : String)
  deriving Repr, DecidableEq

namespace Key

mutual

/-- Decides whether two keys are the same. -/
def decEq : (a b : Key) → Decidable (a = b)
  | .int a, .int b => if h : a = b then isTrue (by rw [h]) else isFalse (by simp [h])
  | .str a, .str b => if h : a = b then isTrue (by rw [h]) else isFalse (by simp [h])
  | .list a, .list b =>
    match decEqLists a b with
    | isTrue h => isTrue (by rw [h])
    | isFalse h => isFalse (by simp [h])
  | .int _, .str _ | .int _, .list _ | .str _, .int _ | .str _, .list _ | .list _, .int _
  | .list _, .str _ => isFalse nofun

/-- Decides whether two lists of keys are the same. -/
def decEqLists : (a b : List Key) → Decidable (a = b)
  | [], [] => isTrue rfl
  | [], _ :: _ | _ :: _, [] => isFalse nofun
  | a :: as, b :: bs =>
    match decEq a b, decEqLists as bs with
    | isTrue h, isTrue hs => isTrue (by rw [h, hs])
    | isFalse h, _ => isFalse (by simp [h])
    | _, isFalse hs => isFalse (by simp [hs])

end

instance : DecidableEq Key := decEq

mutual

/-- The natural order. -/
def compare : Key → Key → Ordering
  | .int a, .int b => Ord.compare a b
  | .int _, _ => .lt
  | .str _, .int _ => .gt
  | .str a, .str b => Ord.compare a b
  | .str _, .list _ => .lt
  | .list a, .list b => compareLists a b
  | .list _, _ => .gt

/-- The natural order of lists. -/
def compareLists : List Key → List Key → Ordering
  | [], [] => .eq
  | [], _ :: _ => .lt
  | _ :: _, [] => .gt
  | a :: as, b :: bs => (compare a b).then (compareLists as bs)

end

mutual

/-- The text of a key. -/
def text : Key → String
  | .int n => Written.text n
  | .str s => Written.text s
  | .list items => "[" ++ commaSeparated (texts items) ++ "]"

/-- The texts of several keys. -/
def texts : List Key → List String
  | [] => []
  | k :: ks => k.text :: texts ks

end

end Key

instance : Written Key := ⟨Key.text⟩

/-- The text of a value. -/
def Value.text : Value → String
  | .int n => Written.text n
  | .str s => Written.text s

instance : Written Value := ⟨Value.text⟩

end SlotTree
