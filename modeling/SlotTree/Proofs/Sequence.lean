import SlotTree.Proofs.Linked
import SlotTree.Proofs.Traversal

/-
  Sequences — the nodes of a linked tree in order, said of the links alone.

  `Tree.Linked` says without shapes that the nodes reached from the root form a
  tree whose links go both ways; `Tree.Lists` says, by recursion along the links
  down, which sequence of slots lies below a link. A tree is linked if and only
  if it holds some shape (`linked_iff`), and the sequence is then that of the
  shape (`Holds.lists`).

  Walks use the links up as well. A walk that begins at one end of the tree
  passes the sequence in the order in which that end hands it out: one step leads
  to the next slot (`Holds.step_along`), so `k` steps lead `k` places on
  (`Holds.advance_along`). `linked_sequence_walked` collects what walks do in any
  linked tree, red-black or not, with or without slots that nothing links to.
-/
namespace SlotTree

open Feed (handedOut)

variable {K V : Type}

namespace Tree

/-- The nodes that are reached from the root form a tree, and every link down is
matched by the link up. -/
structure Linked (t : Tree K V) : Prop where
  /-- The root has no parent. -/
  root : t.parentOf t.root = none
  /-- The nodes that are reached are in occupied slots. -/
  live : ∀ way i, t.follow t.root way = some i → t.slots.contains (some i) = true
  /-- A link down to a node is matched by the link up from it. -/
  back : ∀ way s i j, t.follow t.root way = some i → t.childOf s (some i) = some j →
    t.parentOf (some j) = some i
  /-- No node is reached twice. -/
  once : ∀ way way' i, t.follow t.root way = some i → t.follow t.root way' = some i → way = way'

/-- The slots of the nodes below a link, in order: those below the left child,
the node itself, those below the right child. -/
inductive Lists (t : Tree K V) : Link → List Nat → Prop where
  | none : Lists t none []
  | node {i : Nat} {n : Node K V} {before after : List Nat} :
    t.slots.get? (some i) = some n → Lists t n.left before → Lists t n.right after →
    Lists t (some i) (before ++ i :: after)

/-- The link that `k` steps to side `s` lead to. -/
def advance (t : Tree K V) (s : Side) : Nat → Link → Except Fault Link
  | 0, l => .ok l
  | k + 1, l => do t.advance s k (← t.step s l)

variable {t : Tree K V} {sh : Shape K V} {l p : Link} {vs vs' : List Nat} {i j : Nat}

/-! ## Linked trees and shapes -/

theorem Lists.unique (h : t.Lists l vs) (h' : t.Lists l vs') : vs = vs' := by
  induction h generalizing vs' with
  | none =>
    cases h'
    rfl
  | node hn _ _ ihl ihr =>
    cases h' with
    | node hn' hl' hr' =>
      obtain rfl := Option.some.inj (hn.symm.trans hn')
      rw [ihl hl', ihr hr']

theorem lists_of_lays (h : t.slots.Lays p sh) : t.Lists sh.link sh.ids := by
  induction sh generalizing p with
  | nil => exact .none
  | node c l i e r ihl ihr =>
    obtain ⟨hn, hl, hr⟩ := h
    rw [Shape.ids_node]
    exact .node hn (ihl hl) (ihr hr)

theorem Holds.lists (h : t.Holds sh) : t.Lists t.root sh.ids := by
  rw [h.root]
  exact lists_of_lays h.lays

theorem Holds.follow (h : t.Holds sh) (way : List Side) :
    t.follow t.root way = (sh.down way).link := by
  rw [h.root]
  exact (follow_lays h.lays way).1

theorem Holds.mem_iff (h : t.Holds sh) : i ∈ sh.ids ↔ ∃ way, t.follow t.root way = some i := by
  rw [h.root]
  exact mem_ids_iff h.lays

theorem Holds.linked (h : t.Holds sh) : t.Linked where
  root := by
    cases hl : sh.link with
    | none => simp [h.root, hl, parentOf]
    | some i =>
      rw [h.root]
      exact parentOf_lays h.lays (by simp [hl])
  live := by
    intro way i hi
    apply Slots.contains_iff.mpr
    exact get?_of_mem h.lays (h.mem_iff.mpr ⟨way, hi⟩)
  back := by
    intro way s i j hi hj
    obtain ⟨hlink, q, hlays⟩ := follow_lays h.lays way
    rw [h.root, hlink] at hi
    rw [← hi, childOf_lays hlays] at hj
    rw [← hj, ← hi]
    exact parentOf_lays (lays_child hlays s) (by simp [hj])
  once := by
    intro way way' i hi hi'
    rw [h.follow] at hi hi'
    exact Shape.down_inj h.nodup hi hi'

/-- The links of a linked tree are those of a shape. -/
theorem Linked.exists_holds (h : t.Linked) : ∃ sh, t.Holds sh := by
  have hmatched : t.Matched t.root :=
    ⟨fun way i hi => Slots.contains_iff.mp (h.live way i hi), h.back⟩
  obtain ⟨sh, hlink, hlays, -⟩ := hmatched.exists_lays h.root
  refine ⟨sh, hlink, hlays, ?_⟩
  apply Shape.nodup_of_down
  intro way way' i hi hi'
  rw [← (follow_lays hlays way).1, ← hlink] at hi
  rw [← (follow_lays hlays way').1, ← hlink] at hi'
  exact h.once way way' i hi hi'

theorem linked_iff : t.Linked ↔ ∃ sh, t.Holds sh :=
  ⟨Linked.exists_holds, fun ⟨_, h⟩ => h.linked⟩

theorem Linked.holds (h : t.Linked) (hv : t.Lists t.root vs) : ∃ sh, t.Holds sh ∧ sh.ids = vs := by
  obtain ⟨sh, hsh⟩ := h.exists_holds
  exact ⟨sh, hsh, hsh.lists.unique hv⟩

/-! ## Steps -/

variable {s : Side} {behind ahead : List Nat}

theorem Holds.endNode_along (h : t.Holds sh) (s : Side) :
    t.endNode s = .ok (handedOut s sh.ids).head? := by
  rw [h.endNode]
  cases s <;> simp [Side.tip, handedOut, Shape.ids, List.head?_reverse]

/-- One step away from an end leads to the next slot that it hands out. -/
theorem Holds.step_along (h : t.Holds sh) (hs : handedOut s sh.ids = behind ++ i :: ahead) :
    t.step s.other (some i) = .ok ahead.head? := by
  -- The places in the sequence of slots are those in the list of items.
  have split : ∀ before after : List Nat, sh.ids = before ++ i :: after →
      ∃ (xs : List (Nat × K × V)) (e : K × V) (ys : List (Nat × K × V)),
        sh.items = xs ++ (i, e) :: ys ∧ xs.map (·.1) = before ∧ ys.map (·.1) = after := by
    intro before after hids
    obtain ⟨xs, zs, hitems, hbefore, hzs⟩ := List.map_eq_append_iff.mp hids
    obtain ⟨⟨j, e⟩, ys, rfl, rfl, hafter⟩ := List.map_eq_cons_iff.mp hzs
    exact ⟨xs, e, ys, hitems, hbefore, hafter⟩
  cases s with
  | left =>
    obtain ⟨xs, e, ys, hitems, -, rfl⟩ := split behind ahead hs
    rw [List.head?_map]
    exact h.neighbour_right hitems
  | right =>
    have hids : sh.ids = ahead.reverse ++ i :: behind.reverse := by
      have hrev := congrArg List.reverse hs
      simpa [handedOut] using hrev
    obtain ⟨xs, e, ys, hitems, hxs, -⟩ := split _ _ hids
    have hhead : ahead.head? = xs.getLast?.map (·.1) := by
      rw [← List.getLast?_map, hxs, List.getLast?_reverse]
    rw [hhead]
    exact h.neighbour_left hitems

/-- So many steps lead as many places on, and past the end to no slot. -/
theorem Holds.advance_along (h : t.Holds sh) (hs : handedOut s sh.ids = behind ++ ahead)
    (k : Nat) : t.advance s.other k ahead.head? = .ok ahead[k]? := by
  induction k generalizing behind ahead with
  | zero => cases ahead <;> rfl
  | succ k ih =>
    cases ahead with
    | nil =>
      have hstay := ih hs
      simpa [advance, step] using hstay
    | cons i rest =>
      have hs' : handedOut s sh.ids = (behind ++ [i]) ++ rest := by simp [hs]
      simp only [advance, List.head?_cons, h.step_along hs, ok_bind, List.getElem?_cons_succ]
      exact ih hs'

/-- The walk from one end passes every slot of the sequence. -/
theorem Holds.advance_endNode (h : t.Holds sh) (s : Side) (k : Nat) :
    (do t.advance s.other k (← t.endNode s)) = .ok (handedOut s sh.ids)[k]? := by
  rw [h.endNode_along, ok_bind]
  exact h.advance_along (List.nil_append _).symm k

theorem Holds.step_back (h : t.Holds sh) (hi : i ∈ sh.ids)
    (hj : t.step s.other (some i) = .ok (some j)) : t.step s (some j) = .ok (some i) := by
  have hmem : i ∈ handedOut s sh.ids := by cases s <;> simpa [handedOut] using hi
  obtain ⟨behind, ahead, hs⟩ := List.append_of_mem hmem
  rw [h.step_along hs] at hj
  obtain ⟨rest, rfl⟩ : ∃ rest, ahead = j :: rest := by
    cases ahead with
    | nil => cases hj
    | cons k rest =>
      simp only [List.head?_cons, Except.ok.injEq, Option.some.injEq] at hj
      exact ⟨rest, by rw [hj]⟩
  -- From the other end `i` comes right after `j`.
  have hback : handedOut s.other sh.ids = rest.reverse ++ j :: (i :: behind.reverse) := by
    have hrev := congrArg List.reverse hs
    cases s <;> simpa [handedOut, Side.other] using hrev
  have hstep := h.step_along hback
  rwa [Side.other_other] at hstep

end Tree

/-- In any linked tree the first and the last node are the ends of the sequence,
a step leads to the next slot on either side, or to none past the end, and a step
back undoes it. The walk from either end passes every node that is reached, each
once, and has left the tree after as many steps as there are nodes. -/
theorem linked_sequence_walked {t : Tree K V} (h : t.Linked) :
    ∃ vs, t.Lists t.root vs ∧ vs.Nodup ∧ (∀ i, i ∈ vs ↔ ∃ way, t.follow t.root way = some i) ∧
      t.firstNode = .ok vs.head? ∧ t.lastNode = .ok vs.getLast? ∧
      (∀ before i after, vs = before ++ i :: after →
        t.step .right (some i) = .ok after.head? ∧ t.step .left (some i) = .ok before.getLast?) ∧
      (∀ s i j, i ∈ vs → t.step s (some i) = .ok (some j) →
        t.step s.other (some j) = .ok (some i)) ∧
      (∀ k, (do t.advance .right k (← t.firstNode)) = .ok vs[k]?) ∧
      ∀ k, (do t.advance .left k (← t.lastNode)) = .ok vs.reverse[k]? := by
  obtain ⟨sh, hsh⟩ := h.exists_holds
  refine ⟨sh.ids, hsh.lists, hsh.nodup, fun i => hsh.mem_iff, hsh.endNode_along .left, ?_, ?_, ?_,
    hsh.advance_endNode .left, hsh.advance_endNode .right⟩
  · have hlast := hsh.endNode_along .right
    rwa [handedOut, List.head?_reverse] at hlast
  · intro before i after hids
    have hback : handedOut .right sh.ids = after.reverse ++ i :: before.reverse := by
      simp [handedOut, hids]
    have hleft := hsh.step_along hback
    rw [List.head?_reverse] at hleft
    exact ⟨hsh.step_along (s := .left) hids, hleft⟩
  · intro s i j hi hj
    apply hsh.step_back hi
    rwa [Side.other_other]

/-- Four linked nodes under a red root, in slots out of order, beside one that
nothing links to. -/
def unevenTree : Tree Int Int where
  slots := ⟨#[some ⟨1, 10, none, some 4, some 2, .red⟩, some ⟨7, 70, none, none, some 2, .black⟩,
    some ⟨5, 50, some 0, some 1, none, .red⟩, some ⟨9, 90, some 2, none, none, .black⟩,
    some ⟨3, 30, none, none, some 0, .black⟩], [], 5⟩
  root := some 2
  size := 4
  revision := 6

/-- The shape that the links make. -/
def unevenShape : Shape Int Int :=
  .node .red (.node .red .nil 0 (1, 10) (.node .black .nil 4 (3, 30) .nil)) 2 (5, 50)
    (.node .black .nil 1 (7, 70) .nil)

theorem unevenTree_holds : unevenTree.Holds unevenShape where
  root := rfl
  lays := ⟨rfl, ⟨rfl, trivial, rfl, trivial, trivial⟩, rfl, trivial, trivial⟩
  nodup := by decide

/-- Its walk passes the slots 0, 4, 2 and 1. -/
theorem unevenTree_walked :
    unevenTree.Linked ∧ unevenTree.Lists unevenTree.root [0, 4, 2, 1] ∧
      unevenTree.step .right (some 4) = .ok (some 2) ∧
      unevenTree.step .left (some 2) = .ok (some 4) ∧
      (do unevenTree.advance .right 3 (← unevenTree.firstNode)) = .ok (some 1) ∧
      (do unevenTree.advance .right 4 (← unevenTree.firstNode)) = .ok none := by
  have hlinked := unevenTree_holds.linked
  obtain ⟨vs, hlists, -, -, -, -, hstep, hback, hwalk, -⟩ := linked_sequence_walked hlinked
  obtain rfl := hlists.unique unevenTree_holds.lists
  have hright := (hstep [0] 4 [2, 1] rfl).1
  exact ⟨hlinked, hlists, hright, hback .right 4 2 (by decide) hright, hwalk 3, hwalk 4⟩

end SlotTree
