import SlotTree.Proofs.Changes
import SlotTree.Proofs.MirrorBalance

/-
  Mirrored edits — two trees that are driven apart stay mirror images.

  One tree goes by a comparison and the other one by the comparison turned round,
  both from empty. The same keys are inserted into both, the same keys removed,
  and where the least entry is taken from one the greatest is taken from the
  other. As long as no removed node has two children, each tree is the mirror
  image of the other one after every step, and when one of them runs out of
  room, so does the other (`mirrored_trace`).

  A node with two children is the one place where the code prefers a side: the
  entry that follows takes its place, never the one before.
-/
namespace SlotTree

variable {K V : Type}

/-! ## Insertion -/

/-- What an insertion answers, with the mirror image of the tree. -/
def Inserted.mirror (r : Inserted K V) : Inserted K V := { r with tree := r.tree.mirror }

namespace Tree

variable {t : Tree K V} {up : Trail K V} {items before after : List (Nat × K × V)} {i : Nat}
  {e : K × V} {key : K} {value : V}

theorem attach_mirror (t : Tree K V) (key : K) (value : V) (place : Option (Nat × Side)) :
    t.mirror.attach key value (place.map (Prod.map id Side.other)) =
      Prod.map id mirror <$> t.attach key value place := by
  have halloc := Slots.allocate_map Node.mirror t.slots
    (Node.leaf key value (place.map (·.1)))
  cases place with
  | none =>
    simp only [attach, Option.map_none] at halloc ⊢
    rw [show t.mirror.slots.allocate (Node.leaf key value none) = _ from halloc]
    apply map_bind_map
    intro r _
    rfl
  | some place =>
    obtain ⟨parent, s⟩ := place
    simp only [attach, Option.map_some, Prod.map, id] at halloc ⊢
    rw [show t.mirror.slots.allocate (Node.leaf key value (some parent)) = _ from halloc]
    apply map_bind_map
    rintro ⟨i, slots⟩ _
    let t₁ : Tree K V := { t with slots := slots, size := t.size + 1 }.touched
    have hset := setChild_mirror t₁ s parent (some i)
    apply (congrArg (fun r => r >>= fun t' => pure (_, t')) hset).trans
    apply map_bind_map
    intro t₂ _
    rfl

theorem graft_mirror (h : t.Sound (up.fill .nil)) (key : K) (value : V) :
    t.mirror.graft key value (up.place.map (Prod.map id Side.other)) =
      Inserted.mirror <$> t.graft key value up.place := by
  by_cases hroom : t.slots.next < absentNumber
  case neg =>
    rw [graft, graft, attach_mirror, attach_exhausted hroom]
    rfl
  obtain ⟨i, t₁, hattach, -, -, hf⟩ := attach_ok h hroom key value
  obtain ⟨m, hm⟩ := h.balanced
  obtain ⟨c, n, hup, hnil⟩ := Trail.takes_of_fill hm
  cases hnil
  have hmend := mendRed_mirror hf (.red .nil .nil) hup
  rw [Shape.link_node] at hmend
  simp only [graft, attach_mirror, hattach, map_ok, ok_bind, Prod.map, id, hmend]
  apply map_bind_map
  intro t₂ _
  rfl

theorem overwrite_mirror (t : Tree K V) (i : Nat) (value : V) :
    t.mirror.overwrite i value = Inserted.mirror <$> t.overwrite i value := by
  simp only [overwrite, node_mirror]
  apply map_bind_map
  intro n _
  rw [setValue_mirror]
  apply map_bind_map
  intro t₁ _
  rfl

theorem insert_mirror (cmp : K → K → Ordering) (h : t.Keeps items) (key : K) (value : V) :
    t.mirror.insert (turned cmp) key value = Prod.map id mirror <$> t.insert cmp key value := by
  obtain ⟨-, sh, hsound, rfl⟩ := h
  have hnode : t.mirror.insertNode (turned cmp) key value =
      Inserted.mirror <$> t.insertNode cmp key value := by
    obtain ⟨l, hrun, hl⟩ := locate_ok cmp hsound.holds key
    simp only [insertNode, locate_mirror, hrun, map_ok, ok_bind]
    cases hl with
    | found hm => exact overwrite_mirror t _ value
    | below hs => exact graft_mirror (hs.1 ▸ hsound) key value
    | nowhere hs => exact graft_mirror (hs.1 ▸ hsound) key value
  rw [insert, insert, hnode]
  apply map_bind_map
  intro r _
  rfl

/-! ## Removal -/

theorem unlink_child_mirror {s : Side} {c : Color} {sub : Shape K V} {j : Nat}
    (h : t.Focus up (.branch s c sub i e .nil)) (hj : sub.link = some j) {m : Nat}
    (hb : (up.fill (.branch s c sub i e .nil)).Balanced .black m) :
    t.mirror.unlink i = mirror <$> t.unlink i := by
  obtain ⟨c', n, -, hbal⟩ := Trail.takes_of_fill hb
  obtain ⟨rfl, rfl, rfl, hred⟩ := hbal.only_child hj
  obtain ⟨t₁, t₂, hset, hreplace, -, hf⟩ := splice_ok h hj
  have hhung : t₁.Hung up.hook i :=
    (h.hung (Shape.link_branch ..)).congr (fun _ _ _ => childOf_setParent hset _ _)
  have hset' := setParent_mirror t j up.hook
  have hreplace' := replaceChild_mirror hhung (some j)
  rw [hset, map_ok] at hset'
  rw [hreplace, map_ok] at hreplace'
  have hcol : t₂.colorOf (some j) = .red := by
    rw [← hj, hf.colorOf]
    exact hred.color_eq
  simp only [unlink, node_mirror, node_ok h.get?, map_ok, ok_bind, Shape.link_nil, Node.mirror_of,
    Node.left_or_right_of, hj, Node.parent_of, Node.color_of, hset, hset', hreplace, hreplace',
    if_true]
  exact mendBlack_red_mirror hcol

theorem prune_mirror {c : Color} (h : t.Focus up (.branch .left c .nil i e .nil)) :
    (do
      match (← t.mirror.node i).parent with
      | none => return t.mirror
      | some p => t.mirror.replaceChild (some p) i none) =
    mirror <$> (do
      match (← t.node i).parent with
      | none => return t
      | some p => t.replaceChild (some p) i none) := by
  simp only [node_mirror, node_ok h.get?, map_ok, ok_bind, Node.mirror_of, Node.parent_of]
  cases hup : up.hook with
  | none => rfl
  | some p =>
    have hhung := h.hung (Shape.link_branch ..)
    rw [hup] at hhung
    exact replaceChild_mirror hhung none

theorem unlink_leaf_mirror {c : Color} (h : t.Focus up (.branch .left c .nil i e .nil)) {m : Nat}
    (hb : (up.fill (.branch .left c .nil i e .nil)).Balanced .black m) :
    t.mirror.unlink i = mirror <$> t.unlink i := by
  obtain ⟨c', n, hup, hbal⟩ := Trail.takes_of_fill hb
  simp only [unlink, node_mirror, node_ok h.get?, map_ok, ok_bind, Shape.link_nil, Node.mirror_of,
    Node.left_or_right_of, Node.parent_of, Node.color_of]
  cases hhook : up.hook with
  | none => rfl
  | some p =>
    cases c with
    | red => exact prune_mirror h
    | black =>
      obtain ⟨rfl, k, c₁, c₂, rfl, -, -⟩ := Shape.balanced_black.mp hbal
      obtain ⟨t₁, up₁, hrun, -, hf, -, -⟩ :=
        mendBlack_ok h (by simp) (by simp) hup h.length_lt_patience
      have hmend := mendBlack_mirror h (by simp) (by simp) hup
      rw [hrun, map_ok] at hmend
      rw [Shape.link_branch] at hrun hmend
      simp only [if_true, hrun, hmend, ok_bind]
      exact prune_mirror hf

theorem unlink_mirror {sh : Shape K V} (h : t.Sound sh) (hs : sh.items = before ++ (i, e) :: after)
    {n : Node K V} (hn : t.slots.get? (some i) = some n) (hone : n.left = none ∨ n.right = none) :
    t.mirror.unlink i = mirror <$> t.unlink i := by
  obtain ⟨up, c, l, r, rfl, hf, rfl, rfl⟩ := h.holds.focus_at hs
  obtain ⟨m, hm⟩ := h.balanced
  obtain rfl := Option.some.inj (hn.symm.trans (Focus.get? (s := .left) hf))
  -- The node, seen from the side on which it may have a child.
  obtain ⟨s, sub, hnode⟩ : ∃ (s : Side) (sub : Shape K V),
      Shape.node c l i e r = .branch s c sub i e .nil := by
    rcases hone with hl | hr
    · obtain rfl := Shape.link_eq_none.mp hl
      exact ⟨.right, r, rfl⟩
    · obtain rfl := Shape.link_eq_none.mp hr
      exact ⟨.left, l, rfl⟩
  rw [hnode] at hf hm
  cases hj : sub.link with
  | some j => exact unlink_child_mirror hf hj hm
  | none =>
    obtain rfl := Shape.link_eq_none.mp hj
    have hleaf : Shape.branch s c .nil i e .nil = .branch .left c .nil i e .nil := by
      cases s <;> rfl
    rw [hleaf] at hf hm
    exact unlink_leaf_mirror hf hm

/-- Whether the node of a link lacks a child on one side at least. -/
def lacksChild (t : Tree K V) (l : Link) : Bool :=
  (t.childOf .left l).isNone || (t.childOf .right l).isNone

theorem chooseTarget_lacking {n : Node K V} (hone : n.left = none ∨ n.right = none)
    (t : Tree K V) (i : Nat) :
    t.chooseTarget i n = (fun next => (t, i, next)) <$> t.neighbour .right i := by
  rcases hone with hl | hr
  · simp only [chooseTarget, hl]
    rfl
  · cases hl : n.left with
    | none =>
      simp only [chooseTarget, hl]
      rfl
    | some a =>
      simp only [chooseTarget, hl, hr]
      rfl

/-- What a removal leaves, step by step. -/
theorem takeNode_run {t₀ t₁ : Tree K V} {n gone : Node K V} {j size : Nat} {next : Link}
    {slots : Slots (Node K V)} (hn : t.slots.get? (some i) = some n)
    (hchoose : t.chooseTarget i n = .ok (t₀, j, next)) (hunlink : t₀.unlink j = .ok t₁)
    (hrelease : t₁.slots.release (some j) = .ok (some (gone, slots))) (hsize : t₁.size = size + 1) :
    t.takeNode (some i) =
      .ok (some (gone.key, gone.value), { t₁ with slots := slots, size := size }.touched) := by
  simp [takeNode, eraseNode, hn, hchoose, hunlink, hrelease, hsize, countDown]

theorem takeNode_mirror (h : t.Keeps (before ++ (i, e) :: after))
    (hlacks : t.lacksChild (some i) = true) :
    t.mirror.takeNode (some i) = Prod.map id mirror <$> t.takeNode (some i) := by
  obtain ⟨n, hn, -⟩ := h.get?
  have hone : n.left = none ∨ n.right = none := by
    simpa [lacksChild, childOf, hn, Node.child] using hlacks
  obtain ⟨t₁, gone, slots, hunlink, hrelease, -, -, hsize, -⟩ := free_ok h hn hone
  -- The two removals differ in the slot that they report to follow, which is not answered.
  have hchoose := chooseTarget_lacking hone t i
  have hchoose' := chooseTarget_lacking (n := n.mirror) hone.symm t.mirror i
  have hnext := neighbour_mirror t .left i
  rw [h.neighbour_left] at hnext
  rw [h.neighbour_right, map_ok] at hchoose
  rw [show t.mirror.neighbour .right i = _ from hnext, map_ok] at hchoose'
  obtain ⟨-, sh, hsound, hs⟩ := h
  have hunlink' := unlink_mirror hsound hs hn hone
  rw [hunlink, map_ok] at hunlink'
  have hrelease' := Slots.release_map Node.mirror t₁.slots (some i)
  rw [hrelease, map_ok] at hrelease'
  have hsize' : t₁.mirror.size = (before ++ after).length + 1 := hsize
  have hn' : t.mirror.slots.get? (some i) = some n.mirror := by rw [get?_mirror, hn, Option.map_some]
  rw [takeNode_run hn hchoose hunlink hrelease hsize,
    takeNode_run hn' hchoose' hunlink' hrelease' hsize']
  rfl

theorem lacksChild_end {s : Side} {l : Link} (hrun : t.endNode s = .ok l) :
    t.lacksChild l = true := by
  have hnone : t.childOf s l = none := by
    cases hroot : t.root with
    | none =>
      rw [endNode, hroot] at hrun
      obtain rfl := Except.ok.inj hrun
      rfl
    | some i =>
      rw [endNode, hroot] at hrun
      cases hout : t.outermost s i with
      | error f => simp [hout] at hrun
      | ok j =>
        simp only [hout, map_ok, Except.ok.injEq] at hrun
        rw [← hrun]
        exact slide_child hout
  cases s <;> simp [lacksChild, hnone]

theorem takeNode_link_mirror (h : t.Keeps items) {l : Link} (hl : Names items l)
    (hlacks : t.lacksChild l = true) : t.mirror.takeNode l = Prod.map id mirror <$> t.takeNode l := by
  cases l with
  | none => rfl
  | some i =>
    obtain ⟨before, e, after, rfl⟩ := hl.item
    exact takeNode_mirror h hlacks

theorem pop_mirror (h : t.Keeps items) (s : Side) :
    t.mirror.pop s.other = Prod.map id mirror <$> t.pop s := by
  have hend := h.endNode s
  rw [pop, pop, endNode_mirror, hend, ok_bind, ok_bind]
  exact takeNode_link_mirror h (names_tip s items) (lacksChild_end hend)

theorem removeEntry_mirror (cmp : K → K → Ordering) (h : t.Keeps items) (key : K)
    (hlacks : ∀ l, t.find cmp key = .ok l → t.lacksChild l = true) :
    t.mirror.removeEntry (turned cmp) key = Prod.map id mirror <$> t.removeEntry cmp key := by
  obtain ⟨l, hfind, hl⟩ := find_found cmp h key
  have hnames : Names items l := by
    cases hl with
    | absent => exact names_none
    | @present before after i e hitems _ =>
      intro j hj
      obtain rfl := Option.some.inj hj
      simp [hitems]
  rw [removeEntry, removeEntry, find_mirror, hfind, ok_bind, ok_bind]
  exact takeNode_link_mirror h hnames (hlacks l hfind)

theorem remove_mirror (cmp : K → K → Ordering) (h : t.Keeps items) (key : K)
    (hlacks : ∀ l, t.find cmp key = .ok l → t.lacksChild l = true) :
    t.mirror.remove (turned cmp) key = Prod.map id mirror <$> t.remove cmp key := by
  rw [remove, remove, removeEntry_mirror cmp h key hlacks]
  apply map_bind_map
  intro r _
  rfl

end Tree

/-! ## Edits -/

namespace Edit

/-- The edit for the mirror image: what is taken from one end is taken from the
other. -/
def mirror : Edit K V → Edit K V
  | .pop s => .pop s.other
  | e => e

/-- Whether an edit goes on both sides alike: an insertion, the removal of an end
or of everything, or that of a key whose node does not have two children. -/
def sidesAlike (cmp : K → K → Ordering) (t : Tree K V) : Edit K V → Bool
  | .insert _ _ | .pop _ | .clear => true
  | .remove key | .removeEntry key =>
    match t.find cmp key with
    | .ok l => t.lacksChild l
    | .error _ => true
  | _ => false

variable [Written K]

/-- Makes changes one after the other and lists the replies, each with the tree
that it leaves. -/
def trace (cmp : K → K → Ordering) :
    Tree K V → List (Edit K V) → Except Fault (List (Reply K V × Tree K V))
  | _, [] => .ok []
  | t, e :: es => do
    let (r, t) ← e.run cmp t
    return (r, t) :: (← trace cmp t es)

/-- Whether all edits of a list go on both sides alike when their turn comes. -/
def allAlike (cmp : K → K → Ordering) : Tree K V → List (Edit K V) → Bool
  | _, [] => true
  | t, e :: es =>
    e.sidesAlike cmp t &&
      match e.run cmp t with
      | .ok (_, t) => allAlike cmp t es
      | .error _ => true

/-- Whether there is room for each edit of a list when its turn comes. -/
def allRoomy (cmp : K → K → Ordering) : Tree K V → List (Edit K V) → Bool
  | _, [] => true
  | t, e :: es =>
    e.roomy cmp t &&
      match e.run cmp t with
      | .ok (_, t) => allRoomy cmp t es
      | .error _ => true

variable {t : Tree K V} {items : List (Nat × K × V)} {cmp : K → K → Ordering}

theorem allRoomy_cons {e : Edit K V} {es : List (Edit K V)}
    (h : allRoomy cmp t (e :: es) = true) :
    e.roomy cmp t = true ∧ ∀ r, e.run cmp t = .ok r → allRoomy cmp r.2 es = true := by
  simp only [allRoomy, Bool.and_eq_true] at h
  refine ⟨h.1, fun r hrun => ?_⟩
  simpa only [hrun] using h.2

/-- One edit answers the same on the mirror image and leaves the mirror image. -/
theorem run_mirror (h : t.Keeps items) {e : Edit K V} (halike : e.sidesAlike cmp t = true) :
    e.mirror.run (turned cmp) t.mirror = Prod.map id Tree.mirror <$> e.run cmp t := by
  have hlacks : ∀ key l, (e = .remove key ∨ e = .removeEntry key) → t.find cmp key = .ok l →
      t.lacksChild l = true := by
    rintro key l (rfl | rfl) hfind
    · simpa only [sidesAlike, hfind] using halike
    · simpa only [sidesAlike, hfind] using halike
  cases e with
  | insert key value =>
    simp only [mirror, run, Tree.insert_mirror cmp h]
    apply map_bind_map
    intro r _
    rfl
  | remove key =>
    simp only [mirror, run, Tree.remove_mirror cmp h key (fun l => hlacks key l (.inl rfl))]
    apply map_bind_map
    intro r _
    rfl
  | removeEntry key =>
    simp only [mirror, run, Tree.removeEntry_mirror cmp h key (fun l => hlacks key l (.inr rfl))]
    apply map_bind_map
    intro r _
    rfl
  | pop s =>
    simp only [mirror, run, Tree.pop_mirror h]
    apply map_bind_map
    intro r _
    rfl
  | clear => simp [mirror, run]
  | _ => cases halike

variable [Written V] [DecidableEq K]

theorem trace_mirror (h : t.Keeps items) {es : List (Edit K V)} (halike : allAlike cmp t es = true) :
    trace (turned cmp) t.mirror (es.map mirror) =
        List.map (Prod.map id Tree.mirror) <$> trace cmp t es ∧
      Ends (trace cmp t es) (allRoomy cmp t es = true) (fun _ => True) := by
  induction es generalizing t items with
  | nil => exact ⟨rfl, trivial⟩
  | cons e es ih =>
    have hends := run_ends cmp h e
    simp only [allAlike, Bool.and_eq_true] at halike
    have hrun' := run_mirror h halike.1
    simp only [List.map_cons, trace, hrun']
    constructor
    · apply map_bind_map
      intro r hrun
      obtain ⟨items', hev⟩ := hends.of_ok hrun
      rw [hrun] at halike
      simp only [Prod.map, id, (ih hev.keeps halike.2).1]
      apply map_bind_map
      intro steps _
      rfl
    · refine hends.bind allRoomy_cons (fun r hrun hdone => ?_)
      obtain ⟨items', hev⟩ := hdone
      rw [hrun] at halike
      exact (ih hev.keeps halike.2).2.wrap (fun _ _ _ => trivial)

end Edit

variable [Written K] [Written V] [DecidableEq K]

/-- Two trees are driven from empty, one by any comparison and the other one by
the comparison turned round, with the ends exchanged for the second. As long as
every edit goes on both sides alike, all of them answer the same, and after each
the second tree is the mirror image of the first, slot by slot. Both runs break
off at the same edit, if there is no room for it, and only then. -/
theorem mirrored_trace (cmp : K → K → Ordering) (es : List (Edit K V))
    (halike : Edit.allAlike cmp Tree.empty es = true) :
    Edit.trace (turned cmp) Tree.empty (es.map Edit.mirror) =
        List.map (Prod.map id Tree.mirror) <$> Edit.trace cmp Tree.empty es ∧
      Ends (Edit.trace cmp Tree.empty es) (Edit.allRoomy cmp Tree.empty es = true)
        (fun _ => True) := by
  have htrace := Edit.trace_mirror Tree.keeps_empty halike
  rwa [Tree.mirror_empty] at htrace

/-- Six insertions in ascending order, the removal of a node with one child, of
both ends and of a key that is not there any more. -/
def risingEdits : List (Edit Int Int) :=
  [.insert 1 10, .insert 2 20, .insert 3 30, .insert 4 40, .insert 5 50, .insert 6 60,
    .removeEntry 5, .pop .left, .remove 5, .pop .right]

/-- They go on both sides alike. -/
theorem risingEdits_mirrored :
    ∃ steps, Edit.trace compare Tree.empty risingEdits = .ok steps ∧
      Edit.trace (turned compare) Tree.empty (risingEdits.map Edit.mirror) =
        .ok (steps.map (Prod.map id Tree.mirror)) ∧
      steps.getLast?.map (·.2.entries) = some (.ok [(2, 20), (3, 30), (4, 40)]) := by
  obtain ⟨hmirror, hends⟩ := mirrored_trace compare risingEdits (by decide)
  obtain ⟨steps, hsteps, -⟩ := hends.total (by decide)
  rw [hsteps, map_ok] at hmirror
  have hlast : (fun steps => steps.getLast?.map (·.2.entries)) <$>
      Edit.trace compare Tree.empty risingEdits = .ok (some (.ok [(2, 20), (3, 30), (4, 40)])) := rfl
  rw [hsteps, map_ok] at hlast
  exact ⟨steps, hsteps, hmirror, Except.ok.inj hlast⟩

end SlotTree
