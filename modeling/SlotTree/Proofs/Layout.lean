import SlotTree.Tree.Basic
import SlotTree.Proofs.Shape
import SlotTree.Proofs.Slots

/-
  Layouts — when slots hold a shape.

  `Slots.Lays` says that every node of a shape lies in its slot with its
  entry, its colour, the links to the roots of its two subtrees and the link
  to its parent; `Slots.Leads` says the same of a trail. `Tree.Holds` adds
  that the root link is right and that no slot occurs twice: this is what it
  means for a tree to be well linked.

  `Tree.Focus` is `Holds` seen from a subtree. The lemmas move the focus along
  the links, read the node in focus, and say what a change of that node does
  to the whole (`Focus.recolor`, `Focus.update`). `Tree.Rewired` collects
  what all changes of links and colours leave alone.
-/
namespace SlotTree

variable {K V : Type}

/-! ## Nodes seen from one side -/

/-- The node with given links, `near` being the child on side `s`. -/
def Node.of (s : Side) (c : Color) (e : K × V) (near far parent : Link) : Node K V :=
  match s with
  | .left => ⟨e.1, e.2, near, far, parent, c⟩
  | .right => ⟨e.1, e.2, far, near, parent, c⟩

namespace Node

variable (s : Side) (c d : Color) (e : K × V) (near far parent l : Link)

@[simp] theorem child_of : (of s c e near far parent).child s = near := by cases s <;> rfl

@[simp] theorem child_other_of : (of s c e near far parent).child s.other = far := by
  cases s <;> rfl

@[simp] theorem parent_of : (of s c e near far parent).parent = parent := by cases s <;> rfl

@[simp] theorem color_of : (of s c e near far parent).color = c := by cases s <;> rfl

@[simp] theorem key_of : (of s c e near far parent).key = e.1 := by cases s <;> rfl

@[simp] theorem value_of : (of s c e near far parent).value = e.2 := by cases s <;> rfl

@[simp] theorem entry_of : (of s c e near far parent).entry = e := by cases s <;> rfl

@[simp] theorem setChild_of :
    (of s c e near far parent).setChild s l = of s c e l far parent := by
  cases s <;> rfl

@[simp] theorem setChild_other_of :
    (of s c e near far parent).setChild s.other l = of s c e near l parent := by
  cases s <;> rfl

@[simp] theorem mk_of :
    (⟨e.1, e.2, (of s c e near far parent).left, (of s c e near far parent).right, l, d⟩ :
      Node K V) = of s d e near far l := by
  cases s <;> rfl

@[simp] theorem withEntry_of (e' : K × V) :
    (of s c e near far parent).withEntry e' = of s c e' near far parent := by
  cases s <;> rfl

@[simp] theorem left_or_right_of :
    (of s c e near none parent).left.or (of s c e near none parent).right = near := by
  cases s <;> simp [of]

end Node

/-! ## Slots that hold a shape -/

namespace Slots

/-- Every node of the shape lies in its slot, the root below `parent`. -/
def Lays (s : Slots (Node K V)) : Link → Shape K V → Prop
  | _, .nil => True
  | parent, .node c l id e r =>
    s.get? (some id) = some (.of .left c e l.link r.link parent) ∧
      s.Lays (some id) l ∧ s.Lays (some id) r

/-- Every node of the trail and beside it lies in its slot, with the link
`hole` down into the hole. -/
def Leads (s : Slots (Node K V)) : Trail K V → Link → Prop
  | .top, _ => True
  | .under f up, hole =>
    s.get? (some f.id) = some (.of f.side f.color f.entry hole f.other.link up.hook) ∧
      s.Lays (some f.id) f.other ∧ s.Leads up (some f.id)

theorem lays_branch {s : Slots (Node K V)} {p : Link} {side : Side} {c : Color} {a : Shape K V}
    {id : Nat} {e : K × V} {b : Shape K V} :
    s.Lays p (.branch side c a id e b) ↔
      s.get? (some id) = some (.of side c e a.link b.link p) ∧
        s.Lays (some id) a ∧ s.Lays (some id) b := by
  cases side
  · rfl
  · simp only [Shape.branch, Lays]
    exact and_congr_right (fun _ => and_comm)

theorem lays_fill {s : Slots (Node K V)} {up : Trail K V} {sh : Shape K V} :
    s.Lays none (up.fill sh) ↔ s.Leads up sh.link ∧ s.Lays up.hook sh := by
  induction up generalizing sh with
  | top => simp [Leads]
  | under f up ih =>
    rw [Trail.fill_under, ih, Crumb.fill, lays_branch]
    simp only [Shape.link_branch, Leads, Trail.hook_under]
    tauto

theorem Lays.congr {s s' : Slots (Node K V)} {p : Link} {sh : Shape K V} (h : s.Lays p sh)
    (heq : ∀ i ∈ sh.ids, s'.get? (some i) = s.get? (some i)) : s'.Lays p sh := by
  induction sh generalizing p with
  | nil => trivial
  | node c l id e r ihl ihr =>
    obtain ⟨hn, hl, hr⟩ := h
    refine ⟨by rw [heq id (by simp), hn], ihl hl ?_, ihr hr ?_⟩
    · exact fun i hi => heq i (by simp [hi])
    · exact fun i hi => heq i (by simp [hi])

/-- A shape hangs below another parent once the link of its root to the parent
is changed. -/
theorem Lays.hang {s s' : Slots (Node K V)} {p q : Link} {sh : Shape K V} (h : s.Lays p sh)
    (hnd : sh.ids.Nodup)
    (hroot : s'.get? sh.link = (s.get? sh.link).map (fun n => { n with parent := q }))
    (heq : ∀ i ∈ sh.ids, some i ≠ sh.link → s'.get? (some i) = s.get? (some i)) :
    s'.Lays q sh := by
  cases sh with
  | nil => trivial
  | node c l id e r =>
    obtain ⟨hn, hl, hr⟩ := h
    simp only [Shape.ids_node, List.nodup_append, List.nodup_cons, List.mem_cons] at hnd
    refine ⟨?_, hl.congr ?_, hr.congr ?_⟩
    · simpa [hn] using hroot
    · exact fun i hi => heq i (by simp [hi]) (by grind [Shape.link])
    · exact fun i hi => heq i (by simp [hi]) (by grind [Shape.link])

theorem Leads.congr {s s' : Slots (Node K V)} {up : Trail K V} {l : Link} (h : s.Leads up l)
    (heq : ∀ i ∈ up.ids, s'.get? (some i) = s.get? (some i)) : s'.Leads up l := by
  induction up generalizing l with
  | top => trivial
  | under f up ih =>
    obtain ⟨hn, ho, hu⟩ := h
    refine ⟨by rw [heq f.id (by simp [Trail.ids]), hn], ho.congr ?_, ih hu ?_⟩
    · exact fun i hi => heq i (by simp [Trail.ids, hi])
    · exact fun i hi => heq i (by simp [Trail.ids, hi])

/-- Another subtree hangs in the hole once the link down into it is changed. -/
theorem Leads.relink {s s' : Slots (Node K V)} {f : Crumb K V} {up : Trail K V} {l l' : Link}
    (h : s.Leads (.under f up) l) (hnd : (Trail.under f up).ids.Nodup)
    (hroot : s'.get? (some f.id) = (s.get? (some f.id)).map (·.setChild f.side l'))
    (heq : ∀ i ∈ (Trail.under f up).ids, i ≠ f.id → s'.get? (some i) = s.get? (some i)) :
    s'.Leads (.under f up) l' := by
  obtain ⟨hn, ho, hu⟩ := h
  simp only [Trail.ids, List.cons_append, List.nodup_cons, List.mem_append] at hnd
  refine ⟨by simp [hroot, hn], ho.congr ?_, hu.congr ?_⟩
  · exact fun i hi => heq i (by simp [Trail.ids, hi]) (by grind)
  · exact fun i hi => heq i (by simp [Trail.ids, hi]) (by grind)

end Slots

/-! ## Trees that hold a shape -/

namespace Tree

/-- The tree is well linked and laid out as the shape: the links down from the
root and the links up to the parents are those of the shape, and no slot
occurs twice. -/
structure Holds (t : Tree K V) (sh : Shape K V) : Prop where
  root : t.root = sh.link
  lays : t.slots.Lays none sh
  nodup : sh.ids.Nodup

/-- The tree holds `sh` in the hole of the trail `up`. -/
structure Focus (t : Tree K V) (up : Trail K V) (sh : Shape K V) : Prop where
  root : t.root = up.root sh.link
  leads : t.slots.Leads up sh.link
  lays : t.slots.Lays up.hook sh
  nodup : (sh.ids ++ up.ids).Nodup

theorem holds_fill {t : Tree K V} {up : Trail K V} {sh : Shape K V} :
    t.Holds (up.fill sh) ↔ t.Focus up sh := by
  constructor
  · rintro ⟨hr, hl, hn⟩
    obtain ⟨h1, h2⟩ := Slots.lays_fill.mp hl
    exact ⟨by rw [hr, Trail.link_fill], h1, h2, (Trail.nodup_fill up sh).mp hn⟩
  · rintro ⟨hr, h1, h2, hn⟩
    exact ⟨by rw [hr, Trail.link_fill], Slots.lays_fill.mpr ⟨h1, h2⟩,
      (Trail.nodup_fill up sh).mpr hn⟩

theorem focus_top {t : Tree K V} {sh : Shape K V} : t.Focus .top sh ↔ t.Holds sh :=
  (@holds_fill K V t .top sh).symm

theorem focus_under {t : Tree K V} {f : Crumb K V} {up : Trail K V} {sh : Shape K V} :
    t.Focus (.under f up) sh ↔ t.Focus up (f.fill sh) := by
  rw [← holds_fill, ← holds_fill, Trail.fill_under]

/-- What changes of links and colours leave alone: the counters, which slots
are occupied and their entries. -/
structure Rewired (t t' : Tree K V) : Prop where
  size : t'.size = t.size
  revision : t'.revision = t.revision
  live : t'.slots.live = t.slots.live
  free : t'.slots.free = t.slots.free
  room : t'.slots.size = t.slots.size
  entryOf : ∀ l, t'.entryOf l = t.entryOf l

namespace Rewired

theorem refl (t : Tree K V) : t.Rewired t := ⟨rfl, rfl, rfl, rfl, rfl, fun _ => rfl⟩

theorem contains {t t' : Tree K V} (h : t.Rewired t') (l : Link) :
    t'.slots.contains l = t.slots.contains l := by
  have := congrArg Option.isSome (h.entryOf l)
  simpa [Tree.entryOf, Slots.contains] using this

theorem trans {t t' t'' : Tree K V} (h : t.Rewired t') (h' : t'.Rewired t'') : t.Rewired t'' where
  size := h'.size.trans h.size
  revision := h'.revision.trans h.revision
  live := h'.live.trans h.live
  free := h'.free.trans h.free
  room := h'.room.trans h.room
  entryOf := fun l => (h'.entryOf l).trans (h.entryOf l)

theorem update (t : Tree K V) (id : Link) {f : Node K V → Node K V}
    (hf : ∀ n, (f n).entry = n.entry) : t.Rewired { t with slots := t.slots.update id f } := by
  refine ⟨rfl, rfl, by simp, by simp, by simp, fun l => ?_⟩
  simp only [Tree.entryOf, Slots.get?_update]
  split
  · cases t.slots.get? l <;> simp [hf]
  · rfl

theorem recolor (t : Tree K V) (id : Link) (c : Color) : t.Rewired (t.recolor id c) :=
  update t id (fun _ => rfl)

theorem setChild (t : Tree K V) (s : Side) (id : Link) (l : Link) :
    t.Rewired { t with slots := t.slots.update id (·.setChild s l) } :=
  update t id (fun _ => by cases s <;> rfl)

theorem setParent (t : Tree K V) (id : Link) (l : Link) :
    t.Rewired { t with slots := t.slots.update id (fun n => { n with parent := l }) } :=
  update t id (fun _ => rfl)

theorem reroot (t : Tree K V) (root : Link) : t.Rewired { t with root := root } :=
  ⟨rfl, rfl, rfl, rfl, rfl, fun _ => rfl⟩

theorem tidy {t t' : Tree K V} (h : t.Rewired t') (ht : t.slots.Tidy) : t'.slots.Tidy := by
  refine ⟨fun i => ?_, by rw [h.free]; exact ht.nodup, ?_⟩
  · have hc := h.contains (some i)
    simp only [Slots.contains] at hc
    rw [h.free, h.room, ht.vacant i, ← Option.not_isSome_iff_eq_none,
      ← Option.not_isSome_iff_eq_none, hc]
  · rw [h.live, h.free, h.room, ht.count]

theorem horizon {t t' : Tree K V} (h : t.Rewired t') : t'.horizon = t.horizon := by
  simp [Tree.horizon, h.room]

theorem patience {t t' : Tree K V} (h : t.Rewired t') : t'.patience = t.patience := by
  simp [Tree.patience, h.horizon]

end Rewired

/-! ## Reading at the focus -/

theorem node_ok {t : Tree K V} {i : Nat} {n : Node K V} (h : t.slots.get? (some i) = some n) :
    t.node i = .ok n := by
  simp [node, Slots.fetch, h]

theorem childOf_eq {t : Tree K V} {i : Nat} {n : Node K V} (h : t.slots.get? (some i) = some n)
    (s : Side) : t.childOf s (some i) = n.child s := by
  simp [childOf, h]

theorem reviseNode_ok {t : Tree K V} {i : Nat} (h : t.slots.contains (some i) = true)
    (f : Node K V → Node K V) :
    t.reviseNode i f = .ok { t with slots := t.slots.update (some i) f } := by
  simp [reviseNode, Slots.revise, h]

theorem colorOf_lays {t : Tree K V} {p : Link} {sh : Shape K V} (h : t.slots.Lays p sh) :
    t.colorOf sh.link = sh.color := by
  cases sh with
  | nil => rfl
  | node c l id e r => simp [colorOf, h.1]

theorem parentOf_lays {t : Tree K V} {p : Link} {sh : Shape K V} (h : t.slots.Lays p sh)
    (hne : sh.link ≠ none) : t.parentOf sh.link = p := by
  cases sh with
  | nil => exact absurd rfl hne
  | node c l id e r => simp [parentOf, h.1]

namespace Focus

variable {t : Tree K V} {up : Trail K V} {sh : Shape K V}

theorem colorOf (h : t.Focus up sh) : t.colorOf sh.link = sh.color := colorOf_lays h.lays

theorem parentOf (h : t.Focus up sh) (hne : sh.link ≠ none) : t.parentOf sh.link = up.hook :=
  parentOf_lays h.lays hne

variable {s : Side} {c : Color} {a b : Shape K V} {i : Nat} {e : K × V}

theorem get? (h : t.Focus up (.branch s c a i e b)) :
    t.slots.get? (some i) = some (.of s c e a.link b.link up.hook) :=
  (Slots.lays_branch.mp h.lays).1

theorem fetch (h : t.Focus up (.branch s c a i e b)) :
    t.slots.fetch (some i) = .ok (.of s c e a.link b.link up.hook) := node_ok h.get?

theorem contains (h : t.Focus up (.branch s c a i e b)) : t.slots.contains (some i) = true := by
  simp [Slots.contains, h.get?]

theorem childOf (h : t.Focus up (.branch s c a i e b)) : t.childOf s (some i) = a.link := by
  simp [Tree.childOf, h.get?]

theorem childOf_other (h : t.Focus up (.branch s c a i e b)) :
    t.childOf s.other (some i) = b.link := by
  simp [Tree.childOf, h.get?]

theorem near (h : t.Focus up (.branch s c a i e b)) : t.Focus (.under ⟨s, c, i, e, b⟩ up) a :=
  focus_under.mpr h

theorem far (h : t.Focus up (.branch s c a i e b)) :
    t.Focus (.under ⟨s.other, c, i, e, a⟩ up) b := by
  refine focus_under.mpr ?_
  cases s <;> exact h

theorem disjoint (h : t.Focus up sh) (hi : i ∈ sh.ids) : i ∉ up.ids :=
  fun hu => (List.nodup_append.mp h.nodup).2.2 i hi i hu rfl

theorem ne_root {f : Crumb K V} (h : t.Focus (.under f up) sh) : sh.link ≠ t.root := by
  obtain ⟨j, hj, hr⟩ := Trail.exists_root up f sh.link
  rw [h.root, hr]
  exact fun he => h.disjoint (Shape.mem_ids_of_link he) hj

theorem other_ne {f : Crumb K V} (h : t.Focus (.under f up) sh) (hi : sh.link = some i) :
    f.other.link ≠ some i := by
  intro he
  apply h.disjoint (Shape.mem_ids_of_link hi)
  simp [Trail.ids, Shape.mem_ids_of_link he]

theorem hook_ne (h : t.Focus up sh) (hi : sh.link = some i) : up.hook ≠ some i :=
  fun he => h.disjoint (Shape.mem_ids_of_link hi) (Trail.mem_ids_of_hook he)

/-- Comparing with the left child finds the side of the hole. -/
theorem side_eq {f : Crumb K V} (h : t.Focus (.under f up) sh) (hne : sh.link ≠ none) :
    (if sh.link = t.childOf .left (some f.id) then Side.left else .right) = f.side := by
  have hf := (focus_under.mp h).get?
  obtain ⟨i, hi⟩ := Option.ne_none_iff_exists'.mp hne
  have hother := h.other_ne hi
  simp only [Tree.childOf, hf, Option.bind_some, hi]
  cases hs : f.side <;> simp [Node.of, Node.child, Ne.symm hother]

theorem nodup_branch (h : t.Focus up (.branch s c a i e b)) :
    (i :: (a.ids ++ b.ids) ++ up.ids).Nodup :=
  (((Shape.ids_branch_perm s c a i e b).append_right up.ids).nodup_iff).mp h.nodup

theorem update (h : t.Focus up (.branch s c a i e b)) {f : Node K V → Node K V} {c' : Color}
    {e' : K × V} (hf : f (.of s c e a.link b.link up.hook) = .of s c' e' a.link b.link up.hook) :
    ({ t with slots := t.slots.update (some i) f } : Tree K V).Focus up
      (.branch s c' a i e' b) := by
  obtain ⟨hn, ha, hb⟩ := Slots.lays_branch.mp h.lays
  have hnd := h.nodup_branch
  simp only [List.cons_append, List.nodup_cons, List.mem_append, not_or] at hnd
  have off : ∀ j, j ≠ i → (t.slots.update (some i) f).get? (some j) = t.slots.get? (some j) :=
    fun j hj => Slots.get?_update_of_ne _ _ (by simpa using Ne.symm hj)
  refine ⟨?_, ?_, Slots.lays_branch.mpr ⟨?_, ?_, ?_⟩, ?_⟩
  · simpa using h.root
  · have hl := h.leads
    rw [Shape.link_branch] at hl ⊢
    exact hl.congr (fun j hj => off j (by grind))
  · rw [Slots.get?_update_self, hn, Option.map_some, hf]
  · exact ha.congr (fun j hj => off j (by grind))
  · exact hb.congr (fun j hj => off j (by grind))
  · exact (((Shape.ids_branch_perm s c' a i e' b).append_right up.ids).nodup_iff).mpr
      h.nodup_branch

theorem recolor (h : t.Focus up sh) (c : Color) :
    (t.recolor sh.link c).Focus up (sh.paint c) := by
  cases sh with
  | nil => exact h
  | node d l id e r => exact h.update (s := .left) (by simp [Node.of])

theorem recolor_near (h : t.Focus up (.branch s c a i e b)) (d : Color) :
    (t.recolor a.link d).Focus up (.branch s c (a.paint d) i e b) :=
  focus_under.mp (h.near.recolor d)

theorem recolor_far (h : t.Focus up (.branch s c a i e b)) (d : Color) :
    (t.recolor b.link d).Focus up (.branch s c a i e (b.paint d)) := by
  have := focus_under.mp (h.far.recolor d)
  rwa [Crumb.fill, Shape.branch_other] at this

theorem recolor_branch (h : t.Focus up (.branch s c a i e b)) (d : Color) :
    (t.recolor (some i) d).Focus up (.branch s d a i e b) := by
  simpa using h.recolor d

end Focus

end Tree

end SlotTree
