import SlotTree.Proofs.Walk
import SlotTree.Proofs.RedBlack

/-
  Sound trees — what holds of a tree between any two operations.

  `Tree.Sound t sh` says that `t` is linked like the shape `sh`, that `sh` is
  red-black with a black root, that exactly the slots of `sh` are occupied,
  and that the counters count them. It says nothing of the order of the keys,
  so it survives any comparison. `Tree.Keeps t items` forgets the shape and
  keeps the numbered entries in order; most operations are specified by what
  they do to that list. It also says that every slot number so far could be
  written as a link, so there is a slot for one more entry if there are fewer
  than 2^32 - 1 (`Keeps.next_lt`).
-/
namespace SlotTree

variable {K V : Type}

namespace Tree

/-- The tree is linked like a red-black shape whose slots are the occupied
ones, and its counters are right. -/
structure Sound (t : Tree K V) (sh : Shape K V) : Prop where
  holds : t.Holds sh
  balanced : ∃ n, sh.Balanced .black n
  tidy : t.slots.Tidy
  occupied : ∀ i, t.slots.contains (some i) = true ↔ i ∈ sh.ids
  size : t.size = sh.ids.length
  live : t.slots.live = sh.ids.length

/-- The tree is sound, holds these numbered entries in this order and has opened
no slot whose number cannot be written as a link. -/
structure Keeps (t : Tree K V) (items : List (Nat × K × V)) : Prop where
  fits : t.slots.size ≤ absentNumber
  sound : ∃ sh : Shape K V, t.Sound sh ∧ sh.items = items

/-- The link is absent or names the slot of one of the items. -/
def Names (items : List (Nat × K × V)) (l : Link) : Prop := ∀ i, l = some i → i ∈ items.map (·.1)

variable {t t' : Tree K V} {sh sh' : Shape K V} {items before after : List (Nat × K × V)} {i : Nat}
  {e : K × V}

theorem names_none : Names items none := nofun

theorem names_tip (s : Side) (items : List (Nat × K × V)) :
    Names items ((s.tip items).map (·.1)) := by
  intro i hi
  obtain ⟨x, hx, rfl⟩ := Option.map_eq_some_iff.mp hi
  exact List.mem_map.mpr ⟨x, Side.tip_mem hx, rfl⟩

theorem Names.item (h : Names items (some i)) :
    ∃ before e after, items = before ++ (i, e) :: after := by
  obtain ⟨⟨j, e⟩, hm, rfl⟩ := List.mem_map.mp (h i rfl)
  obtain ⟨before, after, hs⟩ := List.append_of_mem hm
  exact ⟨before, e, after, hs⟩

theorem sound_empty : (empty : Tree K V).Sound .nil where
  holds := ⟨rfl, trivial, List.nodup_nil⟩
  balanced := ⟨0, .nil⟩
  tidy := Slots.tidy_empty
  occupied := by simp [empty, Slots.contains]
  size := rfl
  live := rfl

theorem keeps_empty : (empty : Tree K V).Keeps [] :=
  ⟨Nat.zero_le _, .nil, sound_empty, rfl⟩

theorem Sound.congr (h : t.Sound sh) (hs : t'.slots = t.slots) (hr : t'.root = t.root)
    (hz : t'.size = t.size) : t'.Sound sh where
  holds := ⟨hr ▸ h.holds.root, hs ▸ h.holds.lays, h.holds.nodup⟩
  balanced := h.balanced
  tidy := hs ▸ h.tidy
  occupied := hs ▸ h.occupied
  size := hz ▸ h.size
  live := hs ▸ h.live

namespace Keeps

theorem congr (h : t.Keeps items) (hs : t'.slots = t.slots) (hr : t'.root = t.root)
    (hz : t'.size = t.size) : t'.Keeps items := by
  obtain ⟨hfits, sh, hsound, rfl⟩ := h
  exact ⟨hs ▸ hfits, sh, hsound.congr hs hr hz, rfl⟩

theorem touched (h : t.Keeps items) : t.touched.Keeps items := h.congr rfl rfl rfl

theorem nodup (h : t.Keeps items) : (items.map (·.1)).Nodup := by
  obtain ⟨-, sh, hsound, rfl⟩ := h
  exact hsound.holds.nodup

theorem size (h : t.Keeps items) : t.size = items.length := by
  obtain ⟨-, sh, hsound, rfl⟩ := h
  simpa [Shape.ids] using hsound.size

theorem length_le (h : t.Keeps items) : items.length ≤ absentNumber := by
  have hsize := h.size
  obtain ⟨hfits, sh, hsound, -⟩ := h
  have hcount := hsound.tidy.count
  rw [hsound.live, ← hsound.size] at hcount
  omega

theorem next_lt (h : t.Keeps items) (hroom : t.size < absentNumber) :
    t.slots.next < absentNumber := by
  obtain ⟨hfits, sh, hsound, -⟩ := h
  exact hsound.tidy.next_lt hfits (by rwa [hsound.live, ← hsound.size])

/-- When all numbers are in use, the next one is the absent link's. -/
theorem next_eq (h : t.Keeps items) (hfull : ¬ t.size < absentNumber) :
    t.slots.next = absentNumber := by
  obtain ⟨hfits, sh, hsound, -⟩ := h
  exact hsound.tidy.next_eq hfits (by rw [hsound.live, ← hsound.size]; omega)

theorem entries (h : t.Keeps items) : t.entries = .ok (items.map (·.2)) := by
  obtain ⟨-, sh, hsound, rfl⟩ := h
  exact hsound.holds.entries

theorem unique (h : t.Keeps items) {items' : List (Nat × K × V)} (h' : t.Keeps items') :
    items' = items := by
  have hentries : items'.map (·.2) = items.map (·.2) :=
    Except.ok.inj (h'.entries.symm.trans h.entries)
  obtain ⟨-, sh, hsound, rfl⟩ := h
  obtain ⟨-, sh', hsound', rfl⟩ := h'
  have hids : sh'.ids = sh.ids :=
    Except.ok.inj (hsound'.holds.inOrder.symm.trans hsound.holds.inOrder)
  exact (List.zip_of_prod hids hentries).trans (List.zip_of_prod rfl rfl).symm

theorem length_lt (h : t.Keeps items) : items.length < t.horizon := by
  obtain ⟨-, sh, hsound, rfl⟩ := h
  have := hsound.holds.length_le
  simp only [Shape.ids, List.length_map] at this
  simp only [horizon]
  omega

theorem length_lt_patience (h : t.Keeps items) : items.length < t.patience :=
  Nat.lt_of_lt_of_le h.length_lt t.horizon_le_patience

theorem after_lt_patience (h : t.Keeps (before ++ after)) : after.length < t.patience := by
  have hlt := h.length_lt_patience
  rw [List.length_append] at hlt
  omega

theorem endNode (h : t.Keeps items) (s : Side) : t.endNode s = .ok ((s.tip items).map (·.1)) := by
  obtain ⟨-, sh, hsound, rfl⟩ := h
  exact hsound.holds.endNode s

theorem get? (h : t.Keeps (before ++ (i, e) :: after)) :
    ∃ n, t.slots.get? (some i) = some n ∧ n.entry = e := by
  obtain ⟨-, sh, hsound, hs⟩ := h
  exact hsound.holds.get? hs

theorem entryOf (h : t.Keeps (before ++ (i, e) :: after)) : t.entryOf (some i) = some e := by
  obtain ⟨-, sh, hsound, hs⟩ := h
  exact hsound.holds.entryOf hs

theorem keyOf (h : t.Keeps (before ++ (i, e) :: after)) : t.keyOf (some i) = some e.1 := by
  obtain ⟨n, hn, rfl⟩ := h.get?
  simp [Tree.keyOf, hn, Node.entry]

theorem neighbour_right (h : t.Keeps (before ++ (i, e) :: after)) :
    t.neighbour .right i = .ok (after.head?.map (·.1)) := by
  obtain ⟨-, sh, hsound, hs⟩ := h
  exact hsound.holds.neighbour_right hs

theorem neighbour_left (h : t.Keeps (before ++ (i, e) :: after)) :
    t.neighbour .left i = .ok (before.getLast?.map (·.1)) := by
  obtain ⟨-, sh, hsound, hs⟩ := h
  exact hsound.holds.neighbour_left hs

/-! ## Another entry -/

theorem update (h : t.Keeps (before ++ (i, e) :: after)) {f : Node K V → Node K V} {e' : K × V}
    (hf : ∀ n, t.slots.get? (some i) = some n → f n = n.withEntry e') :
    ({ t with slots := t.slots.update (some i) f } : Tree K V).Keeps
      (before ++ (i, e') :: after) := by
  obtain ⟨hfits, sh, hsound, hs⟩ := h
  obtain ⟨up, c, l, r, rfl, hfocus, rfl, rfl⟩ := hsound.holds.focus_at hs
  have hn := Focus.get? (s := .left) hfocus
  have hfocus' := Focus.update (s := .left) hfocus ((hf _ hn).trans (Node.withEntry_of ..))
  have hids : (up.fill (.node c l i e' r)).ids = (up.fill (.node c l i e r)).ids := by
    simp [Shape.ids, Trail.items_fill, Shape.items]
  obtain ⟨m, hm⟩ := hsound.balanced
  obtain ⟨c', n, hup, hbal⟩ := Trail.takes_of_fill hm
  have hbal' : (Shape.node c l i e' r).Balanced c' n := by
    cases hbal with
    | red hl hr => exact .red hl hr
    | black hl hr => exact .black hl hr
  refine ⟨Nat.le_trans (Nat.le_of_eq (Slots.size_update ..)) hfits, up.fill (.node c l i e' r),
    ⟨holds_fill.mpr hfocus', hup.fill hbal', ?_, ?_, ?_, ?_⟩, ?_⟩
  · exact Slots.tidy_update hsound.tidy (some i) f
  · intro j
    rw [hids, ← hsound.occupied]
    simp
  · rw [hids]
    exact hsound.size
  · rw [hids, ← hsound.live]
    simp
  · simp [Trail.items_fill, Shape.items]

theorem setValue (h : t.Keeps (before ++ (i, e) :: after)) (v : V) :
    ∃ t', t.setValue i v = .ok t' ∧ t'.revision = t.revision ∧
      t'.Keeps (before ++ (i, e.1, v) :: after) := by
  obtain ⟨n, hn, rfl⟩ := h.get?
  have hc : t.slots.contains (some i) = true := by simp [Slots.contains, hn]
  refine ⟨_, reviseNode_ok hc _, rfl, h.update (fun n' hn' => ?_)⟩
  obtain rfl := Option.some.inj (hn.symm.trans hn')
  rfl

end Keeps

end Tree

end SlotTree
