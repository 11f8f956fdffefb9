import SlotTree.Tree.Insert
import SlotTree.Proofs.MendRed
import SlotTree.Proofs.Order
import SlotTree.Proofs.Scarcity
import SlotTree.Proofs.Sound

/-
  Insertion — what storing a value does to the list of items.

  A new entry goes into a vacant slot and into the hole where the search
  ended (`attach_ok`); the repair above keeps the list (`graft_ok`). A key
  that is there keeps its slot and its stored form (`overwrite_ok`).
  Which of the two it is, the search says (`insertNode_turns`), so the outcome is
  specified once for a key that is found (`insertNode_present`) and once for one
  that is not (`insertNode_absent`), for which there must be a slot number left
  (`insertNode_exhausted`). `insertNode_ends` puts the two together for any
  comparison; for a lawful one the new entry lies between the smaller and the
  greater keys.
-/
namespace SlotTree

variable {K V : Type}

/-- The hole as the place of an insertion. -/
def Trail.place : Trail K V → Option (Nat × Side)
  | .top => none
  | .under f _ => some (f.id, f.side)

namespace Tree

variable {t : Tree K V} {up : Trail K V} {key : K} {value : V}
  {items before after : List (Nat × K × V)} {i : Nat} {e : K × V}

/-! ## A new node -/

/-- One more slot is occupied, and counted. -/
structure Grown (t : Tree K V) (i : Nat) (t' : Tree K V) : Prop where
  size : t'.size = t.size + 1
  revision : t'.revision = t.revision + 1
  live : t'.slots.live = t.slots.live + 1
  free : t'.slots.free = t.slots.free.tail
  fits : t.slots.size ≤ absentNumber → t'.slots.size ≤ absentNumber
  tidy : t'.slots.Tidy
  occupied : ∀ j, t'.slots.contains (some j) = true ↔ j = i ∨ t.slots.contains (some j) = true

/-- The tree with a node in the next slot to be used, and no link to it yet. -/
def planted (t : Tree K V) (leaf : Node K V) : Tree K V :=
  { t with slots := (t.slots.occupy leaf).2, size := t.size + 1 }.touched

theorem get?_planted (h : t.slots.Tidy) (leaf : Node K V) (other : Link) :
    (t.planted leaf).slots.get? other =
      if other = some t.slots.next then some leaf else t.slots.get? other :=
  Slots.get?_occupy h leaf other

theorem grown_planted (h : t.slots.Tidy) (hroom : t.slots.next < absentNumber) (leaf : Node K V) :
    t.Grown t.slots.next (t.planted leaf) where
  size := rfl
  revision := rfl
  live := Slots.live_occupy t.slots leaf
  free := Slots.free_occupy t.slots leaf
  fits hsize := Slots.size_occupy_le hsize hroom leaf
  tidy := Slots.tidy_occupy h leaf
  occupied j := by
    simp only [Slots.contains, get?_planted h, Option.some.injEq]
    split <;> simp_all

theorem Grown.setChild {t₁ : Tree K V} (h : t.Grown i t₁) (s : Side) (parent child : Link) :
    t.Grown i { t₁ with slots := t₁.slots.update parent (·.setChild s child) } where
  size := h.size
  revision := h.revision
  live := by rw [Slots.live_update, h.live]
  free := by rw [Slots.free_update, h.free]
  fits hsize := by
    rw [Slots.size_update]
    exact h.fits hsize
  tidy := Slots.tidy_update h.tidy parent (·.setChild s child)
  occupied j := by rw [Slots.contains_update, h.occupied]

theorem attach_top (h : t.Sound (.nil : Shape K V)) (hroom : t.slots.next < absentNumber) (key : K)
    (value : V) :
    ∃ t', t.attach key value none = .ok (t.slots.next, t') ∧ t.Grown t.slots.next t' ∧
      t'.Focus .top (.node .red .nil t.slots.next (key, value) .nil) := by
  let leaf := Node.leaf key value none
  have hgrown := grown_planted h.tidy hroom leaf
  refine ⟨{ t.planted leaf with root := some t.slots.next }, ?_,
    ⟨rfl, rfl, hgrown.live, hgrown.free, hgrown.fits, hgrown.tidy, hgrown.occupied⟩, rfl, trivial,
    ⟨?_, trivial, trivial⟩, List.nodup_singleton _⟩
  · rw [attach, Option.map_none, Slots.allocate_eq, if_pos hroom]
    rfl
  · exact (get?_planted h.tidy leaf _).trans (if_pos rfl)

/-- The new slot is filled, then the parent's link is set; all other slots stay. -/
theorem attach_under {f : Crumb K V} (h : t.Sound ((Trail.under f up).fill .nil))
    (hroom : t.slots.next < absentNumber) (hup : t.slots.next ∉ (Trail.under f up).ids) (key : K)
    (value : V) :
    ∃ t', t.attach key value (some (f.id, f.side)) = .ok (t.slots.next, t') ∧
      t.Grown t.slots.next t' ∧
      t'.Focus (.under f up) (.node .red .nil t.slots.next (key, value) .nil) := by
  let leaf := Node.leaf key value (some f.id)
  have hgrown := grown_planted h.tidy hroom leaf
  have hget := get?_planted h.tidy leaf
  have hf := holds_fill.mp h.holds
  have hne : some t.slots.next ≠ some f.id := by
    intro he
    simp [Trail.ids, Option.some.inj he] at hup
  have hfc : (t.planted leaf).slots.contains (some f.id) = true :=
    (hgrown.occupied f.id).mpr (.inr (focus_under.mp hf).contains)
  have hnd : (Trail.under f up).ids.Nodup := by simpa using hf.nodup
  have hnodup :
      ((Shape.node .red .nil t.slots.next (key, value) .nil).ids ++ (Trail.under f up).ids).Nodup := by
    simp [hup, hnd]
  have hlink : (t.planted leaf).setChild f.side f.id (some t.slots.next) = _ :=
    setChild_ok hfc f.side (some t.slots.next)
  refine ⟨_, ?_, hgrown.setChild f.side (some f.id) (some t.slots.next), hf.root, ?_,
    ⟨?_, trivial, trivial⟩, hnodup⟩
  · rw [attach, Option.map_some, Slots.allocate_eq, if_pos hroom]
    exact congrArg (fun r => r >>= fun t' => pure (t.slots.next, t')) hlink
  · refine hf.leads.relink hnd ?_ fun j hj hjf => ?_
    · rw [Slots.get?_update_self, hget, if_neg hne.symm]
      rfl
    · have hji : some j ≠ some t.slots.next := fun he => hup (Option.some.inj he ▸ hj)
      rw [Slots.get?_update_of_ne _ _ (by simpa using Ne.symm hjf), hget, if_neg hji]
  · rw [Slots.get?_update_of_ne _ _ hne.symm, hget, if_pos rfl]
    rfl

theorem attach_ok (h : t.Sound (up.fill .nil)) (hroom : t.slots.next < absentNumber) (key : K)
    (value : V) :
    ∃ i t', t.attach key value up.place = .ok (i, t') ∧ i ∉ (up.fill (.nil : Shape K V)).ids ∧
      t.Grown i t' ∧ t'.Focus up (.node .red .nil i (key, value) .nil) := by
  have hout : t.slots.next ∉ (up.fill (.nil : Shape K V)).ids := by
    rw [← h.occupied]
    simp [Slots.contains, h.tidy.get?_next]
  refine ⟨t.slots.next, ?_⟩
  cases up with
  | top =>
    obtain ⟨t', hrun, hgrown, hf⟩ := attach_top h hroom key value
    exact ⟨t', hrun, hout, hgrown, hf⟩
  | under f up =>
    have hup : t.slots.next ∉ (Trail.under f up).ids :=
      fun hm => hout ((Trail.mem_ids_fill _ .nil _).mpr (.inr hm))
    obtain ⟨t', hrun, hgrown, hf⟩ := attach_under h hroom hup key value
    exact ⟨t', hrun, hout, hgrown, hf⟩

theorem attach_exhausted (hfull : ¬ t.slots.next < absentNumber) (key : K) (value : V)
    (place : Option (Nat × Side)) :
    t.attach key value place = .error (.exhausted t.slots.next) := by
  rw [attach, Slots.allocate_eq, if_neg hfull]
  rfl

/-- A new entry is linked in between what lies before and after the hole. -/
theorem graft_ok (h : t.Keeps items) (hsound : t.Sound (up.fill .nil)) (hroom : t.size < absentNumber)
    (key : K) (value : V) :
    ∃ i t', t.graft key value up.place = .ok ⟨i, none, t'⟩ ∧
      i ∉ (up.fill (.nil : Shape K V)).ids ∧ t'.revision = t.revision + 1 ∧
      t'.slots.free = t.slots.free.tail ∧
      t'.Keeps (up.beyond .left ++ (i, key, value) :: up.beyond .right) := by
  obtain ⟨i, t₁, hattach, hout, hgrown, hf⟩ := attach_ok hsound (h.next_lt hroom) key value
  obtain ⟨m, hm⟩ := hsound.balanced
  obtain ⟨c, n, hup, hnil⟩ := Trail.takes_of_fill hm
  cases hnil
  -- The hole took a missing node, which counts as black; the new leaf there is red.
  obtain ⟨t', sh, hmend, hw, hsh, hitems, hbal⟩ :=
    mendRed_ok hf (.red .nil .nil) hup hf.length_lt_patience
  have hids : sh.ids.Perm (i :: (up.fill (.nil : Shape K V)).ids) := by
    have h₁ := Trail.ids_fill_perm up (.node .red .nil i (key, value) .nil)
    have h₂ := Trail.ids_fill_perm up (.nil : Shape K V)
    rw [Shape.ids, hitems]
    exact h₁.trans (by simpa using (h₂.cons i).symm)
  have hsound' : t'.Sound sh :=
    { holds := hsh
      balanced := hbal
      tidy := hw.tidy hgrown.tidy
      occupied := fun j => by
        rw [hw.contains, hgrown.occupied, hsound.occupied, hids.mem_iff, List.mem_cons]
      size := by rw [hw.size, hgrown.size, hsound.size, hids.length_eq, List.length_cons]
      live := by rw [hw.live, hgrown.live, hsound.live, hids.length_eq, List.length_cons] }
  have hfits : t'.slots.size ≤ absentNumber := by
    rw [hw.room]
    exact hgrown.fits h.fits
  refine ⟨i, t', ?_, hout, hw.revision.trans hgrown.revision, hw.free.trans hgrown.free, hfits, sh,
    hsound', ?_⟩
  · rw [Shape.link_node] at hmend
    simp [graft, hattach, hmend]
  · simp [hitems, Trail.items_fill, Shape.items]

theorem graft_exhausted (h : t.Keeps items) (hfull : ¬ t.size < absentNumber) (key : K) (value : V)
    (place : Option (Nat × Side)) :
    t.graft key value place = .error (.exhausted absentNumber) := by
  have hnext := h.next_eq hfull
  rw [graft, attach_exhausted (by omega), hnext]
  rfl

/-! ## A key that is there -/

theorem overwrite_ok (h : t.Keeps (before ++ (i, e) :: after)) (value : V) :
    ∃ t', t.overwrite i value = .ok ⟨i, some e.2, t'⟩ ∧ t'.revision = t.revision + 1 ∧
      t'.Keeps (before ++ (i, e.1, value) :: after) := by
  obtain ⟨n, hn, rfl⟩ := h.get?
  obtain ⟨t', hrun, hrev, hk⟩ := h.setValue value
  refine ⟨t'.touched, ?_, by simp [touched, hrev], hk.touched⟩
  simp [overwrite, node_ok hn, hrun, Node.entry]

/-! ## Storing a value -/

/-- The outcome of an insertion: the entry of an equal key with another value,
or a new entry. -/
inductive Stored (cmp : K → K → Ordering) (key : K) (value : V) (items : List (Nat × K × V))
    (r : Inserted K V) : Prop where
  | replaced {before after : List (Nat × K × V)} {e : K × V} :
    items = before ++ (r.id, e) :: after → cmp key e.1 = .eq → r.old = some e.2 →
    r.tree.Keeps (before ++ (r.id, e.1, value) :: after) → Stored cmp key value items r
  | added {before after : List (Nat × K × V)} :
    items = before ++ after → r.id ∉ items.map (·.1) → r.old = none →
    r.tree.Keeps (before ++ (r.id, key, value) :: after) →
    (∀ [Std.TransCmp cmp], Ascending cmp (items.map (·.2)) →
      Parts (cmp key) (before.map (·.2)) (after.map (·.2))) → Stored cmp key value items r

/-- An insertion turns to the node that a search for the key finds, or to the
hole where the search ends. -/
theorem insertNode_turns (cmp : K → K → Ordering) {sh : Shape K V} (h : t.Sound sh) (key : K)
    (value : V) :
    (∃ i e, t.find cmp key = .ok (some i) ∧ sh.Meets (cmp key) i e ∧
        t.insertNode cmp key value = t.overwrite i value) ∨
      ∃ up, t.find cmp key = .ok none ∧ sh.Splits (cmp key) up ∧
        t.insertNode cmp key value = t.graft key value up.place := by
  obtain ⟨l, hrun, hl⟩ := locate_ok cmp h.holds key
  simp only [find, insertNode, hrun, ok_bind, pure_ok]
  cases hl with
  | found hm => exact .inl ⟨_, _, rfl, hm, rfl⟩
  | below hs => exact .inr ⟨_, rfl, hs, rfl⟩
  | nowhere hs => exact .inr ⟨_, rfl, hs, rfl⟩

theorem insertNode_ends (cmp : K → K → Ordering) (h : t.Keeps items) (key : K) (value : V) :
    Ends (t.insertNode cmp key value) (t.find cmp key = .ok none → t.size < absentNumber)
      (fun r => r.tree.revision = t.revision + 1 ∧ Stored cmp key value items r) := by
  have hk := h
  obtain ⟨-, sh, hsound, rfl⟩ := h
  rcases insertNode_turns cmp hsound key value with ⟨i, e, -, hm, hrun⟩ | ⟨up, hfind, hs, hrun⟩
  · obtain ⟨before, after, hitems⟩ := hm.items
    obtain ⟨-, -, -, -, -, -, heq⟩ := hm
    obtain ⟨t', hover, hrev, hk'⟩ := overwrite_ok (hitems ▸ hk) value
    exact .of_total ⟨_, hrun.trans hover, hrev, .replaced hitems heq rfl hk'⟩
  · rw [hrun]
    by_cases hroom : t.size < absentNumber
    · obtain ⟨i, t', hgraft, hout, hrev, -, hk'⟩ := graft_ok hk (hs.1 ▸ hsound) hroom key value
      rw [← hs.1] at hout
      refine .of_total ⟨_, hgraft, hrev, .added hs.items hout rfl hk' ?_⟩
      exact fun ha => hs.parts (respects_cmp key) ha
    · rw [graft_exhausted hk hroom]
      exact ⟨trivial, fun hneed => hroom (hneed hfind)⟩

/-- A key that a search does not find gets a slot that was vacant, the one given
back last if there is one. -/
theorem insertNode_absent {cmp : K → K → Ordering} (h : t.Keeps items)
    (hfind : t.find cmp key = .ok none) (hroom : t.size < absentNumber) (value : V) :
    ∃ before after i t', items = before ++ after ∧
      t.insertNode cmp key value = .ok ⟨i, none, t'⟩ ∧ i ∉ items.map (·.1) ∧
      t'.slots.free = t.slots.free.tail ∧ t'.Keeps (before ++ (i, key, value) :: after) := by
  have hk := h
  obtain ⟨-, sh, hsound, rfl⟩ := h
  rcases insertNode_turns cmp hsound key value with ⟨i, e, hfound, -, -⟩ | ⟨up, -, hs, hrun⟩
  · cases hfind.symm.trans hfound
  · obtain ⟨i, t', hgraft, hout, -, hfree, hk'⟩ := graft_ok hk (hs.1 ▸ hsound) hroom key value
    rw [← hs.1] at hout
    exact ⟨_, _, i, t', hs.items, hrun.trans hgraft, hout, hfree, hk'⟩

theorem insertNode_exhausted {cmp : K → K → Ordering} (h : t.Keeps items)
    (hfind : t.find cmp key = .ok none) (hfull : ¬ t.size < absentNumber) (value : V) :
    t.insertNode cmp key value = .error (.exhausted absentNumber) := by
  obtain ⟨-, sh, hsound, -⟩ := id h
  rcases insertNode_turns cmp hsound key value with ⟨i, e, hfound, -, -⟩ | ⟨up, -, -, hrun⟩
  · cases hfind.symm.trans hfound
  · rw [hrun, graft_exhausted h hfull]

theorem insertNode_present {cmp : K → K → Ordering} (h : t.Keeps items)
    (hfind : t.find cmp key = .ok (some i)) (value : V) :
    ∃ n, t.slots.get? (some i) = some n ∧
      t.insertNode cmp key value = .ok ⟨i, some n.value, { t with
        slots := t.slots.update (some i) (fun n => { n with value := value })
        revision := t.revision + 1 }⟩ := by
  obtain ⟨-, sh, hsound, rfl⟩ := h
  rcases insertNode_turns cmp hsound key value with ⟨j, e, hfound, hm, hrun⟩ | ⟨up, hnone, -, -⟩
  · obtain rfl : i = j := by simpa using hfind.symm.trans hfound
    obtain ⟨before, after, hitems⟩ := hm.items
    obtain ⟨n, hn, -⟩ := hsound.holds.get? hitems
    have hc : t.slots.contains (some i) = true := Slots.contains_iff.mpr ⟨n, hn⟩
    refine ⟨n, hn, hrun.trans ?_⟩
    simp only [overwrite, node_ok hn, ok_bind, Tree.setValue, reviseNode_ok hc, pure_ok]
    rfl
  · cases hfind.symm.trans hnone

end Tree

end SlotTree
