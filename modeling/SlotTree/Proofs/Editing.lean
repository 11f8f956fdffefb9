import SlotTree.Proofs.Insertion
import SlotTree.Proofs.Removal

/-
  Editing — the operations by key, by end and by visit as changes of the list.

  Each operation on a tree that keeps a list of items answers, whatever the
  comparison, and leaves a tree that keeps another list. `Found`, `Stored` and
  `Taken` say which: what a search found, what an insertion stored and what a
  removal took. The visit of all entries goes along the list while it removes
  from it (`retainFrom_ok`). `Thinned` collects what all removals do to the
  keys, and `Dropped` what those do that leave the values alone.
-/
namespace SlotTree.Tree

variable {K V : Type} {t t' : Tree K V} {items before after : List (Nat × K × V)} {i : Nat}
  {e : K × V} {key : K}

theorem keeps_clear (t : Tree K V) : t.clear.Keeps [] := keeps_empty.congr rfl rfl rfl

/-! ## Finding a key -/

/-- What the search for a key finds in a list of items. -/
inductive Found (cmp : K → K → Ordering) (key : K) (items : List (Nat × K × V)) : Link → Prop where
  | present {before after : List (Nat × K × V)} {i : Nat} {e : K × V} :
    items = before ++ (i, e) :: after → cmp key e.1 = .eq → Found cmp key items (some i)
  | absent :
    (∀ [Std.TransCmp cmp], Ascending cmp (items.map (·.2)) →
      ∀ e ∈ items.map (·.2), cmp key e.1 ≠ .eq) → Found cmp key items none

theorem find_found (cmp : K → K → Ordering) (h : t.Keeps items) (key : K) :
    ∃ l, t.find cmp key = .ok l ∧ Found cmp key items l := by
  obtain ⟨-, sh, hsound, rfl⟩ := h
  rcases find_ok cmp hsound.holds key with ⟨i, e, hrun, hm⟩ | ⟨up, hrun, hs⟩
  · obtain ⟨before, after, hitems⟩ := hm.items
    obtain ⟨-, -, -, -, -, -, heq⟩ := hm
    exact ⟨_, hrun, .present hitems heq⟩
  · refine ⟨_, hrun, .absent (fun ha => ?_)⟩
    -- In a sorted tree the keys before the hole are less and those after it greater.
    rw [hs.items, List.map_append]
    exact (hs.parts (respects_cmp key) ha).ne_eq

/-! ## Changing a value -/

/-- The outcome of handing out the value of a key: its entry has another
value, or nothing has changed. -/
inductive Modified (cmp : K → K → Ordering) (key : K) (f : V → V) (t : Tree K V)
    (items : List (Nat × K × V)) : Option V × Tree K V → Prop where
  | present {before after : List (Nat × K × V)} {i : Nat} {e : K × V} {t' : Tree K V} :
    items = before ++ (i, e) :: after → cmp key e.1 = .eq → t'.revision = t.revision + 1 →
    t'.Keeps (before ++ (i, e.1, f e.2) :: after) → Modified cmp key f t items (some e.2, t')
  | absent :
    (∀ [Std.TransCmp cmp], Ascending cmp (items.map (·.2)) →
      ∀ e ∈ items.map (·.2), cmp key e.1 ≠ .eq) → Modified cmp key f t items (none, t)

theorem modify_ok (cmp : K → K → Ordering) (h : t.Keeps items) (key : K) (f : V → V) :
    ∃ r, t.modify cmp key f = .ok r ∧ Modified cmp key f t items r := by
  obtain ⟨l, hrun, hl⟩ := find_found cmp h key
  cases hl with
  | absent hn => exact ⟨_, by simp [modify, hrun], .absent hn⟩
  | @present before after i e hitems heq =>
    subst hitems
    obtain ⟨n, hn, rfl⟩ := h.get?
    obtain ⟨t', hset, hrev, hk⟩ := h.setValue (f n.value)
    refine ⟨(some n.value, t'.touched), ?_, .present rfl heq ?_ hk.touched⟩
    · simp [modify, hrun, node_ok hn, hset]
    · simp [touched, hrev]

/-! ## Taking entries -/

/-- The outcome of a removal: one entry is gone, or nothing has changed. -/
inductive Taken (t : Tree K V) (items : List (Nat × K × V)) :
    Option (K × V) × Tree K V → Prop where
  | one {before after after' : List (Nat × K × V)} {i : Nat} {e : K × V} {t' : Tree K V} :
    items = before ++ (i, e) :: after → Shifted i after after' → t'.Keeps (before ++ after') →
    t'.revision = t.revision + 1 → Taken t items (some e, t')
  | nothing : Taken t items (none, t)

theorem takeNode_ok (h : t.Keeps (before ++ (i, e) :: after)) :
    ∃ t' after', t.takeNode (some i) = .ok (some e, t') ∧ t'.revision = t.revision + 1 ∧
      t'.Keeps (before ++ after') ∧ Shifted i after after' := by
  obtain ⟨r, after', hrun, rfl, -, hrev, hk, hshift⟩ := eraseNode_ok h
  exact ⟨r.tree, after', by simp [takeNode, hrun], hrev, hk, hshift⟩

theorem takeNode_none (t : Tree K V) : t.takeNode none = .ok (none, t) := rfl

theorem removeEntry_ok (cmp : K → K → Ordering) (h : t.Keeps items) (key : K) :
    ∃ r, t.removeEntry cmp key = .ok r ∧ Taken t items r ∧
      (∀ e ∈ r.1, cmp key e.1 = .eq) ∧
      (r.1 = none → ∀ [Std.TransCmp cmp], Ascending cmp (items.map (·.2)) →
        ∀ e ∈ items.map (·.2), cmp key e.1 ≠ .eq) := by
  obtain ⟨l, hrun, hl⟩ := find_found cmp h key
  cases hl with
  | absent hn =>
    exact ⟨(none, t), by simp [removeEntry, hrun, takeNode_none], .nothing, nofun, fun _ => hn⟩
  | @present before after i e hitems heq =>
    subst hitems
    obtain ⟨t', after', htake, hrev, hk, hshift⟩ := takeNode_ok h
    refine ⟨(some e, t'), by simp [removeEntry, hrun, htake], .one rfl hshift hk hrev, ?_, nofun⟩
    rintro e' he
    obtain rfl := Option.some.inj he
    exact heq

theorem remove_eq (cmp : K → K → Ordering) (t : Tree K V) (key : K) :
    t.remove cmp key =
      (fun r : Option (K × V) × Tree K V => (r.1.map (·.2), r.2)) <$> t.removeEntry cmp key := by
  unfold remove
  cases t.removeEntry cmp key <;> rfl

theorem takeNode_link (h : t.Keeps items) {l : Link} (hl : Names items l) :
    ∃ r, t.takeNode l = .ok r ∧ Taken t items r ∧ r.1 = t.entryOf l := by
  cases l with
  | none => exact ⟨_, takeNode_none t, .nothing, rfl⟩
  | some i =>
    obtain ⟨before, e, after, rfl⟩ := hl.item
    obtain ⟨t', after', htake, hrev, hk, hshift⟩ := takeNode_ok h
    exact ⟨_, htake, .one rfl hshift hk hrev, h.entryOf.symm⟩

theorem pop_ok (h : t.Keeps items) (s : Side) :
    ∃ r, t.pop s = .ok r ∧ Taken t items r ∧ r.1 = (s.tip items).map (·.2) := by
  obtain ⟨r, hrun, htaken, hr⟩ := takeNode_link h (names_tip s items)
  refine ⟨r, by simp [pop, h.endNode, hrun], htaken, hr.trans ?_⟩
  cases htip : s.tip items with
  | none => rfl
  | some x =>
    obtain ⟨before, after, rfl⟩ := List.append_of_mem (Side.tip_mem htip)
    exact h.entryOf

/-! ## Removals one after the other -/

/-- Some entries are gone and each has moved the revision on by one; values
may have changed. -/
structure Thinned (t : Tree K V) (items : List (Nat × K × V)) (t' : Tree K V)
    (items' : List (Nat × K × V)) : Prop where
  keeps : t'.Keeps items'
  keys : (items'.map (·.2.1)).Sublist (items.map (·.2.1))
  revision : t'.revision = t.revision + UInt64.ofNat (items.length - items'.length)
  still : items'.length = items.length → items'.map (·.1) = items.map (·.1)

namespace Thinned

theorem refl (h : t.Keeps items) : Thinned t items t items :=
  ⟨h, .refl _, by simp, fun _ => rfl⟩

theorem length_le {items' : List (Nat × K × V)} (h : Thinned t items t' items') :
    items'.length ≤ items.length := by
  simpa using h.keys.length_le

theorem trans {t'' : Tree K V} {items' items'' : List (Nat × K × V)}
    (h : Thinned t items t' items') (h' : Thinned t' items' t'' items'') :
    Thinned t items t'' items'' where
  keeps := h'.keeps
  keys := h'.keys.trans h.keys
  revision := by
    have hle := h.length_le
    have hle' := h'.length_le
    rw [h'.revision, h.revision, UInt64.add_assoc, ← UInt64.ofNat_add]
    congr 2
    omega
  still := by
    intro heq
    have hle := h.length_le
    have hle' := h'.length_le
    rw [h'.still (by omega), h.still (by omega)]

theorem one {after' : List (Nat × K × V)} (hk : t'.Keeps (before ++ after'))
    (hrev : t'.revision = t.revision + 1) (hs : Shifted i after after') :
    Thinned t (before ++ (i, e) :: after) t' (before ++ after') := by
  have hentries := hs.entries
  have hlen : after'.length = after.length := by simpa using congrArg List.length hentries
  have hkeys : after'.map (·.2.1) = after.map (·.2.1) := by
    have := congrArg (List.map (·.1)) hentries
    simpa [List.map_map, Function.comp_def] using this
  refine ⟨hk, ?_, ?_, ?_⟩
  · simp only [List.map_append, List.map_cons, hkeys]
    exact List.Sublist.append_left (List.sublist_cons_self _ _) _
  · rw [hrev, show (before ++ (i, e) :: after).length - (before ++ after').length = 1 by
      simp [hlen]; omega]
    rfl
  · intro heq
    simp [hlen] at heq

theorem set {v : V} (hk : t'.Keeps (before ++ (i, e.1, v) :: after))
    (hrev : t'.revision = t.revision) :
    Thinned t (before ++ (i, e) :: after) t' (before ++ (i, e.1, v) :: after) := by
  refine ⟨hk, ?_, ?_, ?_⟩
  · simp
  · simp [hrev]
  · simp

end Thinned

/-- Some entries are gone and each has moved the revision on by one; the others
are as they were. -/
structure Dropped (t : Tree K V) (items : List (Nat × K × V)) (t' : Tree K V)
    (items' : List (Nat × K × V)) : Prop extends Thinned t items t' items' where
  rest : (items'.map (·.2)).Sublist (items.map (·.2))

namespace Dropped

theorem refl (h : t.Keeps items) : Dropped t items t items := ⟨.refl h, .refl _⟩

theorem trans {t'' : Tree K V} {items' items'' : List (Nat × K × V)}
    (h : Dropped t items t' items') (h' : Dropped t' items' t'' items'') :
    Dropped t items t'' items'' :=
  ⟨h.toThinned.trans h'.toThinned, h'.rest.trans h.rest⟩

theorem one {after' : List (Nat × K × V)} (hk : t'.Keeps (before ++ after'))
    (hrev : t'.revision = t.revision + 1) (hs : Shifted i after after') :
    Dropped t (before ++ (i, e) :: after) t' (before ++ after') := by
  refine ⟨.one hk hrev hs, ?_⟩
  rw [List.map_append, List.map_append, List.map_cons, hs.entries]
  exact List.Sublist.append_left (List.sublist_cons_self _ _) _

theorem eq_of_size {items' : List (Nat × K × V)} (h : t.Keeps items)
    (hd : Dropped t items t' items') (hsize : t.size ≤ t'.size) :
    items'.map (·.2) = items.map (·.2) := by
  apply hd.rest.eq_of_length_le
  rw [h.size, hd.keeps.size] at hsize
  simpa using hsize

end Dropped

theorem Taken.dropped {r : Option (K × V) × Tree K V} (h : t.Keeps items) (ht : Taken t items r) :
    ∃ items', Dropped t items r.2 items' := by
  cases ht with
  | nothing => exact ⟨items, .refl h⟩
  | one hitems hshift hk hrev =>
    subst hitems
    exact ⟨_, .one hk hrev hshift⟩

/-! ## Visiting all entries -/

/-- What a visit of a list of entries remembers at the end, and the entries it
keeps, with the values it leaves. -/
def retained {σ : Type} (visit : σ → K → V → σ × V × Bool) : σ → List (K × V) → σ × List (K × V)
  | state, [] => (state, [])
  | state, (key, value) :: rest =>
    let (state, value, keep) := visit state key value
    let (last, kept) := retained visit state rest
    (last, if keep then (key, value) :: kept else kept)

/-- The visit goes along the list, changes values and removes what it does not
keep. -/
theorem retainFrom_ok {σ : Type} (visit : σ → K → V → σ × V × Bool) {steps : Nat} {state : σ}
    (h : t.Keeps (before ++ after)) (hp : after.length ≤ steps) :
    ∃ t' kept, retainFrom visit steps t state (after.head?.map (·.1)) =
        .ok ((retained visit state (after.map (·.2))).1, t') ∧
      kept.map (·.2) = (retained visit state (after.map (·.2))).2 ∧
      Thinned t (before ++ after) t' (before ++ kept) := by
  induction steps generalizing t state before after with
  | zero =>
    obtain rfl := List.length_eq_zero_iff.mp (Nat.le_zero.mp hp)
    exact ⟨t, [], rfl, rfl, .refl h⟩
  | succ steps ih =>
    cases after with
    | nil => exact ⟨t, [], rfl, rfl, .refl h⟩
    | cons x after =>
      obtain ⟨i, e⟩ := x
      obtain ⟨n, hn, rfl⟩ := h.get?
      obtain ⟨t₁, hset, hrev₁, hk₁⟩ := h.setValue (visit state n.key n.value).2.1
      have hset' := Thinned.set hk₁ hrev₁
      simp only [List.head?_cons, Option.map_some, retainFrom, node_ok hn, ok_bind, hset]
      have hlen : after.length ≤ steps := Nat.le_of_succ_le_succ hp
      by_cases hkeep : (visit state n.key n.value).2.2
      · -- The visit goes on after the entry, which now belongs to what lies before.
        have hk₂ : t₁.Keeps
            ((before ++ [(i, n.entry.1, (visit state n.key n.value).2.1)]) ++ after) := by
          rwa [← List.append_cons]
        obtain ⟨t', kept, hrun, hkept, hthin⟩ :=
          @ih t₁ _ _ (visit state n.key n.value).1 hk₂ hlen
        rw [← List.append_cons, ← List.append_cons] at hthin
        refine ⟨t', (i, n.entry.1, (visit state n.key n.value).2.1) :: kept, ?_, ?_, ?_⟩
        · simp [hkeep, hk₁.neighbour_right, hrun, retained, Node.entry]
        · simp [hkept, retained, Node.entry, hkeep]
        · exact hset'.trans hthin
      · obtain ⟨r, after', herase, -, hnext, hrev₂, hk₂, hshift⟩ := eraseNode_ok hk₁
        have hlen' : after'.length = after.length := by
          simpa using congrArg List.length hshift.entries
        -- The visit goes on where the removal says, among the same entries.
        obtain ⟨t', kept, hrun, hkept, hthin⟩ :=
          @ih r.tree _ _ (visit state n.key n.value).1 hk₂ (by omega)
        rw [hshift.entries] at hrun hkept
        refine ⟨t', kept, ?_, ?_, (hset'.trans (.one hk₂ hrev₂ hshift)).trans hthin⟩
        · simp [hkeep, herase, hnext, hrun, retained, Node.entry]
        · simp [hkept, retained, Node.entry, hkeep]

theorem retain_ok {σ : Type} (visit : σ → K → V → σ × V × Bool) (start : σ) (h : t.Keeps items) :
    ∃ t' kept, t.retain visit start = .ok ((retained visit start (items.map (·.2))).1, t') ∧
      kept.map (·.2) = (retained visit start (items.map (·.2))).2 ∧ Thinned t items t' kept := by
  have hfirst : t.firstNode = .ok (items.head?.map (·.1)) := h.endNode .left
  have hlen : items.length ≤ t.patience := Nat.le_of_lt h.length_lt_patience
  obtain ⟨t', kept, hrun, hkept, hthin⟩ :=
    @retainFrom_ok K V t [] items σ visit t.patience start h hlen
  exact ⟨t', kept, by simp [retain, hfirst, hrun], hkept, hthin⟩

end SlotTree.Tree
