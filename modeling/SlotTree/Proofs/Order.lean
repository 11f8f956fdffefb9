import SlotTree.Proofs.Search

/-
  Order — what a search finds in a sorted tree.

  A lawful comparison is one in `Std.TransCmp`: comparing the other way round
  gives the reverse answer, and "not greater" is transitive. Keys that compare
  as equal may still be different keys.

  In a tree whose keys ascend strictly, a search splits the list of items
  where the key is or would be: all items before the place lie on one side of
  the key and all items after it on the other (`Meets.parts`, `Splits.parts`).
-/
namespace SlotTree

variable {K V : Type}

/-- The keys ascend strictly. -/
def Ascending (cmp : K → K → Ordering) (es : List (K × V)) : Prop :=
  es.Pairwise (fun a b => cmp a.1 b.1 = .lt)

/-- A cut that goes on to the right of everything to the left of what it goes
to the right of, and the other way round. -/
structure Respects (cmp : K → K → Ordering) (cut : K → Ordering) : Prop where
  lt : ∀ a b, cmp a b = .lt → cut a = .lt → cut b = .lt
  gt : ∀ a b, cmp a b = .lt → cut b = .gt → cut a = .gt

/-- The cut lies after the first items and before the second ones. -/
structure Parts (cut : K → Ordering) (before after : List (K × V)) : Prop where
  before : ∀ e ∈ before, cut e.1 = .gt
  after : ∀ e ∈ after, cut e.1 = .lt

theorem Parts.ne_eq {cut : K → Ordering} {before after : List (K × V)}
    (h : Parts cut before after) : ∀ e ∈ before ++ after, cut e.1 ≠ .eq := by
  intro e he
  rcases List.mem_append.mp he with he | he
  · simp [h.before e he]
  · simp [h.after e he]

section Lawful

variable {cmp : K → K → Ordering} [Std.TransCmp cmp]

theorem respects_cmp (key : K) : Respects cmp (cmp key) where
  lt := fun _ _ hab ha => Std.TransCmp.lt_trans ha hab
  gt := fun _ _ hab hb => Std.TransCmp.gt_trans hb (Std.OrientedCmp.gt_of_lt hab)

theorem respects_cut (s : Side) (inclusive : Bool) (key : K) :
    Respects cmp (s.cut cmp inclusive key) where
  lt := by
    intro a b hab ha
    have hb : cmp key b = .lt := by
      cases hk : cmp key a with
      | lt => exact Std.TransCmp.lt_trans hk hab
      | eq => exact Std.TransCmp.lt_of_eq_of_lt hk hab
      | gt => simp [Side.cut, hk] at ha
    simp [Side.cut, hb]
  gt := by
    intro a b hab hb
    have ha : cmp key a = .gt := by
      have hba := Std.OrientedCmp.gt_of_lt hab
      cases hk : cmp key b with
      | lt => simp [Side.cut, hk] at hb
      | eq => exact Std.TransCmp.gt_of_eq_of_gt hk hba
      | gt => exact Std.TransCmp.gt_trans hk hba
    simp [Side.cut, ha]

end Lawful

/-! ## Where a search splits the items -/

section Splitting

variable {cmp : K → K → Ordering} {cut : K → Ordering} {up : Trail K V} {sh : Shape K V}

theorem Trail.Toward.parts (hup : up.Toward cut) (hcut : Respects cmp cut)
    (h : Ascending cmp (up.fill sh).entries) :
    Parts cut ((up.beyond .left).map (·.2)) ((up.beyond .right).map (·.2)) := by
  induction up generalizing sh with
  | top => exact ⟨nofun, nofun⟩
  | under f up ih =>
    obtain ⟨s, c, i, e, other⟩ := f
    obtain ⟨hturn, hup⟩ := hup
    obtain ⟨hbefore, hafter⟩ := ih hup h
    rw [Trail.fill_under, Shape.entries, Trail.items_fill, Crumb.fill] at h
    simp only [Ascending, List.map_append, List.pairwise_append] at h
    cases s with
    | left =>
      -- The hole is to the left: the node and all to the right of it come after the cut.
      have hright : ∀ x ∈ other.items.map (·.2), cmp e.1 x.1 = .lt := by
        have := h.1.2.1
        simp only [Shape.branch, Shape.items, List.map_append, List.map_cons,
          List.pairwise_append, List.pairwise_cons] at this
        exact this.2.1.1
      refine ⟨by simpa [Trail.beyond] using hbefore, fun x hx => ?_⟩
      simp only [Trail.beyond, reduceCtorEq, if_false, List.map_append, List.map_cons,
        List.cons_append, List.mem_cons, List.mem_append] at hx
      rcases hx with rfl | hx | hx
      · exact hturn
      · exact hcut.lt _ _ (hright x hx) hturn
      · exact hafter x hx
    | right =>
      have hleft : ∀ x ∈ other.items.map (·.2), cmp x.1 e.1 = .lt := by
        have := h.1.2.1
        simp only [Shape.branch, Shape.items, List.map_append, List.map_cons,
          List.pairwise_append, List.pairwise_cons] at this
        exact fun x hx => this.2.2 x hx e (by simp)
      refine ⟨fun x hx => ?_, by simpa [Trail.beyond] using hafter⟩
      simp only [Trail.beyond, reduceCtorEq, if_false, List.map_append, List.map_cons,
        List.map_nil, List.mem_append, List.mem_cons, List.not_mem_nil, or_false] at hx
      rcases hx with (hx | hx) | rfl
      · exact hbefore x hx
      · exact hcut.gt _ _ (hleft x hx) hturn
      · exact hturn

theorem Shape.Splits.parts (h : sh.Splits cut up) (hcut : Respects cmp cut)
    (hs : Ascending cmp sh.entries) :
    Parts cut ((up.beyond .left).map (·.2)) ((up.beyond .right).map (·.2)) := by
  obtain ⟨rfl, hup⟩ := h
  exact hup.parts hcut hs

end Splitting

/-! ## Lists whose keys ascend -/

section Lists

variable {cmp : K → K → Ordering} {before after : List (K × V)} {key : K} {v : V} {e : K × V}

theorem Ascending.keys {es es' : List (K × V)} (h : Ascending cmp es)
    (hk : (es'.map (·.1)).Sublist (es.map (·.1))) : Ascending cmp es' := by
  have : (es.map (·.1)).Pairwise (fun a b => cmp a b = .lt) := List.pairwise_map.mpr h
  exact List.pairwise_map.mp (this.sublist hk)

theorem Ascending.insert [Std.OrientedCmp cmp] (h : Ascending cmp (before ++ after))
    (hp : Parts (cmp key) before after) : Ascending cmp (before ++ (key, v) :: after) := by
  simp only [Ascending, List.pairwise_append, List.pairwise_cons, List.mem_cons] at h ⊢
  refine ⟨h.1, ⟨fun b hb => hp.after b hb, h.2.1⟩, ?_⟩
  rintro a ha b (rfl | hb)
  · exact Std.OrientedCmp.lt_of_gt (hp.before a ha)
  · exact h.2.2 a ha b hb

/-- Around an item that the cut meets the others lie on their sides. -/
theorem Ascending.parts [Std.TransCmp cmp] (h : Ascending cmp (before ++ e :: after))
    (he : cmp key e.1 = .eq) : Parts (cmp key) before after := by
  simp only [Ascending, List.pairwise_append, List.pairwise_cons, List.mem_cons] at h
  refine ⟨fun b hb => ?_, fun b hb => Std.TransCmp.lt_of_eq_of_lt he (h.2.1.1 b hb)⟩
  exact Std.TransCmp.gt_of_eq_of_gt he (Std.OrientedCmp.gt_of_lt (h.2.2 b hb e (.inl rfl)))

end Lists

end SlotTree
