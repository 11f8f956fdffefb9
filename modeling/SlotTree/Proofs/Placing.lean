import SlotTree.Proofs.Gap
import SlotTree.Proofs.Order

/-
  Placings — where a new cursor stands.

  A new cursor stands in a gap of the list of entries with nothing in hand,
  whatever the comparison (`place_stands`). In a sorted tree a cursor placed
  before a key stands after exactly the entries whose keys are less.
-/
namespace SlotTree

variable {K V : Type}

namespace CursorPlace

/-- The gap that a placement opens in a list of entries. -/
def gap (cmp : K → K → Ordering) (p : CursorPlace K) (es : List (K × V)) : Gap K V :=
  match p with
  | front => ⟨[], es, none⟩
  | back => ⟨es, [], none⟩
  | before key =>
    ⟨es.filter (fun e => cmp e.1 key = .lt), es.filter (fun e => cmp e.1 key ≠ .lt), none⟩

/-- Whether a placement asks the comparison. -/
def compares : CursorPlace K → Bool
  | before _ => true
  | front | back => false

end CursorPlace

theorem filter_split {cmp : K → K → Ordering} [Std.OrientedCmp cmp] {key : K}
    {before after : List (K × V)} (hb : ∀ e ∈ before, cmp key e.1 = .gt)
    (ha : ∀ e ∈ after, cmp key e.1 ≠ .gt) :
    (before ++ after).filter (fun e => cmp e.1 key = .lt) = before ∧
      (before ++ after).filter (fun e => cmp e.1 key ≠ .lt) = after := by
  have hless : ∀ e ∈ before, cmp e.1 key = .lt :=
    fun e he => Std.OrientedCmp.lt_of_gt (hb e he)
  have hnot : ∀ e ∈ after, cmp e.1 key ≠ .lt :=
    fun e he hlt => ha e he (Std.OrientedCmp.gt_of_lt hlt)
  constructor
  · rw [List.filter_append, List.filter_eq_self.mpr (by simpa using hless),
      List.filter_eq_nil_iff.mpr (by simpa using hnot), List.append_nil]
  · rw [List.filter_append, List.filter_eq_nil_iff.mpr (by simpa using hless),
      List.filter_eq_self.mpr (by simpa using hnot), List.nil_append]

namespace Tree

variable {t : Tree K V} {items : List (Nat × K × V)}

/-- A search for the least key that is not below `key` ends at the start of a
tail of the list. -/
theorem nearest_splits (cmp : K → K → Ordering) (h : t.Keeps items) (key : K) :
    ∃ before after, items = before ++ after ∧
      t.nearest cmp .right true key = .ok (after.head?.map (·.1)) ∧
      ∀ [Std.TransCmp cmp], Ascending cmp (items.map (·.2)) →
        (∀ e ∈ before.map (·.2), cmp key e.1 = .gt) ∧ ∀ e ∈ after.map (·.2), cmp key e.1 ≠ .gt := by
  obtain ⟨-, sh, hsound, rfl⟩ := h
  obtain ⟨l, hrun, hl⟩ := nearest_ok cmp .right true hsound.holds key
  rw [Side.cut_inclusive] at hl
  rcases hl with ⟨i, e, rfl, hm⟩ | ⟨up, rfl, hs⟩
  · obtain ⟨before, after, hitems⟩ := hm.items
    have he : cmp key e.1 = .eq := by
      obtain ⟨-, -, -, -, -, -, he⟩ := hm
      exact he
    refine ⟨before, (i, e) :: after, hitems, hrun, ?_⟩
    intro _ ha
    rw [hitems, List.map_append, List.map_cons] at ha
    have hp := ha.parts he
    refine ⟨hp.before, ?_⟩
    intro x hx
    rcases List.mem_cons.mp hx with rfl | hx
    · simp [he]
    · simp [hp.after x hx]
  · refine ⟨_, _, hs.items, hrun, ?_⟩
    intro _ ha
    have hp := hs.parts (respects_cmp key) ha
    refine ⟨hp.before, ?_⟩
    intro x hx
    simp [hp.after x hx]

end Tree

namespace Cursor

variable {t : Tree K V} {items : List (Nat × K × V)}

theorem seek_stands (cmp : K → K → Ordering) (h : t.Keeps items) (key : K) :
    ∃ c before after, seek cmp t key = .ok c ∧ Stands t c before after none ∧
      before ++ after = items ∧
      ∀ [Std.TransCmp cmp], Ascending cmp (items.map (·.2)) →
        Gap.between before after none = (CursorPlace.before key).gap cmp (items.map (·.2)) := by
  obtain ⟨before, after, rfl, hnear, hsplit⟩ := Tree.nearest_splits cmp h key
  refine ⟨_, before, after, ?_, stands_between h, rfl, ?_⟩
  · cases after with
    | nil =>
      have hlast := h.endNode .right
      simp only [List.append_nil] at hlast
      simp [seek, hnear, Tree.lastNode, hlast, Side.tip]
    | cons x after =>
      obtain ⟨i, e⟩ := x
      simp [seek, hnear, h.neighbour_left]
  · intro _ ha
    obtain ⟨hb, ha'⟩ := hsplit ha
    obtain ⟨hbefore, hafter⟩ := filter_split hb ha'
    rw [← List.map_append] at hbefore hafter
    simp only [CursorPlace.gap, Gap.between, hbefore, hafter]

theorem place_stands (cmp : K → K → Ordering) (h : t.Keeps items) (p : CursorPlace K) :
    ∃ c before after, p.cursor cmp t = .ok c ∧ Stands t c before after none ∧
      before ++ after = items ∧
      ((p.compares = true → Std.TransCmp cmp ∧ Ascending cmp (items.map (·.2))) →
        Gap.between before after none = p.gap cmp (items.map (·.2))) := by
  cases p with
  | front =>
    obtain ⟨c, hrun, hstands⟩ := front_stands h
    exact ⟨c, [], items, hrun, hstands, rfl, fun _ => rfl⟩
  | back =>
    obtain ⟨c, hrun, hstands⟩ := back_stands h
    exact ⟨c, items, [], hrun, hstands, List.append_nil _, fun _ => rfl⟩
  | before key =>
    obtain ⟨c, before, after, hrun, hstands, hlist, hgap⟩ := seek_stands cmp h key
    refine ⟨c, before, after, hrun, hstands, hlist, ?_⟩
    intro hlaw
    obtain ⟨_, ha⟩ := hlaw rfl
    exact hgap ha

end Cursor

end SlotTree
