import SlotTree.Session.WindowOp
import SlotTree.Proofs.Bounds

/-
  Narrowing — windows inside windows, and the order in which they are opened.

  A lower and an upper bound leave room if one of them is missing, if the lower
  key is less than the upper one, or if the two are equal and both let in. Here
  this is a relation between any lower and any upper bound (`Bound.Clears`), since
  it takes a tighter bound apart: the tighter of two bounds clears a third one
  exactly if both do (`Bound.clears_tighter`).

  So the common part of several intervals leaves room exactly if the lower bound
  of each clears the upper bound of each (`hasRoom_common`), which no order of the
  intervals enters into. Narrowing succeeds exactly if the common part leaves room
  (`narrow_answers`): bounds with a flaw of their own, a crossed common part and
  one that ends at a single key are all there is besides.
-/
namespace SlotTree

variable {K V : Type} {cmp : K → K → Ordering}

namespace Bound

/-- A bound on side `s` and one on the other side leave room between them. -/
def Clears (cmp : K → K → Ordering) (s : Side) (a b : Bound K) : Prop :=
  ∀ x y, a.key? = some x → b.key? = some y →
    cmp x y = s.order ∨ cmp x y = .eq ∧ a.isExcluded = false ∧ b.isExcluded = false

variable {s : Side} {a b c : Bound K} {x y z : K}

theorem clears_comm [Std.OrientedCmp cmp] : a.Clears cmp s b ↔ b.Clears cmp s.other a := by
  -- Both sides speak of the same two keys, in either order.
  have turn : ∀ {s : Side} {a b : Bound K}, a.Clears cmp s b → b.Clears cmp s.other a := by
    intro s a b h y x hy hx
    have hswap : cmp y x = (cmp x y).swap := Std.OrientedCmp.eq_swap
    rcases h x y hx hy with hxy | ⟨hxy, ha, hb⟩
    · left
      rw [hswap, hxy]
      cases s <;> rfl
    · exact .inr ⟨by rw [hswap, hxy]; rfl, hb, ha⟩
  refine ⟨turn, fun h => ?_⟩
  simpa using turn h

variable [Std.TransCmp cmp]

theorem Clears.outward (h : a.Clears cmp s c) (ha : a.key? = some x) (hb : b.key? = some y)
    (hyx : cmp y x = s.order) : b.Clears cmp s c := by
  intro y' z hy' hz
  obtain rfl := Option.some.inj (hb.symm.trans hy')
  left
  rcases h x z ha hz with hxz | ⟨hxz, -, -⟩
  · exact Side.order_trans hyx hxz
  · rw [← Std.TransCmp.congr_right hxz]
    exact hyx

/-- Of two bounds at equal keys the one that lets the key in clears what the other
one clears. -/
theorem Clears.level (h : a.Clears cmp s c) (ha : a.key? = some x) (hb : b.key? = some y)
    (hxy : cmp x y = .eq) (hin : b.isExcluded = true → a.isExcluded = true) :
    b.Clears cmp s c := by
  intro y' z hy' hz
  obtain rfl := Option.some.inj (hb.symm.trans hy')
  rw [← Std.TransCmp.congr_left hxy]
  rcases h x z ha hz with hxz | ⟨hxz, hea, hec⟩
  · exact .inl hxz
  · refine .inr ⟨hxz, ?_, hec⟩
    cases heb : b.isExcluded with
    | false => rfl
    | true =>
      rw [hin heb] at hea
      cases hea

theorem clears_tighter :
    (a.tighter cmp s b).Clears cmp s c ↔ a.Clears cmp s c ∧ b.Clears cmp s c := by
  cases ha : a.key? with
  | none =>
    have hfree : a.Clears cmp s c := by
      intro x z hx
      rw [ha] at hx
      cases hx
    simp [tighter, ha, hfree]
  | some x =>
    cases hb : b.key? with
    | none =>
      have hfree : b.Clears cmp s c := by
        intro y z hy
        rw [hb] at hy
        cases hy
      simp [tighter, ha, hb, hfree]
    | some y =>
      have hswap : cmp y x = (cmp x y).swap := Std.OrientedCmp.eq_swap
      simp only [tighter, ha, hb]
      cases hxy : cmp x y with
      | eq =>
        rw [hxy] at hswap
        cases hex : a.isExcluded with
        | true =>
          rw [if_pos rfl]
          exact ⟨fun h => ⟨h, h.level ha hb hxy (fun _ => hex)⟩, And.left⟩
        | false =>
          rw [if_neg Bool.false_ne_true]
          refine ⟨fun h => ⟨h.level hb ha hswap ?_, h⟩, And.right⟩
          rw [hex]
          exact fun hno => absurd hno Bool.false_ne_true
      | lt =>
        rw [hxy] at hswap
        cases s with
        | left => exact ⟨fun h => ⟨h.outward hb ha hxy, h⟩, And.right⟩
        | right => exact ⟨fun h => ⟨h, h.outward ha hb hswap⟩, And.left⟩
      | gt =>
        rw [hxy] at hswap
        cases s with
        | left => exact ⟨fun h => ⟨h, h.outward ha hb hswap⟩, And.left⟩
        | right => exact ⟨fun h => ⟨h.outward hb ha hxy, h⟩, And.right⟩

end Bound

namespace Interval

/-- One side has no bound, or the lower key is less than the upper one, or the two
are equal and both bounds let them in. -/
def HasRoom (cmp : K → K → Ordering) (i : Interval K) : Prop :=
  i.lower = .unbounded ∨ i.upper = .unbounded ∨
    ∃ lo hi, i.lower.key? = some lo ∧ i.upper.key? = some hi ∧
      (cmp lo hi = .lt ∨
        cmp lo hi = .eq ∧ i.lower.isExcluded = false ∧ i.upper.isExcluded = false)

/-- The common part of an interval and further ones. -/
def common (cmp : K → K → Ordering) (i : Interval K) (bs : List (Interval K)) : Interval K :=
  bs.foldl (intersect cmp) i

variable {i j requested : Interval K} {bs bs' : List (Interval K)}

theorem hasRoom_iff_clears : i.HasRoom cmp ↔ i.lower.Clears cmp .left i.upper := by
  obtain ⟨lower, upper⟩ := i
  cases lower <;> cases upper <;> simp [HasRoom, Bound.Clears, Bound.key?, Side.order]

/-- Bounds leave room unless they are crossed or share a key that one of them keeps
out. -/
theorem hasRoom_iff : i.HasRoom cmp ↔ ¬ i.Crossed cmp ∧ i.meetsAtGap cmp = false := by
  rw [hasRoom_iff_clears]
  obtain ⟨lower, upper⟩ := i
  cases lower with
  | unbounded => cases upper <;> simp [Bound.Clears, Crossed, meetsAtGap, Bound.key?]
  | included lo | excluded lo =>
    cases upper with
    | unbounded => simp [Bound.Clears, Crossed, meetsAtGap, Bound.key?]
    | included hi | excluded hi =>
      cases hcmp : cmp lo hi <;>
        simp [Bound.Clears, Crossed, meetsAtGap, Bound.key?, Bound.isExcluded, Side.order, hcmp]

variable [Std.TransCmp cmp]

theorem lower_intersect_clears {c : Bound K} :
    (i.intersect cmp j).lower.Clears cmp .left c ↔
      i.lower.Clears cmp .left c ∧ j.lower.Clears cmp .left c := Bound.clears_tighter

theorem clears_upper_intersect {c : Bound K} :
    c.Clears cmp .left (i.intersect cmp j).upper ↔
      c.Clears cmp .left i.upper ∧ c.Clears cmp .left j.upper := by
  rw [Bound.clears_comm, Bound.clears_comm (b := i.upper), Bound.clears_comm (b := j.upper)]
  exact Bound.clears_tighter

/-- A common part leaves room exactly if every lower bound clears every upper
one. -/
theorem hasRoom_common : (i.common cmp bs).HasRoom cmp ↔
    ∀ a ∈ i :: bs, ∀ b ∈ i :: bs, a.lower.Clears cmp .left b.upper := by
  induction bs generalizing i with
  | nil => simp [common, hasRoom_iff_clears]
  | cons j bs ih =>
    rw [common, List.foldl_cons, ← common, ih]
    simp only [List.forall_mem_cons, lower_intersect_clears, clears_upper_intersect]
    grind

theorem HasRoom.of_common (h : (i.common cmp bs).HasRoom cmp) : i.HasRoom cmp :=
  hasRoom_iff_clears.mpr (hasRoom_common.mp h i List.mem_cons_self i List.mem_cons_self)

theorem within_common (i : Interval K) (bs : List (Interval K)) (key : K) :
    (i.common cmp bs).within cmp key = (i.within cmp key && bs.all (·.within cmp key)) := by
  induction bs generalizing i with
  | nil => simp [common]
  | cons j bs ih =>
    rw [common, List.foldl_cons, ← common, ih, within_intersect, List.all_cons, Bool.and_assoc]

theorem narrow_answers (cmp : K → K → Ordering) [Std.TransCmp cmp] (i requested : Interval K) :
    ((i.intersect cmp requested).HasRoom cmp ∧
        i.narrow cmp requested = .ok (i.intersect cmp requested)) ∨
      (¬ (i.intersect cmp requested).HasRoom cmp ∧
        ∃ flaw, i.narrow cmp requested = .error (.invalidRange flaw)) := by
  unfold narrow
  rcases requested.check_eq cmp with ⟨hcross, flaw, hcheck⟩ | ⟨-, hcheck⟩
  · -- The common part would leave room between the requested bounds too.
    refine .inr ⟨fun hroom => ?_, flaw, by simp [hcheck]⟩
    rw [hasRoom_iff_clears, lower_intersect_clears, clears_upper_intersect,
      clears_upper_intersect, ← hasRoom_iff_clears, ← hasRoom_iff_clears] at hroom
    exact (hasRoom_iff.mp hroom.2.2).1 hcross
  rcases (i.intersect cmp requested).check_eq cmp with ⟨hcross, flaw, hboth⟩ | ⟨hcross, hboth⟩
  · exact .inr ⟨fun hroom => (hasRoom_iff.mp hroom).1 hcross, flaw, by simp [hcheck, hboth]⟩
  cases hgap : (i.intersect cmp requested).meetsAtGap cmp with
  | true =>
    refine .inr ⟨fun hroom => ?_, .disjoint, by simp [hcheck, hboth, hgap]⟩
    rw [(hasRoom_iff.mp hroom).2] at hgap
    cases hgap
  | false => exact .inl ⟨hasRoom_iff.mpr ⟨hcross, hgap⟩, by simp [hcheck, hboth, hgap]⟩

theorem not_within_of_not_hasRoom (h : ¬ i.HasRoom cmp) (key : K) : i.within cmp key = false := by
  rw [hasRoom_iff, not_and_or, not_not, Bool.not_eq_false] at h
  rcases h with hcross | hgap
  · exact hcross.not_within key
  · exact not_within_of_meetsAtGap hgap key

theorem narrow_eq (cmp : K → K → Ordering) [Std.TransCmp cmp] (i requested : Interval K) :
    (∃ flaw, i.narrow cmp requested = .error (.invalidRange flaw) ∧
        ∀ key, (i.within cmp key && requested.within cmp key) = false) ∨
      ∃ both, i.narrow cmp requested = .ok both ∧
        ∀ key, both.within cmp key = (i.within cmp key && requested.within cmp key) := by
  rcases narrow_answers cmp i requested with ⟨-, hrun⟩ | ⟨hfull, flaw, hrun⟩
  · exact .inr ⟨_, hrun, within_intersect i requested⟩
  · refine .inl ⟨flaw, hrun, ?_⟩
    intro key
    rw [← within_intersect]
    exact not_within_of_not_hasRoom hfull key

end Interval

open SlotTree.Interval

namespace Window

/-- Opens windows inside one another, each on the keys of the one before that lie
between further bounds. -/
def narrowAll (cmp : K → K → Ordering) (w : Window K) (bs : List (Interval K)) :
    Except Refusal (Window K) := bs.foldlM (narrow cmp) w

variable [Std.TransCmp cmp] {w : Window K} {bs bs' : List (Interval K)}

/-- All of several windows can be opened exactly if what is common to all bounds
leaves room, and the last one is that. -/
theorem narrowAll_answers (cmp : K → K → Ordering) [Std.TransCmp cmp] (w : Window K)
    (bs : List (Interval K)) :
    ((bs = [] ∨ (w.interval.common cmp bs).HasRoom cmp) ∧
        w.narrowAll cmp bs = .ok ⟨w.interval.common cmp bs⟩) ∨
      (bs ≠ [] ∧ ¬ (w.interval.common cmp bs).HasRoom cmp ∧
        ∃ flaw, w.narrowAll cmp bs = .error (.invalidRange flaw)) := by
  induction bs generalizing w with
  | nil => exact .inl ⟨.inl rfl, rfl⟩
  | cons b bs ih =>
    have hcommon : w.interval.common cmp (b :: bs) = (w.interval.intersect cmp b).common cmp bs :=
      rfl
    rw [hcommon, narrowAll, List.foldlM_cons, narrow]
    rcases narrow_answers cmp w.interval b with ⟨hroom, hrun⟩ | ⟨hfull, flaw, hrun⟩
    · rw [hrun]
      rcases ih ⟨w.interval.intersect cmp b⟩ with ⟨hall, hrest⟩ | ⟨-, hfull, flaw, hrest⟩
      · refine .inl ⟨.inr ?_, hrest⟩
        rcases hall with rfl | hall
        · exact hroom
        · exact hall
      · exact .inr ⟨List.cons_ne_nil b bs, hfull, flaw, hrest⟩
    · rw [hrun]
      exact .inr ⟨List.cons_ne_nil b bs, fun hroom => hfull hroom.of_common, flaw, rfl⟩

theorem hasRoom_common_perm (h : bs.Perm bs') :
    (w.interval.common cmp bs).HasRoom cmp ↔ (w.interval.common cmp bs').HasRoom cmp := by
  simp only [hasRoom_common, List.mem_cons, h.mem_iff]

theorem isOk_narrowAll_perm (h : bs.Perm bs') :
    (w.narrowAll cmp bs).isOk = (w.narrowAll cmp bs').isOk := by
  have hnil : bs = [] ↔ bs' = [] := ⟨fun hb => (hb ▸ h).nil_eq.symm, fun hb => (hb ▸ h).eq_nil⟩
  have hroom : (w.interval.common cmp bs).HasRoom cmp ↔ (w.interval.common cmp bs').HasRoom cmp :=
    hasRoom_common_perm h
  rcases narrowAll_answers cmp w bs with ⟨hok, hrun⟩ | ⟨hne, hfull, flaw, hrun⟩
  · rcases narrowAll_answers cmp w bs' with ⟨-, hrun'⟩ | ⟨hne', hfull', -⟩
    · rw [hrun, hrun']
      rfl
    · rw [hnil, hroom] at hok
      exact (hok.elim hne' hfull').elim
  · rcases narrowAll_answers cmp w bs' with ⟨hok', -⟩ | ⟨-, -, flaw', hrun'⟩
    · rw [← hnil, ← hroom] at hok'
      exact (hok'.elim hne hfull).elim
    · rw [hrun, hrun']
      rfl

theorem admits_narrowAll {inner : Window K} (h : w.narrowAll cmp bs = .ok inner) (key : K) :
    inner.admits cmp key = (w.admits cmp key && bs.all (·.within cmp key)) := by
  rcases narrowAll_answers cmp w bs with ⟨-, hrun⟩ | ⟨-, -, flaw, hrun⟩
  · obtain rfl := Except.ok.inj (h.symm.trans hrun)
    rw [admits, admits, ← within_eq, ← within_eq, within_common]
  · rw [hrun] at h
    cases h

end Window

/-- Under a lawful comparison a window is opened inside another one exactly if the
common part of the bounds leaves room. It admits the keys that both admit, and all
further operations on it, to read or to change, are answered by it. If it is
refused, there is no such key, and the tree stays as it is. So for several bounds,
one after the other, their order changes neither whether all windows are opened nor
which keys the last one admits. -/
theorem narrow_in_any_order [Written K] (cmp : K → K → Ordering) [Std.TransCmp cmp]
    (w : Window K) :
    (∀ requested : Interval K,
      ((w.interval.intersect cmp requested).HasRoom cmp ∧ ∃ inner,
          w.narrow cmp requested = .ok inner ∧
          (∀ key, inner.admits cmp key = (w.admits cmp key && requested.within cmp key)) ∧
          ∀ t : Tree K V,
            (∀ ops, (WindowRead.narrow requested ops).run cmp t w =
              .answers <$> WindowRead.runAll cmp t inner ops) ∧
            ∀ ops, (WindowWrite.narrow requested ops).run cmp t w =
              (fun done => (.answers done.1, done.2)) <$> WindowWrite.runAll cmp t inner ops) ∨
        (¬ (w.interval.intersect cmp requested).HasRoom cmp ∧ ∃ flaw,
          w.narrow cmp requested = .error (.invalidRange flaw) ∧
          (∀ key, (w.admits cmp key && requested.within cmp key) = false) ∧
          ∀ t : Tree K V,
            (∀ ops, (WindowRead.narrow requested ops).run cmp t w =
              .ok (.refused (.invalidRange flaw))) ∧
            ∀ ops, (WindowWrite.narrow requested ops).run cmp t w =
              .ok (.refused (.invalidRange flaw), t))) ∧
      ∀ bs bs' : List (Interval K), bs.Perm bs' →
        (w.narrowAll cmp bs).isOk = (w.narrowAll cmp bs').isOk ∧
        ∀ inner inner', w.narrowAll cmp bs = .ok inner → w.narrowAll cmp bs' = .ok inner' →
          ∀ key, inner.admits cmp key = inner'.admits cmp key := by
  constructor
  · intro requested
    rcases narrow_answers cmp w.interval requested with ⟨hroom, hrun⟩ | ⟨hfull, flaw, hrun⟩
    · have hopen : w.narrow cmp requested = .ok ⟨w.interval.intersect cmp requested⟩ := by
        rw [Window.narrow, hrun, map_ok]
      refine .inl ⟨hroom, _, hopen, ?_, ?_⟩
      · intro key
        rw [Window.admits, Window.admits, ← within_eq, ← within_eq, within_intersect]
      · intro t
        refine ⟨fun ops => by simp only [WindowRead.run, hopen], fun ops => ?_⟩
        simp only [WindowWrite.run, hopen]
        cases WindowWrite.runAll cmp t ⟨w.interval.intersect cmp requested⟩ ops <;> rfl
    · have hrefused : w.narrow cmp requested = .error (.invalidRange flaw) := by
        rw [Window.narrow, hrun]
        rfl
      refine .inr ⟨hfull, flaw, hrefused, ?_, ?_⟩
      · intro key
        rw [Window.admits, ← within_eq, ← within_intersect]
        exact not_within_of_not_hasRoom hfull key
      · intro t
        exact ⟨fun ops => by simp only [WindowRead.run, hrefused],
          fun ops => by simp only [WindowWrite.run, hrefused]⟩
  · intro bs bs' hperm
    refine ⟨Window.isOk_narrowAll_perm hperm, ?_⟩
    intro inner inner' h h' key
    rw [Window.admits_narrowAll h, Window.admits_narrowAll h', hperm.all_eq]

/-- Three bounds in two orders, where numbers that differ in sign only are equal
keys; and bounds that meet the window at a key that one of them keeps out. -/
theorem signless_any_order :
    let cmp : Int → Int → Ordering := compareOn Int.natAbs
    let w : Window Int := ⟨⟨.included 1, .excluded 9⟩⟩
    let bs : List (Interval Int) :=
      [⟨.included 3, .unbounded⟩, ⟨.excluded (-3), .included 7⟩, ⟨.unbounded, .included (-7)⟩]
    w.narrowAll cmp bs = .ok ⟨⟨.excluded (-3), .included (-7)⟩⟩ ∧
      w.narrowAll cmp bs.reverse = .ok ⟨⟨.excluded (-3), .included 7⟩⟩ ∧
      (∀ key, Window.admits cmp ⟨⟨.excluded (-3), .included (-7)⟩⟩ key =
        Window.admits cmp ⟨⟨.excluded (-3), .included 7⟩⟩ key) ∧
      ∃ flaw, w.narrow cmp ⟨.included (-9), .unbounded⟩ = .error (.invalidRange flaw) := by
  intro cmp w bs
  obtain ⟨hone, hall⟩ := @narrow_in_any_order Int Int _ (compareOn Int.natAbs) inferInstance w
  obtain ⟨-, hadmits⟩ := hall bs bs.reverse (List.reverse_perm bs).symm
  refine ⟨rfl, rfl, hadmits _ _ rfl rfl, ?_⟩
  rcases hone ⟨.included (-9), .unbounded⟩ with ⟨hroom, -⟩ | ⟨-, flaw, hrefused, -⟩
  · obtain hroom | hroom | ⟨lo, hi, hlo, hhi, hcmp⟩ := hroom
    · cases hroom
    · cases hroom
    · obtain rfl := Option.some.inj hlo
      obtain rfl := Option.some.inj hhi
      rcases hcmp with hcmp | ⟨-, -, hcmp⟩ <;> cases hcmp
  · exact ⟨flaw, hrefused⟩

end SlotTree
