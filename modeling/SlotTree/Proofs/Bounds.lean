import SlotTree.Window
import SlotTree.Proofs.Slots

/-
  Bounds — what an interval says of a key under a lawful comparison.

  Each end of an interval is tested by asking whether a key lies beyond it. Here
  the bounds are said the usual way round, as lower and upper (`Interval.within`),
  and the two agree (`within_eq`). Of two keys, the one further out on a side is
  beyond the bound there if the other one is (`isBeyond_mono`): so in a sorted
  list the entries beyond an end lie together at that end.

  Bounds are refused exactly if they are crossed (`check_eq`), and between
  crossed bounds there is no key (`Crossed.not_within`). In the common part of two
  intervals lie the keys that lie in both (`within_intersect`).
-/
namespace SlotTree

variable {K : Type} {cmp : K → K → Ordering}

theorem Side.order_trans [Std.TransCmp cmp] {s : Side} {x y z : K} (hxy : cmp x y = s.order)
    (hyz : cmp y z = s.order) : cmp x z = s.order := by
  cases s with
  | left => exact Std.TransCmp.lt_trans hxy hyz
  | right => exact Std.TransCmp.gt_trans hxy hyz

namespace Bound

/-- Whether a key satisfies the bound as a lower one. -/
def liesBelow (cmp : K → K → Ordering) (b : Bound K) (key : K) : Bool :=
  match b with
  | .included lo => (cmp lo key).isLE
  | .excluded lo => cmp lo key == .lt
  | .unbounded => true

/-- Whether a key satisfies the bound as an upper one. -/
def liesAbove (cmp : K → K → Ordering) (b : Bound K) (key : K) : Bool :=
  match b with
  | .included hi => (cmp key hi).isLE
  | .excluded hi => cmp key hi == .lt
  | .unbounded => true

theorem liesBelow_eq [Std.OrientedCmp cmp] (b : Bound K) (key : K) :
    b.liesBelow cmp key = !b.isBeyond cmp .left key := by
  cases b with
  | unbounded => rfl
  | included lo | excluded lo =>
    simp only [liesBelow, isBeyond, Side.order, Side.other]
    rw [show cmp lo key = (cmp key lo).swap from Std.OrientedCmp.eq_swap]
    cases cmp key lo <;> rfl

theorem liesAbove_eq (b : Bound K) (key : K) :
    b.liesAbove cmp key = !b.isBeyond cmp .right key := by
  cases b with
  | unbounded => rfl
  | included hi | excluded hi =>
    simp only [liesAbove, isBeyond, Side.order, Side.other]
    cases cmp key hi <;> rfl

/-- Beyond a bound lies what is further out than its key, and the key itself if
the bound keeps it out. -/
theorem isBeyond_iff {b : Bound K} {k key : K} {s : Side} (hk : b.key? = some k) :
    b.isBeyond cmp s key = true ↔
      cmp key k = s.order ∨ b.isExcluded = true ∧ cmp key k = .eq := by
  cases b with
  | unbounded => cases hk
  | included x =>
    obtain rfl := Option.some.inj hk
    simp [isBeyond, isExcluded]
  | excluded x =>
    obtain rfl := Option.some.inj hk
    simp only [isBeyond, isExcluded, bne_iff_ne, true_and]
    cases s <;> cases cmp key x <;> simp [Side.order, Side.other]

theorem not_isBeyond_of_key {b : Bound K} {key : K} {s : Side} (hk : b.key? = none) :
    b.isBeyond cmp s key = false := by
  cases b with
  | unbounded => rfl
  | included | excluded => cases hk

variable [Std.TransCmp cmp] {s : Side} {a b x y z : K} {bd : Bound K}

theorem order_of_isBeyond (hk : bd.key? = some y) (hx : bd.isBeyond cmp s x = true)
    (hyz : cmp y z = s.order) : cmp x z = s.order := by
  rcases (isBeyond_iff hk).mp hx with hxy | ⟨-, hxy⟩
  · exact Side.order_trans hxy hyz
  · rw [Std.TransCmp.congr_left hxy]
    exact hyz

theorem isBeyond_mono (hab : cmp a b = s.order) (hb : bd.isBeyond cmp s b = true) :
    bd.isBeyond cmp s a = true := by
  cases hk : bd.key? with
  | none =>
    rw [not_isBeyond_of_key hk] at hb
    cases hb
  | some k =>
    refine (isBeyond_iff hk).mpr (.inl ?_)
    rcases (isBeyond_iff hk).mp hb with hbk | ⟨-, hbk⟩
    · exact Side.order_trans hab hbk
    · rw [← Std.TransCmp.congr_right hbk]
      exact hab

theorem isBeyond_congr (hab : cmp a b = .eq) : bd.isBeyond cmp s a = bd.isBeyond cmp s b := by
  cases bd with
  | unbounded => rfl
  | included k | excluded k => simp only [isBeyond, Std.TransCmp.congr_left hab]

theorem order_of_beyond (ha : bd.isBeyond cmp s a = true) (hb : bd.isBeyond cmp s b = false) :
    cmp a b = s.order := by
  have hne : cmp a b ≠ .eq := by
    intro hab
    rw [isBeyond_congr hab, hb] at ha
    cases ha
  have hnot : cmp b a ≠ s.order := by
    intro hba
    rw [isBeyond_mono hba ha] at hb
    cases hb
  have hswap : cmp b a = (cmp a b).swap := Std.OrientedCmp.eq_swap
  rw [hswap] at hnot
  cases hab : cmp a b <;> cases s <;> simp_all [Side.order]

theorem isBeyond_tighter (c d : Bound K) (key : K) :
    (c.tighter cmp s d).isBeyond cmp s key =
      (c.isBeyond cmp s key || d.isBeyond cmp s key) := by
  -- Of two different keys the one further in decides.
  have inner : ∀ {c d : Bound K} {x y : K}, c.key? = some x → d.key? = some y →
      cmp y x = s.order →
      c.isBeyond cmp s key = (c.isBeyond cmp s key || d.isBeyond cmp s key) := by
    intro c d x y hc hd hyx
    cases hkey : d.isBeyond cmp s key with
    | false => simp
    | true =>
      rw [Bool.or_true]
      exact (isBeyond_iff hc).mpr (.inl (order_of_isBeyond hd hkey hyx))
  cases hc : c.key? with
  | none => simp [tighter, hc, not_isBeyond_of_key hc]
  | some x =>
    cases hd : d.key? with
    | none => simp [tighter, hc, hd, not_isBeyond_of_key hd]
    | some y =>
      simp only [tighter, hc, hd]
      have hswap : cmp y x = (cmp x y).swap := Std.OrientedCmp.eq_swap
      cases hxy : cmp x y with
      | eq =>
        -- Of two bounds at equal keys the one that keeps the key out decides.
        have hkey : cmp key x = cmp key y := Std.TransCmp.congr_right hxy
        rw [Bool.eq_iff_iff, Bool.or_eq_true, isBeyond_iff hc, isBeyond_iff hd, hkey]
        cases hex : c.isExcluded with
        | true =>
          rw [if_pos rfl, isBeyond_iff hc, hkey, hex]
          grind
        | false =>
          rw [if_neg Bool.false_ne_true, isBeyond_iff hd]
          grind
      | lt =>
        rw [hxy] at hswap
        cases s with
        | left => exact (inner hd hc hxy).trans (Bool.or_comm ..)
        | right => exact inner hc hd hswap
      | gt =>
        rw [hxy] at hswap
        cases s with
        | left => exact inner hc hd hswap
        | right => exact (inner hd hc hxy).trans (Bool.or_comm ..)

end Bound

namespace Interval

/-- Whether a key satisfies both bounds. -/
def within (cmp : K → K → Ordering) (i : Interval K) (key : K) : Bool :=
  i.lower.liesBelow cmp key && i.upper.liesAbove cmp key

/-- The lower key is greater than the upper one, or they are equal and both
bounds keep it out. -/
def Crossed (cmp : K → K → Ordering) (i : Interval K) : Prop :=
  ∃ lo hi, i.lower.key? = some lo ∧ i.upper.key? = some hi ∧
    (cmp lo hi = .gt ∨ cmp lo hi = .eq ∧ i.lower.isExcluded = true ∧ i.upper.isExcluded = true)

/-- Bounds are refused exactly if they are crossed. -/
theorem check_eq (cmp : K → K → Ordering) (i : Interval K) :
    (i.Crossed cmp ∧ ∃ flaw, i.check cmp = .error (.invalidRange flaw)) ∨
      (¬ i.Crossed cmp ∧ i.check cmp = .ok ()) := by
  unfold check flaw? Crossed
  cases i.lower.key? with
  | none => exact .inr ⟨by simp, rfl⟩
  | some lo =>
    cases i.upper.key? with
    | none => exact .inr ⟨by simp, rfl⟩
    | some hi =>
      cases hcmp : cmp lo hi with
      | lt => exact .inr ⟨by simp [hcmp], by simp [hcmp]⟩
      | gt => exact .inl ⟨⟨lo, hi, rfl, rfl, .inl hcmp⟩, _, by simp only [hcmp]; rfl⟩
      | eq =>
        by_cases hex : i.lower.isExcluded && i.upper.isExcluded
        · have hex' := hex
          rw [Bool.and_eq_true] at hex'
          refine .inl ⟨⟨lo, hi, rfl, rfl, .inr ⟨hcmp, hex'⟩⟩, .bothExcluded, ?_⟩
          simp [hcmp, hex]
        · refine .inr ⟨?_, by simp [hcmp, hex]⟩
          simpa [hcmp] using hex

theorem within_eq [Std.OrientedCmp cmp] (i : Interval K) (key : K) :
    i.within cmp key = i.contains cmp key := by
  rw [within, Bound.liesBelow_eq, Bound.liesAbove_eq]
  rfl

theorem not_isBeyond [Std.OrientedCmp cmp] {i : Interval K} {key : K}
    (h : i.within cmp key = true) (s : Side) : i.isBeyond cmp s key = false := by
  rw [within_eq, contains, Bool.and_eq_true, Bool.not_eq_true', Bool.not_eq_true'] at h
  cases s with
  | left => exact h.1
  | right => exact h.2

variable [Std.TransCmp cmp] {i : Interval K} {key : K}

theorem Crossed.not_within (h : i.Crossed cmp) (key : K) : i.within cmp key = false := by
  obtain ⟨lo, hi, hlo, hhi, hcross⟩ := h
  rw [within_eq, Bool.eq_false_iff]
  intro hin
  simp only [contains, isBeyond, bound, Bool.and_eq_true, Bool.not_eq_true', ← Bool.not_eq_true,
    Bound.isBeyond_iff hlo, Bound.isBeyond_iff hhi, Side.order] at hin
  obtain ⟨hlower, hupper⟩ := hin
  rcases hcross with hgt | ⟨heq, hexl, hexu⟩
  · -- A key that is not above the upper key is below the lower one.
    apply hlower
    left
    have hlt : cmp hi lo = .lt := Std.OrientedCmp.lt_of_gt hgt
    cases hkey : cmp key hi with
    | lt => exact Std.TransCmp.lt_trans hkey hlt
    | eq => exact Std.TransCmp.lt_of_eq_of_lt hkey hlt
    | gt => exact absurd (.inl hkey) hupper
  · -- The key would lie strictly between two equal ones.
    have hkey : cmp key lo = cmp key hi := Std.TransCmp.congr_right heq
    rw [hkey] at hlower
    cases hcmp : cmp key hi with
    | lt => exact hlower (.inl hcmp)
    | eq => exact hlower (.inr ⟨hexl, hcmp⟩)
    | gt => exact hupper (.inl hcmp)

theorem within_congr {a b : K} (hab : cmp a b = .eq) : i.within cmp a = i.within cmp b := by
  rw [within_eq, within_eq, contains, contains]
  simp only [isBeyond, Bound.isBeyond_congr hab]

theorem within_intersect (i j : Interval K) (key : K) :
    (i.intersect cmp j).within cmp key = (i.within cmp key && j.within cmp key) := by
  simp only [within_eq, contains, isBeyond, bound, intersect, Bound.isBeyond_tighter]
  cases i.lower.isBeyond cmp .left key <;> cases i.upper.isBeyond cmp .right key <;> simp

theorem not_within_of_meetsAtGap (h : i.meetsAtGap cmp = true) (key : K) :
    i.within cmp key = false := by
  obtain ⟨lower, upper⟩ := i
  rw [Bool.eq_false_iff]
  intro hin
  simp only [within, Bool.and_eq_true] at hin
  obtain ⟨hlower, hupper⟩ := hin
  -- The key would make the lower key less than the upper one.
  have less : ∀ {lo hi : K}, (cmp lo hi == .eq) = true → cmp lo hi = .lt → False := by
    intro lo hi heq hlt
    rw [hlt] at heq
    cases heq
  cases lower with
  | unbounded => cases h
  | included lo =>
    cases upper with
    | unbounded | included => cases h
    | excluded hi => exact less h (Std.TransCmp.lt_of_isLE_of_lt hlower (beq_iff_eq.mp hupper))
  | excluded lo =>
    cases upper with
    | unbounded | excluded => cases h
    | included hi => exact less h (Std.TransCmp.lt_of_lt_of_isLE (beq_iff_eq.mp hlower) hupper)

end Interval

end SlotTree
