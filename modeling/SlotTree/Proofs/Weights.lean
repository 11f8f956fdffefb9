import SlotTree.Proofs.MendBlack
import SlotTree.Proofs.Sequence
import SlotTree.Proofs.Verdict

/-
  Weights — the colour rules with a fault at one node.

  While a tree is repaired one node breaks the rules: it is red below a red node
  or as the root, or the ways through it are one black node short, or it is still
  linked although it is to count as a missing one. A `Weight` says what each node
  counts on a way down, so that all of these are one statement: the ways weigh the
  same under the right weight, and no other node is at fault (`Tree.Nearly`).
  Without a fault that is a red-black tree (`Tree.RedBlack`).

  On shapes the two halves of the statement are `Shape.Weighs` and `Shape.Calm`.
  A trail around the node at fault takes what the rules say belongs there
  (`Trail.takes_of_calm`); what fits into a trail makes a calm shape in which all
  ways weigh the same (`Trail.Takes.calm_fill`).
-/
namespace SlotTree

variable {K V : Type}

/-- What a node counts on a way down, by its slot and its colour. -/
abbrev Weight := Nat → Color → Nat

namespace Weight

/-- Black nodes count one. -/
def black : Weight := fun _ c => if c = .black then 1 else 0

/-- The node `x` counts nothing, as if it were missing. -/
def without (w : Weight) (x : Nat) : Weight := fun i c => if i = x then 0 else w i c

/-- The node `x` counts one more. -/
def plus (w : Weight) (x : Nat) : Weight := fun i c => if i = x then w i c + 1 else w i c

variable {w : Weight} {x i : Nat}

@[simp] theorem black_red (i : Nat) : black i .red = 0 := rfl

@[simp] theorem black_black (i : Nat) : black i .black = 1 := rfl

@[simp] theorem without_self (w : Weight) (x : Nat) (c : Color) : w.without x x c = 0 := if_pos rfl

theorem without_of_ne (h : i ≠ x) : w.without x i = w i := by
  funext c
  exact if_neg h

@[simp] theorem plus_self (w : Weight) (x : Nat) (c : Color) : w.plus x x c = w x c + 1 :=
  if_pos rfl

theorem plus_of_ne (h : i ≠ x) : w.plus x i = w i := by
  funext c
  exact if_neg h

end Weight

/-! ## Shapes -/

namespace Shape

variable {w w' : Weight} {s : Side} {c : Color} {a b sh : Shape K V} {e : K × V} {i n x : Nat}
  {l : Link}

/-- All ways down weigh `n`. -/
def Weighs (w : Weight) : Shape K V → Nat → Prop
  | nil, n => n = 0
  | node c left i _ right, n => ∃ m, n = w i c + m ∧ left.Weighs w m ∧ right.Weighs w m

/-- The root is black, unless `l` links to it. -/
def BlackBut (l : Link) (sh : Shape K V) : Prop := sh.link = l ∨ sh.color = .black

/-- No child of a red node is red, unless `l` links to it. -/
def Calm (l : Link) : Shape K V → Prop
  | nil => True
  | node c left _ _ right =>
    (c = .red → left.BlackBut l ∧ right.BlackBut l) ∧ left.Calm l ∧ right.Calm l

theorem weighs_branch : (branch s c a i e b).Weighs w n ↔
    ∃ m, n = w i c + m ∧ a.Weighs w m ∧ b.Weighs w m := by
  cases s
  · rfl
  · exact exists_congr fun m => and_congr_right fun _ => and_comm

theorem calm_branch : (branch s c a i e b).Calm l ↔
    (c = .red → a.BlackBut l ∧ b.BlackBut l) ∧ a.Calm l ∧ b.Calm l := by
  cases s
  · rfl
  · exact and_congr (imp_congr_right fun _ => and_comm) and_comm

theorem calm_black (ha : a.Calm l) (hb : b.Calm l) : (branch s .black a i e b).Calm l := by
  refine calm_branch.mpr ⟨fun hred => ?_, ha, hb⟩
  cases hred

theorem Weighs.congr (h : sh.Weighs w n) (heq : ∀ i ∈ sh.ids, w' i = w i) : sh.Weighs w' n := by
  induction sh generalizing n with
  | nil => exact h
  | node c left i e right ihl ihr =>
    obtain ⟨m, hn, hl, hr⟩ := h
    refine ⟨m, ?_, ihl hl fun j hj => heq j (by simp [hj]), ihr hr fun j hj => heq j (by simp [hj])⟩
    rw [heq i (by simp), hn]

/-- A missing node is black, so no link is no excuse. -/
theorem blackBut_none : sh.BlackBut none ↔ sh.color = .black := by
  constructor
  · rintro (hl | hc)
    · rw [link_eq_none.mp hl]
      rfl
    · exact hc
  · exact .inr

theorem BlackBut.strict (h : sh.BlackBut (some x)) (hx : x ∉ sh.ids) : sh.color = .black :=
  h.resolve_left fun hl => hx (mem_ids_of_link hl)

theorem Calm.strict (h : sh.Calm (some x)) (hx : x ∉ sh.ids) : sh.Calm none := by
  induction sh with
  | nil => trivial
  | node c left i e right ihl ihr =>
    obtain ⟨hred, hl, hr⟩ := h
    simp only [ids_node, List.mem_append, List.mem_cons, not_or] at hx
    obtain ⟨hxl, -, hxr⟩ := hx
    refine ⟨fun hc => ⟨.inr ?_, .inr ?_⟩, ihl hl hxl, ihr hr hxr⟩
    · exact (hred hc).1.strict hxl
    · exact (hred hc).2.strict hxr

/-- A shape is red-black if all ways pass the same number of black nodes and no
red node has a red child. -/
theorem balanced_iff : sh.Balanced c n ↔ c = sh.color ∧ sh.Weighs .black n ∧ sh.Calm none := by
  induction sh generalizing c n with
  | nil =>
    constructor
    · intro h
      cases h
      exact ⟨rfl, rfl, trivial⟩
    · rintro ⟨rfl, rfl, -⟩
      exact .nil
  | node d left i e right ihl ihr =>
    rw [balanced_node]
    simp only [ihl, ihr, Weighs, Calm, blackBut_none, color_node]
    constructor
    · rintro ⟨rfl, hpair, _, _, m, ⟨-, hl, hlc⟩, ⟨-, hr, hrc⟩, rfl⟩
      refine ⟨rfl, ⟨m, Nat.add_comm .., hl, hr⟩, fun hred => ?_, hlc, hrc⟩
      have hpair' := fun h => hpair ⟨hred, h⟩
      cases hcl : left.color <;> cases hcr : right.color <;> simp_all
    · rintro ⟨rfl, ⟨m, rfl, hl, hr⟩, hred, hlc, hrc⟩
      refine ⟨rfl, ?_, _, _, m, ⟨rfl, hl, hlc⟩, ⟨rfl, hr, hrc⟩, Nat.add_comm ..⟩
      rintro ⟨hd, hpair⟩
      simp [hred hd] at hpair

end Shape

/-! ## Trails -/

namespace Trail

open Shape (balanced_iff)

variable {up : Trail K V} {sh : Shape K V} {w : Weight} {c : Color} {x n m : Nat}

/-- In a shape that is calm but for the node `x`, the trail around the subtree
with that node takes a black one of the same weight. It takes the subtree itself
unless `x` is the root of it. -/
theorem takes_of_calm (hw : ∀ i, i ≠ x → w i = Weight.black i) (hx : x ∉ up.ids)
    (hroot : (up.fill sh).BlackBut (some x)) (hcalm : (up.fill sh).Calm (some x))
    (hweighs : (up.fill sh).Weighs w m) :
    ∃ n, up.Takes .black n ∧ (sh.link = some x ∨ up.Takes sh.color n) ∧ sh.Calm (some x) ∧
      sh.Weighs w n := by
  induction up generalizing sh with
  | top =>
    refine ⟨m, .top, ?_, hcalm, hweighs⟩
    rcases hroot with hl | hc
    · exact .inl hl
    · rw [show sh.color = .black from hc]
      exact .inr .top
  | under f up ih =>
    simp only [ids, List.cons_append, List.mem_cons, List.mem_append, not_or] at hx
    obtain ⟨hxf, hxo, hxu⟩ := hx
    obtain ⟨k, -, hfill, hcalm', hweighs'⟩ := ih hxu hroot hcalm hweighs
    -- The node `f` is not at fault, so what holds of its place holds of its colour.
    have hup : up.Takes f.color k := by
      rcases hfill with hl | hup
      · rw [Crumb.link_fill] at hl
        exact absurd (Option.some.inj hl).symm hxf
      · rwa [Crumb.color_fill] at hup
    obtain ⟨hred, hsh, ho⟩ := Shape.calm_branch.mp hcalm'
    obtain ⟨n, rfl, hshw, how⟩ := Shape.weighs_branch.mp hweighs'
    have hob : f.other.Balanced f.other.color n := by
      refine balanced_iff.mpr ⟨rfl, how.congr fun i hi => ?_, ho.strict hxo⟩
      exact (hw i fun he => hxo (he ▸ hi)).symm
    rw [hw f.id (Ne.symm hxf)] at hup
    cases hf : f.color with
    | red =>
      obtain ⟨hshred, hored⟩ := hred hf
      rw [hored.strict hxo] at hob
      rw [hf, Weight.black_red, Nat.zero_add] at hup
      have hunder : (under f up).Takes .black n := .red hf hob hup
      refine ⟨n, hunder, ?_, hsh, hshw⟩
      rcases hshred with hl | hc
      · exact .inl hl
      · rw [hc]
        exact .inr hunder
    | black =>
      rw [hf, Weight.black_black, Nat.add_comm] at hup
      exact ⟨n, .black hf hob hup, .inr (.black hf hob hup), hsh, hshw⟩

/-- The node above a hole adds its own weight. -/
theorem weighs_fill {f : Crumb K V} (hsh : sh.Weighs w n) (ho : f.other.Weighs .black n)
    (hw : ∀ i ∈ (under f up).ids, w i = Weight.black i) :
    (f.fill sh).Weighs w (Weight.black f.id f.color + n) := by
  refine Shape.weighs_branch.mpr ⟨n, ?_, hsh, ho.congr fun i hi => hw i (by simp [ids, hi])⟩
  rw [hw f.id (by simp [ids])]

/-- A calm shape in a hole that takes it makes a calm shape, and if all ways in
it weigh the same they do so in the whole. -/
theorem Takes.calm_fill (h : up.Takes c n) (hc : sh.color = c) (hcalm : sh.Calm none)
    (hweighs : sh.Weighs w n) (hw : ∀ i ∈ up.ids, w i = Weight.black i) :
    (up.fill sh).color = .black ∧ (up.fill sh).Calm none ∧ ∃ m, (up.fill sh).Weighs w m := by
  induction h generalizing sh with
  | top => exact ⟨hc, hcalm, _, hweighs⟩
  | @red f up n hf ho _ ih =>
    obtain ⟨hco, how, hoc⟩ := balanced_iff.mp ho
    have hfill := weighs_fill hweighs how hw
    rw [hf, Weight.black_red, Nat.zero_add] at hfill
    apply ih ((Crumb.color_fill f sh).trans hf) _ hfill
    · exact fun i hi => hw i (by simp [ids, hi])
    · exact Shape.calm_branch.mpr ⟨fun _ => ⟨.inr hc, .inr hco.symm⟩, hcalm, hoc⟩
  | @black f up c c' n hf ho _ ih =>
    obtain ⟨-, how, hoc⟩ := balanced_iff.mp ho
    have hfill := weighs_fill hweighs how hw
    rw [hf, Weight.black_black, Nat.add_comm] at hfill
    apply ih ((Crumb.color_fill f sh).trans hf) _ hfill
    · exact fun i hi => hw i (by simp [ids, hi])
    · rw [Crumb.fill, hf]
      exact Shape.calm_black hcalm hoc

end Trail

/-! ## Trees -/

namespace Tree

variable {t : Tree K V} {w : Weight} {sh : Shape K V} {p l : Link} {n x : Nat}

/-- The weight of the nodes that a way leaves behind. -/
def tally (t : Tree K V) (w : Weight) : Link → List Side → Nat
  | _, [] => 0
  | none, _ :: _ => 0
  | some i, s :: way => w i (t.colorOf (some i)) + t.tally w (t.childOf s (some i)) way

/-- The colour rules, with ways weighed by `w`. -/
structure RedBlack (t : Tree K V) (w : Weight) : Prop where
  /-- The root is black. -/
  root : t.colorOf t.root = .black
  /-- A red node has no red child. -/
  red : ∀ way s i, t.follow t.root way = some i → t.colorOf (some i) = .red →
    t.colorOf (t.childOf s (some i)) = .black
  /-- All ways down to a missing node weigh the same. -/
  level : ∃ n, ∀ way, t.follow t.root way = none → t.tally w t.root way = n

/-- The colour rules but for one node, which may be red as the root and below a
red node. -/
structure Nearly (t : Tree K V) (w : Weight) (x : Link) : Prop where
  /-- The root is black, unless it is `x`. -/
  root : t.root = x ∨ t.colorOf t.root = .black
  /-- No child of a red node is red, unless it is `x`. -/
  red : ∀ way s i, t.follow t.root way = some i → t.colorOf (some i) = .red →
    t.childOf s (some i) = x ∨ t.colorOf (t.childOf s (some i)) = .black
  /-- All ways down to a missing node weigh the same. -/
  level : ∃ n, ∀ way, t.follow t.root way = none → t.tally w t.root way = n

@[simp] theorem tally_none (t : Tree K V) (w : Weight) (way : List Side) :
    t.tally w none way = 0 := by
  cases way <;> rfl

theorem tally_black (t : Tree K V) (l : Link) (way : List Side) :
    t.tally .black l way = t.blacksOn l way := by
  induction way generalizing l with
  | nil => cases l <;> rfl
  | cons s way ih =>
    cases l with
    | none =>
      have hrest := ih none
      rw [tally_none] at hrest ⊢
      rw [blacksOn, childOf_none, ← hrest]
      rfl
    | some i => simp [tally, blacksOn, isBlack, ih, Weight.black]

theorem weighs_iff (h : t.slots.Lays p sh) :
    sh.Weighs w n ↔ ∀ way, t.follow sh.link way = none → t.tally w sh.link way = n := by
  induction sh generalizing p n with
  | nil =>
    constructor
    · rintro rfl way -
      exact tally_none t w way
    · intro h
      exact (h [] rfl).symm
  | node c left i e right ihl ihr =>
    have hl : t.childOf .left (some i) = left.link := childOf_lays h .left
    have hr : t.childOf .right (some i) = right.link := childOf_lays h .right
    have hown : t.colorOf (some i) = c := by simpa using colorOf_lays h
    simp only [Shape.Weighs, ihl h.2.1, ihr h.2.2, Shape.link_node]
    constructor
    · rintro ⟨m, rfl, hleft, hright⟩ way hend
      cases way with
      | nil => cases hend
      | cons s way =>
        rw [tally, hown]
        cases s with
        | left =>
          rw [follow, hl] at hend
          rw [hl, hleft way hend]
        | right =>
          rw [follow, hr] at hend
          rw [hr, hright way hend]
    · intro hlevel
      -- Some way ends below the left subtree, and tells how much is left for the subtrees.
      obtain ⟨way, hway⟩ := left.exists_down_nil
      have hend : t.follow left.link way = none := by
        rw [(follow_lays h.2.1 way).1, hway, Shape.link_nil]
      have hleft : ∀ way, t.follow left.link way = none → w i c + t.tally w left.link way = n := by
        intro way hend
        rw [← hl, ← hown]
        exact hlevel (.left :: way) (by rw [follow, hl, hend])
      have hright : ∀ way, t.follow right.link way = none →
          w i c + t.tally w right.link way = n := by
        intro way hend
        rw [← hr, ← hown]
        exact hlevel (.right :: way) (by rw [follow, hr, hend])
      have hn := hleft way hend
      refine ⟨t.tally w left.link way, hn.symm, fun way' hend' => ?_, fun way' hend' => ?_⟩
      · have := hleft way' hend'
        omega
      · have := hright way' hend'
        omega

theorem calm_iff (h : t.slots.Lays p sh) :
    sh.Calm l ↔ ∀ way s i, t.follow sh.link way = some i → t.colorOf (some i) = .red →
      t.childOf s (some i) = l ∨ t.colorOf (t.childOf s (some i)) = .black := by
  induction sh generalizing p with
  | nil => simp [Shape.Calm]
  | node c left i e right ihl ihr =>
    have hl : t.childOf .left (some i) = left.link := childOf_lays h .left
    have hr : t.childOf .right (some i) = right.link := childOf_lays h .right
    have hown : t.colorOf (some i) = c := by simpa using colorOf_lays h
    have hcl := colorOf_lays h.2.1
    have hcr := colorOf_lays h.2.2
    simp only [Shape.Calm, Shape.BlackBut, ihl h.2.1, ihr h.2.2, Shape.link_node]
    constructor
    · rintro ⟨hred, hleft, hright⟩ way s j hj hjred
      cases way with
      | nil =>
        obtain rfl := Option.some.inj hj
        obtain ⟨hbl, hbr⟩ := hred (hown.symm.trans hjred)
        cases s with
        | left => rwa [hl, hcl]
        | right => rwa [hr, hcr]
      | cons s' way =>
        rw [follow] at hj
        cases s' with
        | left => exact hleft way s j (hl ▸ hj) hjred
        | right => exact hright way s j (hr ▸ hj) hjred
    · intro hred
      refine ⟨fun hc => ?_, fun way s j hj => ?_, fun way s j hj => ?_⟩
      · have hbl := hred [] .left i rfl (hown.trans hc)
        have hbr := hred [] .right i rfl (hown.trans hc)
        rw [hl, hcl] at hbl
        rw [hr, hcr] at hbr
        exact ⟨hbl, hbr⟩
      · exact hred (.left :: way) s j (by rw [follow, hl, hj])
      · exact hred (.right :: way) s j (by rw [follow, hr, hj])

theorem Holds.nearly_iff (h : t.Holds sh) :
    t.Nearly w l ↔ sh.BlackBut l ∧ sh.Calm l ∧ ∃ n, sh.Weighs w n := by
  rw [calm_iff h.lays, Shape.BlackBut, ← colorOf_lays h.lays, ← h.root]
  simp only [weighs_iff h.lays, ← h.root]
  exact ⟨fun h => ⟨h.root, h.red, h.level⟩, fun ⟨hroot, hred, hlevel⟩ => ⟨hroot, hred, hlevel⟩⟩

theorem Holds.redBlack_iff (h : t.Holds sh) :
    t.RedBlack w ↔ sh.color = .black ∧ sh.Calm none ∧ ∃ n, sh.Weighs w n := by
  rw [← Shape.blackBut_none, ← h.nearly_iff]
  constructor
  · rintro ⟨hroot, hred, hlevel⟩
    exact ⟨.inr hroot, fun way s i hi hi' => .inr (hred way s i hi hi'), hlevel⟩
  · rintro ⟨hroot, hred, hlevel⟩
    have strict : ∀ l, l = none ∨ t.colorOf l = .black → t.colorOf l = .black := by
      rintro l (rfl | hl)
      · rfl
      · exact hl
    exact ⟨strict _ hroot, fun way s i hi hi' => strict _ (hred way s i hi hi'), hlevel⟩

/-- In a tree that keeps the rules but for the node `x`, the trail above `x` takes
a black subtree of the weight that this one has, and all is well below `x`. -/
theorem Holds.takes_above (h : t.Holds sh) (hx : x ∈ sh.ids)
    (hw : ∀ i, i ≠ x → w i = Weight.black i) (hn : t.Nearly w (some x)) :
    ∃ (up : Trail K V) (c : Color) (left : Shape K V) (e : K × V) (right : Shape K V) (n : Nat),
      sh = up.fill (.node c left x e right) ∧ x ∉ up.ids ∧ up.Takes .black (w x c + n) ∧
      (c = .red → left.color = .black ∧ right.color = .black) ∧
      left.Balanced left.color n ∧ right.Balanced right.color n := by
  obtain ⟨⟨i, e⟩, hm, rfl⟩ := List.mem_map.mp hx
  obtain ⟨up, c, left, right, rfl⟩ := Shape.exists_trail hm
  have hnd := Focus.nodup_branch (s := .left) (holds_fill.mp h)
  simp only [List.cons_append, List.nodup_cons, List.mem_append, not_or] at hnd
  obtain ⟨⟨⟨hl, hr⟩, hu⟩, -⟩ := hnd
  obtain ⟨hroot, hcalm, m, hweighs⟩ := h.nearly_iff.mp hn
  obtain ⟨k, hup, -, hsub, hsubw⟩ := Trail.takes_of_calm hw hu hroot hcalm hweighs
  obtain ⟨hred, hlc, hrc⟩ := hsub
  obtain ⟨n, rfl, hlw, hrw⟩ := hsubw
  -- Below `x` nothing is excused and all counts are those of black nodes.
  have below : ∀ sub : Shape K V, i ∉ sub.ids → sub.Calm (some i) → sub.Weighs w n →
      sub.Balanced sub.color n := by
    intro sub hi hcalm hweighs
    refine Shape.balanced_iff.mpr ⟨rfl, hweighs.congr fun j hj => ?_, hcalm.strict hi⟩
    apply (hw j _).symm
    rintro rfl
    exact hi hj
  refine ⟨up, c, left, e, right, n, rfl, hu, hup, fun hc => ?_, below left hl hlc hlw,
    below right hr hrc hrw⟩
  exact ⟨(hred hc).1.strict hl, (hred hc).2.strict hr⟩

theorem Holds.redBlack (h : t.Holds sh) (hb : sh.Balanced .black n) : t.RedBlack .black := by
  obtain ⟨hc, hweighs, hcalm⟩ := Shape.balanced_iff.mp hb
  exact h.redBlack_iff.mpr ⟨hc.symm, hcalm, n, hweighs⟩

end Tree

end SlotTree
