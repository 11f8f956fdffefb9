import Mathlib.Data.List.Induction
import Mathlib.Data.List.Nodup
import SlotTree.Proofs.Audit
import SlotTree.Proofs.Intact
import SlotTree.Proofs.Measures

/-
  Links — a shape read off the links of any tree whatever.

  Nothing is known of the tree but its links: children may be shared, links
  may run in a ring or name vacant slots. `Tree.Matched` says that the nodes
  on all ways from a link are in occupied slots and that every link down is
  matched by the link up. Then the way back from a node is fixed, so all ways
  to a node have one length (`Matched.length_eq`), no way comes twice to a slot
  (`Matched.length_lt`), and the links are those of a shape
  (`Matched.exists_lays`). The shape may still hold a slot twice: a node that
  is the left and the right child of its parent matches both links.

  The link check of an audit establishes this much (`checkLinks_matched`).
  What the ways say of the shape is turned back into properties of the shape:
  no slot twice (`Shape.nodup_of_down`), red-black (`balanced_of_ways`).
-/
namespace SlotTree

variable {K V : Type}

namespace Tree

variable {t : Tree K V} {l : Link} {way way' : List Side} {i : Nat} {s : Side}

/-! ## Ways -/

@[simp] theorem childOf_none (t : Tree K V) (s : Side) : t.childOf s none = none := rfl

@[simp] theorem follow_none (t : Tree K V) (way : List Side) : t.follow none way = none := by
  induction way with
  | nil => rfl
  | cons s way ih => exact ih

theorem follow_append (t : Tree K V) (l : Link) (way rest : List Side) :
    t.follow l (way ++ rest) = t.follow (t.follow l way) rest := by
  induction way generalizing l with
  | nil => rfl
  | cons s way ih => exact ih (t.childOf s l)

theorem follow_take (h : t.follow l way = some i) (k : Nat) :
    ∃ j, t.follow l (way.take k) = some j := by
  cases hj : t.follow l (way.take k) with
  | some j => exact ⟨j, rfl⟩
  | none =>
    rw [← List.take_append_drop k way, follow_append, hj, follow_none] at h
    cases h

/-! ## Matched links -/

/-- All nodes on the ways from a link are in occupied slots, and the links from
node to node go both ways. -/
structure Matched (t : Tree K V) (l : Link) : Prop where
  live : ∀ way i, t.follow l way = some i → ∃ n, t.slots.get? (some i) = some n
  back : ∀ way s i j, t.follow l way = some i → t.childOf s (some i) = some j →
    t.parentOf (some j) = some i

theorem matched_none : t.Matched none where
  live := fun way i hi => by simp at hi
  back := fun way s i j hi => by simp at hi

namespace Matched

theorem child (h : t.Matched l) (s : Side) : t.Matched (t.childOf s l) where
  live := fun way i hi => h.live (s :: way) i hi
  back := fun way s' i j hi => h.back (s :: way) s' i j hi

theorem node {n : Node K V} (hn : t.slots.get? (some i) = some n)
    (hback : ∀ s j, n.child s = some j → t.parentOf (some j) = some i)
    (hbelow : ∀ s, t.Matched (n.child s)) : t.Matched (some i) where
  live := by
    intro way j hj
    cases way with
    | nil =>
      obtain rfl := Option.some.inj hj
      exact ⟨n, hn⟩
    | cons s way =>
      rw [follow, childOf_eq hn] at hj
      exact (hbelow s).live way j hj
  back := by
    intro way s j k hj hk
    cases way with
    | nil =>
      obtain rfl := Option.some.inj hj
      rw [childOf_eq hn] at hk
      exact hback s k hk
    | cons s' way =>
      rw [follow, childOf_eq hn] at hj
      exact (hbelow s').back way s j k hj hk

theorem parentOf_last (h : t.Matched l) (hi : t.follow l (way ++ [s]) = some i) :
    ∃ p, t.follow l way = some p ∧ t.parentOf (some i) = some p := by
  rw [follow_append] at hi
  cases hp : t.follow l way with
  | none => simp [hp] at hi
  | some p =>
    rw [hp] at hi
    exact ⟨p, rfl, h.back way s p i hp hi⟩

/-- All ways from a node without a parent to another one have the same
length. -/
theorem length_eq (h : t.Matched l) (hl : t.parentOf l = none) (hi : t.follow l way = some i)
    (hi' : t.follow l way' = some i) : way.length = way'.length := by
  -- The parent of the last node fixes the last but one, so the ways agree from the end.
  have top : ∀ {way : List Side} {s : Side}, t.follow l (way ++ [s]) ≠ l := by
    intro way s heq
    cases hl' : l with
    | none =>
      rw [hl', follow_none] at hi
      cases hi
    | some r =>
      obtain ⟨p, -, hp⟩ := h.parentOf_last (heq.trans hl')
      rw [hl', hp] at hl
      cases hl
  induction way using List.reverseRecOn generalizing i way' with
  | nil =>
    rcases List.eq_nil_or_concat way' with rfl | ⟨w, s, rfl⟩
    · rfl
    · rw [List.concat_eq_append] at hi'
      exact absurd (hi'.trans hi.symm) top
  | append_singleton way s ih =>
    rcases List.eq_nil_or_concat way' with rfl | ⟨w, s', rfl⟩
    · exact absurd (hi.trans hi'.symm) top
    · rw [List.concat_eq_append] at hi' ⊢
      obtain ⟨p, hp, hip⟩ := h.parentOf_last hi
      obtain ⟨p', hp', hip'⟩ := h.parentOf_last hi'
      obtain rfl : p = p' := Option.some.inj (hip.symm.trans hip')
      simp only [List.length_append, List.length_singleton]
      rw [ih hp hp']

/-- No way comes twice to a slot, so it is shorter than there are slots. -/
theorem length_lt (h : t.Matched l) (hl : t.parentOf l = none) (hi : t.follow l way = some i) :
    way.length < t.slots.size := by
  -- The nodes passed, one for every beginning of the way.
  let passed : Nat → Nat := fun k => (t.follow l (way.take k)).getD 0
  have hpassed : ∀ k, t.follow l (way.take k) = some (passed k) := by
    intro k
    obtain ⟨j, hj⟩ := follow_take hi k
    simp [passed, hj]
  have hinj : ∀ k ∈ List.range (way.length + 1), ∀ m ∈ List.range (way.length + 1),
      passed k = passed m → k = m := by
    intro k hk m hm heq
    have hlen := h.length_eq hl (hpassed k) (heq ▸ hpassed m)
    rw [List.mem_range] at hk hm
    simp only [List.length_take] at hlen
    omega
  have hsub : (List.range (way.length + 1)).map passed ⊆ List.range t.slots.size := by
    intro j hj
    obtain ⟨k, -, rfl⟩ := List.mem_map.mp hj
    obtain ⟨n, hn⟩ := h.live _ _ (hpassed k)
    exact List.mem_range.mpr (Slots.lt_size_of_get? hn)
  have hle := ((List.Nodup.map_on hinj List.nodup_range).subperm hsub).length_le
  simp only [List.length_map, List.length_range] at hle
  omega

theorem exists_shape {depth : Nat} (h : t.Matched l)
    (hd : ∀ way i, t.follow l way = some i → way.length < depth) :
    ∃ sh : Shape K V, sh.link = l ∧ t.slots.Lays (t.parentOf l) sh ∧ sh.height ≤ depth := by
  induction depth generalizing l with
  | zero =>
    cases l with
    | none => exact ⟨.nil, rfl, trivial, Nat.le_refl 0⟩
    | some i => exact absurd (hd [] i rfl) (Nat.not_lt_zero _)
  | succ depth ih =>
    cases l with
    | none => exact ⟨.nil, rfl, trivial, Nat.zero_le _⟩
    | some i =>
      obtain ⟨n, hn⟩ := h.live [] i rfl
      -- The shape below the link on one side, which hangs below `i`.
      have below : ∀ s, ∃ sh : Shape K V, sh.link = n.child s ∧ t.slots.Lays (some i) sh ∧
          sh.height ≤ depth := by
        intro s
        have hchild := h.child s
        rw [childOf_eq hn] at hchild
        obtain ⟨sh, hlink, hlays, hheight⟩ := ih hchild (fun way j hj => by
          rw [← childOf_eq hn] at hj
          exact Nat.lt_of_succ_lt_succ (hd (s :: way) j hj))
        refine ⟨sh, hlink, ?_, hheight⟩
        cases hj : n.child s with
        | none =>
          rw [hj] at hlink
          obtain rfl := Shape.link_eq_none.mp hlink
          trivial
        | some j =>
          rw [← childOf_eq hn] at hj
          rw [← childOf_eq hn, hj, h.back [] s i j rfl hj] at hlays
          exact hlays
      obtain ⟨left, hleft, hlaysl, hheightl⟩ := below .left
      obtain ⟨right, hright, hlaysr, hheightr⟩ := below .right
      refine ⟨.node n.color left i n.entry right, rfl, ⟨?_, hlaysl, hlaysr⟩, ?_⟩
      · rw [hn, hleft, hright, parentOf, hn]
        rfl
      · simp only [Shape.height]
        omega

/-- Matched links from a root without a parent are those of a shape no higher
than there are slots. -/
theorem exists_lays (h : t.Matched t.root) (hl : t.parentOf t.root = none) :
    ∃ sh : Shape K V, t.root = sh.link ∧ t.slots.Lays none sh ∧ sh.height ≤ t.slots.size := by
  obtain ⟨sh, hlink, hlays, hheight⟩ := h.exists_shape (fun way i hi => h.length_lt hl hi)
  rw [hl] at hlays
  exact ⟨sh, hlink.symm, hlays, hheight⟩

end Matched

/-! ## What the link check establishes -/

theorem checkBack_parentOf {p j : Nat} {child : Link} (h : t.checkBack p child = .ok ())
    (hj : child = some j) : t.parentOf (some j) = some p := by
  subst hj
  simp only [checkBack] at h
  split at h
  · next hp => exact hp
  · cases h

/-- A check that passes has matched the links below every node it was to
visit. -/
theorem checkPending_matched {budget : Nat} {pending : List Nat}
    (h : t.checkPending budget pending = .ok ()) : ∀ i ∈ pending, t.Matched (some i) := by
  induction budget generalizing pending with
  | zero =>
    cases pending with
    | nil => nofun
    | cons id rest => cases h
  | succ budget ih =>
    cases pending with
    | nil => nofun
    | cons id rest =>
      cases hn : t.slots.get? (some id) with
      | none => simp [checkPending, hn] at h
      | some n =>
        simp only [checkPending, hn] at h
        obtain ⟨⟨⟩, hleft, h⟩ := bind_eq_ok.mp h
        obtain ⟨⟨⟩, hright, h⟩ := bind_eq_ok.mp h
        have hrest := ih h
        have hid : t.Matched (some id) := by
          refine .node hn (fun s j hj => ?_) (fun s => ?_)
          · cases s with
            | left => exact checkBack_parentOf hleft hj
            | right => exact checkBack_parentOf hright hj
          · cases hc : n.child s with
            | none => exact matched_none
            | some j =>
              apply hrest
              cases s <;> simp_all [Node.child]
        intro i hi
        rcases List.mem_cons.mp hi with rfl | hi
        · exact hid
        · exact hrest i (List.mem_append_right _ hi)

theorem checkLinks_matched (h : t.checkLinks = .ok ()) :
    t.parentOf t.root = none ∧ t.Matched t.root := by
  unfold checkLinks at h
  cases hr : t.root with
  | none => exact ⟨rfl, matched_none⟩
  | some r =>
    simp only [hr] at h
    split at h
    · next hp => exact ⟨hp, checkPending_matched h r (List.mem_singleton_self r)⟩
    · cases h

end Tree

/-! ## What the ways say of a shape -/

namespace Shape

theorem exists_down_nil (sh : Shape K V) : ∃ way, sh.down way = nil := by
  induction sh with
  | nil => exact ⟨[], rfl⟩
  | node c l id e r ihl ihr =>
    obtain ⟨way, hway⟩ := ihl
    exact ⟨.left :: way, hway⟩

theorem nodup_of_down {sh : Shape K V}
    (h : ∀ way way' i, (sh.down way).link = some i → (sh.down way').link = some i → way = way') :
    sh.ids.Nodup := by
  induction sh with
  | nil => exact List.nodup_nil
  | node c l id e r ihl ihr =>
    have hl : l.ids.Nodup := by
      apply ihl
      intro way way' i hi hi'
      exact (List.cons.inj (h (.left :: way) (.left :: way') i hi hi')).2
    have hr : r.ids.Nodup := by
      apply ihr
      intro way way' i hi hi'
      exact (List.cons.inj (h (.right :: way) (.right :: way') i hi hi')).2
    rw [ids_node, List.nodup_append, List.nodup_cons]
    refine ⟨hl, ⟨?_, hr⟩, ?_⟩
    · intro hm
      obtain ⟨way, hway⟩ := exists_down hm
      exact absurd (h [] (.right :: way) id rfl hway) (List.cons_ne_nil _ _).symm
    · intro i hi j hj hij
      subst hij
      obtain ⟨way, hway⟩ := exists_down hi
      rcases List.mem_cons.mp hj with rfl | hj
      · exact absurd (h (.left :: way) [] i hway rfl) (List.cons_ne_nil _ _)
      · obtain ⟨way', hway'⟩ := exists_down hj
        exact absurd (h (.left :: way) (.right :: way') i hway hway') (by simp)

end Shape

namespace Tree

variable {t : Tree K V} {sh : Shape K V} {p : Link} {n : Nat}

/-- Without a red pair, and with `n` black nodes on every way down, the shape is
red-black. -/
theorem balanced_of_ways (h : t.slots.Lays p sh)
    (hred : ∀ way s i, t.follow sh.link way = some i → t.colorOf (some i) = .red →
      t.colorOf (t.childOf s (some i)) = .black)
    (hblack : ∀ way, t.follow sh.link way = none → t.blacksOn sh.link way = n) :
    sh.Balanced sh.color n := by
  induction sh generalizing p n with
  | nil =>
    obtain rfl : 0 = n := hblack [] rfl
    exact .nil
  | node c l id e r ihl ihr =>
    have hl : t.slots.Lays (some id) l := h.2.1
    have hr : t.slots.Lays (some id) r := h.2.2
    have hleft : t.childOf .left (some id) = l.link := childOf_lays h .left
    have hright : t.childOf .right (some id) = r.link := childOf_lays h .right
    have hown : t.isBlack (some id) = (c == .black) := by simpa using isBlack_lays h
    -- What is known of the ways from the root is known of the ways on either side.
    have hblacks : ∀ s way, t.follow (t.childOf s (some id)) way = none →
        (if c == .black then 1 else 0) + t.blacksOn (t.childOf s (some id)) way = n := by
      intro s way hend
      have hway := hblack (s :: way) hend
      rwa [Shape.link_node, blacksOn, hown] at hway
    have hreds : ∀ s way s' i, t.follow (t.childOf s (some id)) way = some i →
        t.colorOf (some i) = .red → t.colorOf (t.childOf s' (some i)) = .black :=
      fun s way s' i hi => hred (s :: way) s' i hi
    have hblackl := hblacks .left
    have hblackr := hblacks .right
    have hredl := hreds .left
    have hredr := hreds .right
    rw [hleft] at hblackl hredl
    rw [hright] at hblackr hredr
    cases c with
    | red =>
      have hbl := ihl hl hredl (fun way hend => by simpa using hblackl way hend)
      have hbr := ihr hr hredr (fun way hend => by simpa using hblackr way hend)
      have hcolor : t.colorOf (some id) = .red := by simpa using colorOf_lays h
      have hcl := hred [] .left id rfl hcolor
      have hcr := hred [] .right id rfl hcolor
      rw [hleft, colorOf_lays hl] at hcl
      rw [hright, colorOf_lays hr] at hcr
      exact .red (hcl ▸ hbl) (hcr ▸ hbr)
    | black =>
      -- Some way ends below the left subtree, so `n` counts the root at least.
      obtain ⟨way, hway⟩ := l.exists_down_nil
      have hend : t.follow l.link way = none := by rw [(follow_lays hl way).1, hway]; rfl
      obtain ⟨m, rfl⟩ : ∃ m, n = m + 1 :=
        ⟨n - 1, by have := hblackl way hend; simp at this; omega⟩
      have hbl : l.Balanced l.color m := by
        apply ihl hl hredl
        intro way hend
        have := hblackl way hend
        simp at this
        omega
      have hbr : r.Balanced r.color m := by
        apply ihr hr hredr
        intro way hend
        have := hblackr way hend
        simp at this
        omega
      exact .black hbl hbr

end Tree

end SlotTree
