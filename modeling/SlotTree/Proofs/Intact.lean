import SlotTree.Proofs.Sound

/-
  Intact trees — what soundness means for the links alone.

  `Tree.Intact` is said without shapes: of the links from node to node, of the
  colours that are read along them and of the two counters. A way is a list of
  turns; every node is where one way from the root leads. Every sound tree is
  intact (`Sound.intact`).
-/
namespace SlotTree

variable {K V : Type}

namespace Tree

/-- The link that a way leads to. -/
def follow (t : Tree K V) : Link → List Side → Link
  | l, [] => l
  | l, s :: way => t.follow (t.childOf s l) way

/-- Whether a link names a black node. -/
def isBlack (t : Tree K V) (l : Link) : Bool := l.isSome && t.colorOf l == .black

/-- How many black nodes a way leaves behind. -/
def blacksOn (t : Tree K V) : Link → List Side → Nat
  | _, [] => 0
  | l, s :: way => (if t.isBlack l then 1 else 0) + t.blacksOn (t.childOf s l) way

/-- The links make a red-black tree of the occupied slots, and the counters
count them. -/
structure Intact (t : Tree K V) : Prop where
  /-- The root is black and has no parent. -/
  root : ∀ i, t.root = some i → t.parentOf (some i) = none ∧ t.colorOf (some i) = .black
  /-- A link down to a node is matched by the link up from it. -/
  back : ∀ way s i j, t.follow t.root way = some i → t.childOf s (some i) = some j →
    t.parentOf (some j) = some i
  /-- No node is reached twice. -/
  once : ∀ way way' i, t.follow t.root way = some i → t.follow t.root way' = some i → way = way'
  /-- A red node has no red child. -/
  red : ∀ way s i, t.follow t.root way = some i → t.colorOf (some i) = .red →
    t.colorOf (t.childOf s (some i)) = .black
  /-- All ways down to a missing node pass the same number of black nodes. -/
  black : ∃ n, ∀ way, t.follow t.root way = none → t.blacksOn t.root way = n
  /-- The nodes that are reached are the occupied slots, and there are as many
  as both counters say. -/
  counted : ∃ ids : List Nat, ids.Nodup ∧ (∀ i, i ∈ ids ↔ ∃ way, t.follow t.root way = some i) ∧
    (∀ i, i ∈ ids ↔ t.slots.contains (some i) = true) ∧ t.size = ids.length ∧
    t.slots.live = ids.length

end Tree

/-! ## Ways in a shape -/

namespace Shape

/-- The subtree on one side; nothing is below nothing. -/
def child : Shape K V → Side → Shape K V
  | nil, _ => nil
  | node _ l _ _ _, .left => l
  | node _ _ _ _ r, .right => r

/-- The subtree that a way leads to. -/
def down : Shape K V → List Side → Shape K V
  | sh, [] => sh
  | sh, s :: way => (sh.child s).down way

@[simp] theorem down_nil (way : List Side) : (nil : Shape K V).down way = nil := by
  induction way with
  | nil => rfl
  | cons s way ih => exact ih

theorem mem_of_down {sh : Shape K V} {way : List Side} {i : Nat}
    (h : (sh.down way).link = some i) : i ∈ sh.ids := by
  induction sh generalizing way with
  | nil => simp at h
  | node c l id e r ihl ihr =>
    cases way with
    | nil =>
      obtain rfl := Option.some.inj h
      simp
    | cons s way =>
      cases s with
      | left => simp [ihl h]
      | right => simp [ihr h]

theorem exists_down {sh : Shape K V} {i : Nat} (h : i ∈ sh.ids) :
    ∃ way, (sh.down way).link = some i := by
  induction sh with
  | nil => cases h
  | node c l id e r ihl ihr =>
    simp only [ids_node, List.mem_append, List.mem_cons] at h
    rcases h with h | rfl | h
    · obtain ⟨way, hway⟩ := ihl h
      exact ⟨.left :: way, hway⟩
    · exact ⟨[], rfl⟩
    · obtain ⟨way, hway⟩ := ihr h
      exact ⟨.right :: way, hway⟩

/-- Where no slot occurs twice, one way only leads to each. -/
theorem down_inj {sh : Shape K V} (hnd : sh.ids.Nodup) {way way' : List Side} {i : Nat}
    (h : (sh.down way).link = some i) (h' : (sh.down way').link = some i) : way = way' := by
  induction sh generalizing way way' with
  | nil => simp at h
  | node c l id e r ihl ihr =>
    simp only [ids_node, List.nodup_append, List.nodup_cons, List.mem_cons] at hnd
    obtain ⟨hl, ⟨hr, hndr⟩, hdisj⟩ := hnd
    -- The root is on neither side, and nothing is on both.
    have off : ∀ (s : Side) (way : List Side),
        ((node c l id e r).down (s :: way)).link ≠ some id := by
      intro s way hid
      cases s with
      | left => exact hdisj id (mem_of_down hid) id (.inl rfl) rfl
      | right => exact hr (mem_of_down hid)
    cases way with
    | nil =>
      obtain rfl := Option.some.inj h
      cases way' with
      | nil => rfl
      | cons s' way' => exact absurd h' (off s' way')
    | cons s way =>
      cases way' with
      | nil =>
        obtain rfl := Option.some.inj h'
        exact absurd h (off s way)
      | cons s' way' =>
        cases s <;> cases s'
        · rw [ihl hl h h']
        · exact absurd rfl (hdisj i (mem_of_down h) i (.inr (mem_of_down h')))
        · exact absurd rfl (hdisj i (mem_of_down h') i (.inr (mem_of_down h)))
        · rw [ihr hndr h h']

theorem Balanced.child {sh : Shape K V} {c : Color} {n : Nat} (h : sh.Balanced c n) (s : Side) :
    ∃ c' n', (sh.child s).Balanced c' n' := by
  cases h with
  | nil => exact ⟨_, _, .nil⟩
  | red hl hr => cases s <;> exact ⟨_, _, by assumption⟩
  | black hl hr => cases s <;> exact ⟨_, _, by assumption⟩

theorem Balanced.down {sh : Shape K V} {c : Color} {n : Nat} (h : sh.Balanced c n)
    (way : List Side) : ∃ c' n', (sh.down way).Balanced c' n' := by
  induction way generalizing sh c n with
  | nil => exact ⟨c, n, h⟩
  | cons s way ih =>
    obtain ⟨c', n', h'⟩ := h.child s
    exact ih h'

theorem Balanced.child_black {sh : Shape K V} {n : Nat} (h : sh.Balanced .red n) (s : Side) :
    (sh.child s).color = .black := by
  cases h with
  | red hl hr =>
    cases s
    · exact hl.color_eq
    · exact hr.color_eq

end Shape

namespace Tree

variable {t : Tree K V} {sh : Shape K V} {p : Link} {c : Color} {n : Nat}

/-! ## Ways along the links -/

theorem childOf_lays (h : t.slots.Lays p sh) (s : Side) :
    t.childOf s sh.link = (sh.child s).link := by
  cases sh with
  | nil => rfl
  | node c l i e r =>
    have hn := h.1
    cases s <;> simp [childOf, hn, Node.of, Node.child, Shape.child]

theorem lays_child (h : t.slots.Lays p sh) (s : Side) : t.slots.Lays sh.link (sh.child s) := by
  cases sh with
  | nil => trivial
  | node c l i e r =>
    cases s
    · exact h.2.1
    · exact h.2.2

/-- A way along the links is a way in the shape. -/
theorem follow_lays (h : t.slots.Lays p sh) (way : List Side) :
    t.follow sh.link way = (sh.down way).link ∧ ∃ q, t.slots.Lays q (sh.down way) := by
  induction way generalizing sh p with
  | nil => exact ⟨rfl, p, h⟩
  | cons s way ih =>
    rw [follow, childOf_lays h]
    exact ih (lays_child h s)

theorem mem_ids_iff (h : t.slots.Lays p sh) {i : Nat} :
    i ∈ sh.ids ↔ ∃ way, t.follow sh.link way = some i := by
  constructor
  · intro hi
    obtain ⟨way, hway⟩ := Shape.exists_down hi
    exact ⟨way, (follow_lays h way).1.trans hway⟩
  · rintro ⟨way, hway⟩
    exact Shape.mem_of_down ((follow_lays h way).1.symm.trans hway)

theorem isBlack_lays (h : t.slots.Lays p sh) :
    t.isBlack sh.link = (sh.link.isSome && sh.color == .black) := by
  rw [isBlack, colorOf_lays h]

/-- All ways down through a red-black shape pass the same number of black
nodes. -/
theorem blacksOn_lays (h : t.slots.Lays p sh) (hb : sh.Balanced c n) {way : List Side}
    (hend : sh.down way = .nil) : t.blacksOn sh.link way = n := by
  induction way generalizing sh p c n with
  | nil =>
    obtain rfl : sh = .nil := hend
    cases hb
    rfl
  | cons s way ih =>
    have hbelow := @ih (sh.child s) sh.link
    rw [blacksOn, childOf_lays h, isBlack_lays h]
    cases hb with
    | nil => simpa using hbelow (lays_child h s) .nil hend
    | red hl hr =>
      cases s with
      | left => simpa using hbelow (lays_child h .left) hl hend
      | right => simpa using hbelow (lays_child h .right) hr hend
    | black hl hr =>
      cases s with
      | left =>
        rw [hbelow (lays_child h .left) hl hend]
        simp [Nat.add_comm]
      | right =>
        rw [hbelow (lays_child h .right) hr hend]
        simp [Nat.add_comm]

theorem Sound.intact (h : t.Sound sh) : t.Intact := by
  obtain ⟨n, hb⟩ := h.balanced
  have hroot := h.holds.root
  have hfollow := follow_lays h.holds.lays
  constructor
  · intro i hi
    rw [hroot] at hi
    rw [← hi]
    exact ⟨parentOf_lays h.holds.lays (by simp [hi]),
      by rw [colorOf_lays h.holds.lays, hb.color_eq]⟩
  · intro way s i j hi hj
    obtain ⟨hlink, q, hlays⟩ := hfollow way
    rw [hroot, hlink] at hi
    rw [← hi, childOf_lays hlays] at hj
    rw [← hj, ← hi]
    exact parentOf_lays (lays_child hlays s) (by simp [hj])
  · intro way way' i hi hi'
    rw [hroot, (hfollow way).1] at hi
    rw [hroot, (hfollow way').1] at hi'
    exact Shape.down_inj h.holds.nodup hi hi'
  · intro way s i hi hred
    obtain ⟨hlink, q, hlays⟩ := hfollow way
    obtain ⟨c', n', hb'⟩ := hb.down way
    rw [hroot, hlink] at hi
    rw [← hi, colorOf_lays hlays, hb'.color_eq] at hred
    subst hred
    rw [← hi, childOf_lays hlays, colorOf_lays (lays_child hlays s)]
    exact hb'.child_black s
  · refine ⟨n, fun way hend => ?_⟩
    rw [hroot, (hfollow way).1] at hend
    rw [hroot]
    exact blacksOn_lays h.holds.lays hb (Shape.link_eq_none.mp hend)
  · refine ⟨sh.ids, h.holds.nodup, fun i => ?_, fun i => (h.occupied i).symm, h.size, h.live⟩
    rw [hroot]
    exact mem_ids_iff h.holds.lays

end Tree

end SlotTree
