import SlotTree.Proofs.Shape

/-
  Red-black shapes — the colour rules as a relation.

  `Shape.Balanced c n` says that the root has colour `c`, that no red node has
  a red child and that every way down to a missing node passes `n` black
  nodes. `Trail.Takes c n` says that a hole can be filled with any shape
  balanced for `c` and `n` to make a red-black shape with a black root
  (`Trail.Takes.fill`).
-/
namespace SlotTree

variable {K V : Type}

/-- A red-black shape with a root of colour `c` and `n` black nodes on every
way down. -/
inductive Shape.Balanced : Shape K V → Color → Nat → Prop where
  | nil : Balanced .nil .black 0
  | red {l r : Shape K V} {id : Nat} {e : K × V} {n : Nat} :
    Balanced l .black n → Balanced r .black n → Balanced (.node .red l id e r) .red n
  | black {l r : Shape K V} {id : Nat} {e : K × V} {c₁ c₂ : Color} {n : Nat} :
    Balanced l c₁ n → Balanced r c₂ n → Balanced (.node .black l id e r) .black (n + 1)

/-- A hole for a red-black subtree with a root of colour `c` and `n` black
nodes on every way down. -/
inductive Trail.Takes : Trail K V → Color → Nat → Prop where
  | top {n : Nat} : Takes .top .black n
  | red {f : Crumb K V} {up : Trail K V} {n : Nat} :
    f.color = .red → f.other.Balanced .black n → Takes up .red n → Takes (.under f up) .black n
  | black {f : Crumb K V} {up : Trail K V} {c c' : Color} {n : Nat} :
    f.color = .black → f.other.Balanced c' n → Takes up .black (n + 1) → Takes (.under f up) c n

namespace Shape

variable {s : Side} {c c₁ c₂ : Color} {a b sh : Shape K V} {id : Nat} {e : K × V} {n : Nat}

theorem Balanced.color_eq (h : sh.Balanced c n) : sh.color = c := by
  cases h <;> rfl

theorem balanced_red :
    (branch s .red a id e b).Balanced c n ↔
      c = .red ∧ a.Balanced .black n ∧ b.Balanced .black n := by
  constructor
  · intro h
    cases s <;> cases h <;> exact ⟨rfl, by assumption, by assumption⟩
  · rintro ⟨rfl, ha, hb⟩
    cases s
    · exact .red ha hb
    · exact .red hb ha

theorem balanced_black :
    (branch s .black a id e b).Balanced c n ↔
      c = .black ∧ ∃ m c₁ c₂, n = m + 1 ∧ a.Balanced c₁ m ∧ b.Balanced c₂ m := by
  constructor
  · intro h
    cases s <;> cases h <;> exact ⟨rfl, _, _, _, rfl, by assumption, by assumption⟩
  · rintro ⟨rfl, m, c₁, c₂, rfl, ha, hb⟩
    cases s
    · exact .black ha hb
    · exact .black hb ha

theorem Balanced.exists_link (h : sh.Balanced c (n + 1)) : ∃ i, sh.link = some i := by
  cases h <;> exact ⟨_, rfl⟩

theorem Balanced.paint_red (h : sh.Balanced .red n) :
    (sh.paint .black).Balanced .black (n + 1) := by
  cases h with
  | red hl hr => exact .black hl hr

/-- A black node with black children may turn red, which takes one black node
off every way down. -/
theorem Balanced.redden (ha : a.Balanced .black n) (hb : b.Balanced .black n) :
    (branch s .red a id e b).Balanced .red n := balanced_red.mpr ⟨rfl, ha, hb⟩

/-- A node with one child is black, and its child is red. -/
theorem Balanced.only_child (h : (branch s c a id e .nil).Balanced c₁ n) {i : Nat}
    (hi : a.link = some i) : c = .black ∧ c₁ = .black ∧ n = 1 ∧ a.Balanced .red 0 := by
  cases c with
  | red =>
    obtain ⟨-, ha, hnil⟩ := balanced_red.mp h
    cases hnil
    cases ha
    cases hi
  | black =>
    obtain ⟨hc, m, _, _, rfl, ha, hnil⟩ := balanced_black.mp h
    cases hnil
    cases ha with
    | nil => cases hi
    | red hl hr => exact ⟨rfl, hc, rfl, .red hl hr⟩

end Shape

namespace Trail

theorem Takes.fill {up : Trail K V} {c : Color} {n : Nat} (h : up.Takes c n) {sh : Shape K V}
    (hs : sh.Balanced c n) : ∃ m, (up.fill sh).Balanced .black m := by
  induction h generalizing sh with
  | top => exact ⟨_, hs⟩
  | red hf ho _ ih => exact ih (by rw [Crumb.fill, hf]; exact .redden hs ho)
  | black hf ho _ ih =>
    exact ih (by rw [Crumb.fill, hf]; exact Shape.balanced_black.mpr ⟨rfl, _, _, _, rfl, hs, ho⟩)

theorem Takes.exists_under {up : Trail K V} {n : Nat} (h : up.Takes .red n) :
    ∃ (f : Crumb K V) (up' : Trail K V) (c' : Color), up = .under f up' ∧ f.color = .black ∧
      f.other.Balanced c' n ∧ up'.Takes .black (n + 1) := by
  cases h with
  | black hf ho hu => exact ⟨_, _, _, rfl, hf, ho, hu⟩

/-- A red-black shape filled into a hole leaves a hole that takes it. -/
theorem takes_of_fill {up : Trail K V} {sh : Shape K V} {m : Nat}
    (h : (up.fill sh).Balanced .black m) :
    ∃ c n, up.Takes c n ∧ sh.Balanced c n := by
  induction up generalizing sh with
  | top => exact ⟨_, _, .top, h⟩
  | under f up ih =>
    obtain ⟨c, n, hu, hs⟩ := ih h
    cases hf : f.color with
    | red =>
      rw [Crumb.fill, hf] at hs
      obtain ⟨rfl, ha, hb⟩ := Shape.balanced_red.mp hs
      exact ⟨_, _, .red hf hb hu, ha⟩
    | black =>
      rw [Crumb.fill, hf] at hs
      obtain ⟨rfl, k, c₁, c₂, rfl, ha, hb⟩ := Shape.balanced_black.mp hs
      exact ⟨_, _, .black hf hb hu, ha⟩

/-- The shape around a hole has a black root, unless the hole is the whole. -/
theorem Takes.color_fill {f : Crumb K V} {up : Trail K V} {c : Color} {n : Nat}
    (h : (under f up).Takes c n) (sh : Shape K V) : ((under f up).fill sh).color = .black := by
  induction up generalizing f c n sh with
  | top =>
    cases h with
    | red _ _ hu => cases hu
    | black hf _ _ => simpa using hf
  | under g up ih =>
    cases h with
    | red _ _ hu => exact ih hu (f.fill sh)
    | black _ _ hu => exact ih hu (f.fill sh)

end Trail

end SlotTree
