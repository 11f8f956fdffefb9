import Mathlib.Algebra.Group.Nat.Defs
import SlotTree.Proofs.Intact
import SlotTree.Proofs.Measures
import SlotTree.Proofs.Roaming

/-
  Heights — how high a tree can be for the number of its entries.

  In a red-black shape with `n` black nodes on every way down, at most every
  other node of a way is red, so the shape is at most `2 * n` high below a
  black root (`Shape.Balanced.height_le`); and the black nodes alone make a
  full tree of height `n`, so there are at least `2 ^ n - 1` nodes
  (`Shape.Balanced.two_pow_le`). Together they bound the height of every tree
  by the number of its entries (`roamed_tree_proportioned`), whatever the
  comparisons were. The height is that of the longest way
  (`Shape.exists_down_iff`). The black height is measured on the leftmost way
  only; it is that of all ways.
-/
namespace SlotTree

variable {K V : Type}

namespace Shape

variable {sh : Shape K V} {c : Color} {n : Nat}

theorem Balanced.leftBlacks (h : sh.Balanced c n) : sh.leftBlacks = n := by
  induction h with
  | nil => rfl
  | red _ _ ihl _ => simpa [Shape.leftBlacks] using ihl
  | black _ _ ihl _ =>
    simp only [Shape.leftBlacks, if_true, ihl]
    omega

theorem Balanced.height_le (h : sh.Balanced c n) :
    sh.height ≤ 2 * n + if c = .red then 1 else 0 := by
  induction h with
  | nil => exact Nat.le_refl 0
  | red _ _ ihl ihr =>
    -- Below a red root both subtrees have black roots.
    simp only [Shape.height, reduceCtorEq, if_false, if_true] at ihl ihr ⊢
    omega
  | @black l r _ _ c₁ c₂ n _ _ ihl ihr =>
    have hl : l.height ≤ 2 * n + 1 := by
      apply Nat.le_trans ihl
      split <;> omega
    have hr : r.height ≤ 2 * n + 1 := by
      apply Nat.le_trans ihr
      split <;> omega
    simp only [Shape.height]
    omega

/-- The shape has a node `n` turns below its root just if it is higher than `n`. -/
theorem exists_down_iff (sh : Shape K V) (n : Nat) :
    (∃ way : List Side, way.length = n ∧ sh.down way ≠ .nil) ↔ n < sh.height := by
  induction sh generalizing n with
  | nil => simp [Shape.height]
  | node c l i e r ihl ihr =>
    cases n with
    | zero =>
      have hroot : (node c l i e r).down [] ≠ .nil := by simp [down]
      simp only [Shape.height]
      exact ⟨fun _ => by omega, fun _ => ⟨[], rfl, hroot⟩⟩
    | succ n =>
      have hheight : n + 1 < (node c l i e r).height ↔ n < l.height ∨ n < r.height := by
        simp only [Shape.height]
        omega
      rw [hheight, ← ihl, ← ihr]
      constructor
      · rintro ⟨way, hlen, hway⟩
        obtain ⟨s, way, rfl⟩ := List.exists_cons_of_length_eq_add_one hlen
        have hlen' : way.length = n := Nat.succ.inj hlen
        cases s with
        | left => exact .inl ⟨way, hlen', hway⟩
        | right => exact .inr ⟨way, hlen', hway⟩
      · rintro (⟨way, rfl, hway⟩ | ⟨way, rfl, hway⟩)
        · exact ⟨.left :: way, rfl, hway⟩
        · exact ⟨.right :: way, rfl, hway⟩

/-- The black nodes alone fill a tree of the black height. -/
theorem Balanced.two_pow_le (h : sh.Balanced c n) : 2 ^ n ≤ sh.ids.length + 1 := by
  induction h with
  | nil => exact Nat.le_refl 1
  | red _ _ ihl _ =>
    simp only [ids_node, List.length_append, List.length_cons]
    omega
  | @black l r _ _ _ _ n _ _ ihl ihr =>
    simp only [ids_node, List.length_append, List.length_cons]
    calc 2 ^ (n + 1) = 2 ^ n + 2 ^ n := by rw [Nat.pow_succ, Nat.mul_two]
      _ ≤ (l.ids.length + 1) + (r.ids.length + 1) := Nat.add_le_add ihl ihr
      _ = l.ids.length + (r.ids.length + 1) + 1 := by omega

end Shape

/-- A tree with these heights, neither of which is out of proportion to the
other or to the number of entries. -/
structure Tree.Proportioned (t : Tree K V) (height blacks : Nat) : Prop where
  measured : t.height = .ok height
  /-- The height is the number of nodes on the longest way down: a way of `n` turns
  leads to a node just if `n` is less. -/
  longest : ∀ n, (∃ way : List Side, way.length = n ∧ t.follow t.root way ≠ none) ↔ n < height
  measuredBlack : t.blackHeight = .ok blacks
  height_le : height ≤ 2 * blacks
  two_pow_blacks_le : 2 ^ blacks ≤ t.size + 1
  two_pow_height_le : 2 ^ height ≤ (t.size + 1) ^ 2
  /-- The black height is measured on one way down and is that of all. -/
  everyWay : ∀ way, t.follow t.root way = none → t.blacksOn t.root way = blacks

theorem Tree.Sound.proportioned {t : Tree K V} {sh : Shape K V} (h : t.Sound sh) :
    t.Proportioned sh.height sh.leftBlacks := by
  obtain ⟨n, hn⟩ := h.balanced
  have hheight : sh.height ≤ 2 * n := by simpa using hn.height_le
  have hsize : 2 ^ n ≤ t.size + 1 := by
    rw [h.size]
    exact hn.two_pow_le
  have hfollow := fun way => (follow_lays h.holds.lays way).1
  rw [hn.leftBlacks]
  refine ⟨height_ok h, fun depth => ?_, ?_, hheight, hsize, ?_, ?_⟩
  · rw [← Shape.exists_down_iff, h.holds.root]
    simp only [hfollow, ne_eq, Shape.link_eq_none]
  · rw [blackHeight_ok h, hn.leftBlacks]
  · calc 2 ^ sh.height ≤ 2 ^ (2 * n) := Nat.pow_le_pow_right (by decide) hheight
      _ = (2 ^ n) ^ 2 := by rw [Nat.mul_comm, Nat.pow_mul]
      _ ≤ (t.size + 1) ^ 2 := Nat.pow_le_pow_left hsize 2
  · intro way hend
    rw [h.holds.root] at hend ⊢
    rw [hfollow] at hend
    exact blacksOn_lays h.holds.lays hn (Shape.link_eq_none.mp hend)

variable [Written K] [Written V] [DecidableEq K] [DecidableEq V]

/-- After any run, under any comparisons and with cursors given to any tree,
every tree is at most twice as high as it is black-high, and has as many
entries as these heights need. -/
theorem roamed_tree_proportioned {C : (K → K → Ordering) → Prop} {s : Session K V}
    (h : Roams C s) (number : Nat) {t : Tree K V} (ht : s.tree number = .ok t) :
    ∃ height blacks, t.Proportioned height blacks := by
  obtain ⟨items, ⟨-, sh, hsound, -⟩, -⟩ := h.keeps number t ht
  exact ⟨sh.height, sh.leftBlacks, hsound.proportioned⟩

/-- Two trees that went through six modifications each, under a comparison that
calls every key greater, and a cursor of the first one that has an entry in
hand. -/
def strayCursor : List ((Int → Int → Ordering) × Nat × Command Int Int) :=
  [(fun _ _ => .gt, 0, .openTree),
    (fun _ _ => .gt, 0, .edit (.insertAll [(1, 10), (2, 20), (3, 30), (4, 40), (5, 50), (6, 60)])),
    (fun _ _ => .gt, 1, .edit (.insertAll [(6, 60), (5, 50), (4, 40), (3, 30), (2, 20), (1, 10)])),
    (fun _ _ => .gt, 0, .place 0 .front), (fun _ _ => .gt, 0, .cursor 0 (.step .right))]

/-- The cursor of the first tree removes an entry of the second one, which stays
in proportion. -/
theorem strayCursor_proportioned :
    ∃ (s : Session Int Int) (t : Tree Int Int), Roams (fun _ => True) s ∧ s.tree 1 = .ok t ∧
      t.size = 5 ∧ ∃ height blacks, t.Proportioned height blacks := by
  have hrun : Session.blank.follow .blank strayCursor = some _ := rfl
  have hreach := Reaches.follow (C := fun _ => True) .blank (fun _ _ => trivial) hrun
  have hroams := @Roams.command Int Int _ _ _ _ (fun _ => True) _ (fun _ _ => .gt) 1
    (.cursor 0 .remove) _ hreach.roams trivial trivial rfl
  exact ⟨_, _, hroams, rfl, rfl, roamed_tree_proportioned hroams 1 rfl⟩

end SlotTree
