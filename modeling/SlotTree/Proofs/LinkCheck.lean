import SlotTree.Proofs.Verdict

/-
  Link checks — what a check of the links that passes has found.

  The check counts the nodes that it visits and remembers none of them. Here it
  is a loop that does (`Tree.tourLinks`); the loop comes to the verdict of the
  check, within one turn more than there are occupied slots (`tourFrom_ends`).
  If the verdict is that the links are in order, the nodes visited are those of
  a shape (`tourFrom_lays`).

  Matched links fix the way back from a node, so there is one way only to visit a
  node twice: as both children of its parent (`Matched.way_unique`). The check
  does not look for such a node, nor for an occupied slot that no link leads to,
  and its count sees neither if there are as many of these as visits too many.
  `Tree.Checked` says what a passing check has found, and how far that falls
  short of one visit to every occupied slot.
-/
namespace SlotTree

variable {K V : Type}

namespace Tree

variable {t : Tree K V} {sh : Shape K V} {l : Link} {way way' : List Side} {i : Nat}

/-! ## The check as a loop -/

/-- The loop of the link check, with the nodes visited so far in the place of
their number. The bound on the turns is there for the recursion. -/
def tourFrom (t : Tree K V) :
    Nat → List Nat → List Nat → Except Fault (List Nat × Except Corruption Unit)
  | _, seen, [] => .ok (seen, .ok ())
  | 0, _, _ :: _ => .error .endless
  | turns + 1, seen, id :: rest =>
    let seen := seen ++ [id]
    if t.slots.live < seen.length then .ok (seen, .error .linkCycle)
    else
      match t.slots.get? (some id) with
      | none => .ok (seen, .error (.danglingLink id))
      | some n =>
        match t.checkBack id n.left, t.checkBack id n.right with
        | .error finding, _ => .ok (seen, .error finding)
        | .ok (), .error finding => .ok (seen, .error finding)
        | .ok (), .ok () => t.tourFrom turns seen (n.right.toList ++ n.left.toList ++ rest)

/-- The nodes that the link check visits, in turn, and its verdict. -/
def tourLinks (t : Tree K V) : Except Fault (List Nat × Except Corruption Unit) :=
  match t.root with
  | none => .ok ([], .ok ())
  | some root =>
    if t.parentOf t.root = none then t.tourFrom (t.slots.live + 1) [] [root]
    else .ok ([], .error .rootHasParent)

/-- The loop comes to the verdict of the check before its turns run out. -/
theorem tourFrom_ends {turns : Nat} {seen pending : List Nat} (hseen : seen.length ≤ t.slots.live)
    (hturns : t.slots.live < turns + seen.length) :
    ∃ seen', t.tourFrom turns seen pending =
        .ok (seen', t.checkPending (t.slots.live - seen.length) pending) ∧
      seen'.length ≤ t.slots.live + 1 ∧
      (t.checkPending (t.slots.live - seen.length) pending = .ok () →
        seen'.length ≤ t.slots.live) := by
  induction turns generalizing seen pending with
  | zero => omega
  | succ turns ih =>
    cases pending with
    | nil => exact ⟨seen, by simp [tourFrom, checkPending], by omega, fun _ => hseen⟩
    | cons id rest =>
      have hlength : (seen ++ [id]).length = seen.length + 1 := by simp
      by_cases hfull : t.slots.live < (seen ++ [id]).length
      · -- As many nodes as there are occupied slots have been visited: none is left.
        have hnone : t.slots.live - seen.length = 0 := by omega
        refine ⟨seen ++ [id], ?_, by omega, ?_⟩
        · simp only [tourFrom, hfull, if_true, hnone, checkPending]
        · rw [hnone]
          intro h
          cases h
      · -- The visit takes one from what is left of the check's budget.
        obtain ⟨left, hleft⟩ : ∃ left, t.slots.live - seen.length = left + 1 :=
          ⟨t.slots.live - seen.length - 1, by omega⟩
        have hnext : t.slots.live - (seen ++ [id]).length = left := by omega
        rw [hleft]
        simp only [tourFrom, hfull, if_false, checkPending]
        cases hn : t.slots.get? (some id) with
        | none => exact ⟨_, rfl, by omega, fun h => by cases h⟩
        | some n =>
          dsimp only
          cases hl : t.checkBack id n.left with
          | error finding => exact ⟨_, rfl, by omega, fun h => by cases h⟩
          | ok u =>
            cases hr : t.checkBack id n.right with
            | error finding => exact ⟨_, rfl, by omega, fun h => by cases h⟩
            | ok u => exact hnext ▸ ih (by omega) (by omega)

theorem tourLinks_ends (t : Tree K V) :
    ∃ seen, t.tourLinks = .ok (seen, t.checkLinks) ∧ seen.length ≤ t.slots.live + 1 ∧
      (t.checkLinks = .ok () → seen.length ≤ t.slots.live) := by
  unfold tourLinks checkLinks
  cases hr : t.root with
  | none => exact ⟨[], rfl, Nat.zero_le _, fun _ => Nat.zero_le _⟩
  | some root =>
    dsimp only
    split
    · exact tourFrom_ends (Nat.zero_le _) (by simp)
    · exact ⟨[], rfl, Nat.zero_le _, fun h => by cases h⟩

/-- A loop that passes visits the nodes of the shapes that are pending. -/
theorem tourFrom_lays {turns : Nat} {seen seen' : List Nat} (shs : List (Shape K V))
    (h : ∀ sh ∈ shs, sh ≠ .nil ∧ ∃ p, t.slots.Lays p sh)
    (hrun : t.tourFrom turns seen (shs.filterMap Shape.link) = .ok (seen', .ok ())) :
    seen'.Perm (seen ++ shs.flatMap Shape.ids) := by
  induction turns generalizing seen shs with
  | zero =>
    cases shs with
    | nil =>
      cases hrun
      simp
    | cons sh shs =>
      obtain ⟨hne, -⟩ := h sh (by simp)
      cases sh with
      | nil => exact absurd rfl hne
      | node c l i e r => cases hrun
  | succ turns ih =>
    cases shs with
    | nil =>
      cases hrun
      simp
    | cons sh shs =>
      obtain ⟨hne, p, hlays⟩ := h sh (by simp)
      cases sh with
      | nil => exact absurd rfl hne
      | node c l i e r =>
        obtain ⟨hn, hl, hr⟩ := hlays
        have hbelow := pending_below hl hr (fun sh' hm => h sh' (List.mem_cons_of_mem _ hm))
        have hids : (Shape.node c l i e r).ids.Perm (i :: (r.ids ++ l.ids)) :=
          Shape.ids_branch_perm .right c r i e l
        simp only [List.filterMap_cons, Shape.link_node, tourFrom, hn, Node.of, checkBack_ok hl,
          checkBack_ok hr] at hrun
        split at hrun
        · cases hrun
        · have hperm := ih (r.toList ++ l.toList ++ shs) hbelow
            (by simpa only [List.filterMap_append, Shape.filterMap_link_toList] using hrun)
          simp only [List.flatMap_append, Shape.flatMap_ids_toList] at hperm
          rw [List.flatMap_cons]
          -- The node is visited before both subtrees and lies between them in the shape.
          have hmoved : seen ++ [i] ++ (r.ids ++ l.ids ++ shs.flatMap Shape.ids) =
              seen ++ (i :: (r.ids ++ l.ids) ++ shs.flatMap Shape.ids) := by simp
          rw [hmoved] at hperm
          exact hperm.trans ((hids.symm.append_right _).append_left _)

theorem tourLinks_lays {seen : List Nat} (hroot : t.root = sh.link) (h : t.slots.Lays none sh)
    (hrun : t.tourLinks = .ok (seen, .ok ())) : seen.Perm sh.ids := by
  cases sh with
  | nil =>
    simp only [tourLinks, hroot, Shape.link_nil] at hrun
    cases hrun
    exact .refl _
  | node c l i e r =>
    simp only [tourLinks, hroot, Shape.link_node] at hrun
    split at hrun
    · have hperm := tourFrom_lays [.node c l i e r]
        (List.forall_mem_singleton.mpr ⟨by simp, none, h⟩) hrun
      simpa using hperm
    · cases hrun

/-! ## Nodes visited twice -/

/-- The node has one and the same child on both sides. -/
def Doubles (t : Tree K V) (i : Nat) : Prop := ∃ j, ∀ s, t.childOf s (some i) = some j

theorem Matched.way_unique (h : t.Matched l) (hl : t.parentOf l = none)
    (hd : ∀ way i, t.follow l way = some i → ¬ t.Doubles i) (hi : t.follow l way = some i)
    (hi' : t.follow l way' = some i) : way = way' := by
  induction way using List.reverseRecOn generalizing i way' with
  | nil => exact (List.eq_nil_of_length_eq_zero (h.length_eq hl hi hi').symm).symm
  | append_singleton way s ih =>
    have hlength := h.length_eq hl hi hi'
    rcases List.eq_nil_or_concat way' with rfl | ⟨w, s', rfl⟩
    · simp at hlength
    · rw [List.concat_eq_append] at hi' ⊢
      obtain ⟨p, hp, hip⟩ := h.parentOf_last hi
      obtain ⟨p', hp', hip'⟩ := h.parentOf_last hi'
      obtain rfl : p = p' := Option.some.inj (hip.symm.trans hip')
      obtain rfl := ih hp hp'
      rw [follow_append, hp] at hi hi'
      -- Two ways from the parent to the node would be its two sides.
      by_cases hs : s' = s
      · rw [hs]
      · refine absurd ⟨i, fun side => ?_⟩ (hd way p hp)
        by_cases hside : side = s
        · exact hside ▸ hi
        · rw [Side.eq_other_of_ne hside, ← Side.eq_other_of_ne hs]
          exact hi'

/-- The shape that matched links make has no slot twice exactly if no node has one
child on both sides. -/
theorem Matched.nodup_iff (h : t.Matched sh.link) (hl : t.parentOf sh.link = none) {p : Link}
    (hlays : t.slots.Lays p sh) : sh.ids.Nodup ↔ ∀ i ∈ sh.ids, ¬ t.Doubles i := by
  have hfollow : ∀ way, t.follow sh.link way = (sh.down way).link := fun way =>
    (follow_lays hlays way).1
  constructor
  · rintro hnd i hi ⟨j, hj⟩
    obtain ⟨way, hway⟩ := (mem_ids_iff hlays).mp hi
    have hchild : ∀ s, (sh.down (way ++ [s])).link = some j := by
      intro s
      rw [← hfollow, follow_append, hway]
      exact hj s
    have heq := Shape.down_inj hnd (hchild .left) (hchild .right)
    simp at heq
  · intro hd
    apply Shape.nodup_of_down
    intro way way' i hi hi'
    rw [← hfollow] at hi hi'
    exact h.way_unique hl (fun way i hi => hd i ((mem_ids_iff hlays).mpr ⟨way, hi⟩)) hi hi'

/-! ## What a passing check has found -/

/-- What holds of a tree and of the nodes that were visited in turn by a check that
has passed. -/
structure Checked (t : Tree K V) (seen : List Nat) : Prop where
  /-- The root has no parent. -/
  root : t.parentOf t.root = none
  /-- The nodes visited are those that a way from the root leads to. -/
  reached : ∀ i, i ∈ seen ↔ ∃ way, t.follow t.root way = some i
  /-- They are in occupied slots. -/
  live : ∀ i ∈ seen, t.slots.contains (some i) = true
  /-- So are their children, and a link down is matched by the link up. -/
  back : ∀ i ∈ seen, ∀ s j, t.childOf s (some i) = some j →
    t.slots.contains (some j) = true ∧ t.parentOf (some j) = some i
  /-- There were no more visits than there are occupied slots. -/
  bounded : seen.length ≤ t.slots.live
  /-- No node was visited twice, exactly if none has one child on both sides. -/
  once : seen.Nodup ↔ ∀ i ∈ seen, ¬ t.Doubles i
  /-- Every occupied slot was visited once, exactly if besides there were as many
  visits as there are occupied slots. -/
  whole : (∀ i, t.slots.contains (some i) = true → seen.count i = 1) ↔
    seen.length = t.slots.live ∧ ∀ i ∈ seen, ¬ t.Doubles i

theorem Checked.of_tour (ht : t.slots.Tidy) {seen : List Nat}
    (hrun : t.tourLinks = .ok (seen, t.checkLinks)) (hpass : t.checkLinks = .ok ())
    (hbounded : seen.length ≤ t.slots.live) : t.Checked seen := by
  obtain ⟨hroot, hmatched⟩ := checkLinks_matched hpass
  obtain ⟨sh, hlink, hlays, -⟩ := hmatched.exists_lays hroot
  have hperm : seen.Perm sh.ids := tourLinks_lays hlink hlays (hpass ▸ hrun)
  have hreached : ∀ i, i ∈ seen ↔ ∃ way, t.follow t.root way = some i := by
    intro i
    rw [hperm.mem_iff, hlink]
    exact mem_ids_iff hlays
  have hlive : ∀ i ∈ seen, t.slots.contains (some i) = true := by
    intro i hi
    obtain ⟨way, hway⟩ := (hreached i).mp hi
    exact Slots.contains_iff.mpr (hmatched.live way i hway)
  have honce : seen.Nodup ↔ ∀ i ∈ seen, ¬ t.Doubles i := by
    rw [hlink] at hroot hmatched
    simp only [hperm.nodup_iff, hperm.mem_iff]
    exact hmatched.nodup_iff hroot hlays
  refine ⟨hroot, hreached, hlive, ?_, hbounded, honce, ?_⟩
  · intro i hi s j hj
    obtain ⟨way, hway⟩ := (hreached i).mp hi
    have hchild : t.follow t.root (way ++ [s]) = some j := by
      rw [follow_append, hway]
      exact hj
    exact ⟨hlive j ((hreached j).mpr ⟨_, hchild⟩), hmatched.back way s i j hway hj⟩
  · rw [ht.count_one_iff hlive, honce]

theorem Matched.checkLinks_ok (h : t.Matched t.root) (hl : t.parentOf t.root = none)
    (ht : t.slots.Tidy) (hd : ∀ way i, t.follow t.root way = some i → ¬ t.Doubles i) :
    t.checkLinks = .ok () := by
  obtain ⟨sh, hlink, hlays, -⟩ := h.exists_lays hl
  rw [hlink] at h hl hd
  have hnodup : sh.ids.Nodup := (h.nodup_iff hl hlays).mpr fun i hi => by
    obtain ⟨way, hway⟩ := (mem_ids_iff hlays).mp hi
    exact hd way i hway
  have hocc : ∀ i ∈ sh.ids, t.slots.contains (some i) = true := fun i hi =>
    Slots.contains_iff.mpr (get?_of_mem hlays hi)
  exact checkLinks_of_lays hlink hlays (ht.length_le hnodup hocc)

end Tree

/-- Whatever the links of a tree are, its link check comes to a verdict, after one
visit more than there are occupied slots at the latest. If it passes, the nodes
visited are matched, and each occupied slot was visited once exactly if no node has
one child on both sides and there were as many visits as there are occupied slots.
It does pass where links are matched from a root without a parent and no node has
one child on both sides. -/
theorem tidy_links_checked {t : Tree K V} (ht : t.slots.Tidy) :
    ∃ seen, t.tourLinks = .ok (seen, t.checkLinks) ∧ seen.length ≤ t.slots.live + 1 ∧
      (t.checkLinks = .ok () → t.Checked seen) ∧
      (t.parentOf t.root = none → t.Matched t.root →
        (∀ way i, t.follow t.root way = some i → ¬ t.Doubles i) → t.checkLinks = .ok ()) := by
  obtain ⟨seen, hrun, hlength, hbounded⟩ := t.tourLinks_ends
  exact ⟨seen, hrun, hlength, fun hpass => .of_tour ht hrun hpass (hbounded hpass),
    fun hl hmatched hd => hmatched.checkLinks_ok hl ht hd⟩

/-- Three nodes, beside a slot that was given back. -/
def vacatedSlot : Tree Int Int where
  slots := ((((Slots.empty.occupy ⟨2, 20, some 2, some 3, none, .black⟩).2.occupy
    ⟨0, 0, none, none, none, .red⟩).2.occupy ⟨1, 10, none, none, some 0, .red⟩).2.occupy
      ⟨3, 30, none, none, some 0, .red⟩).2.released 1
  root := some 0
  size := 3
  revision := 0

/-- The check visits the right child before the left one, and each occupied slot
once. -/
theorem vacatedSlot_links_checked :
    vacatedSlot.slots.Tidy ∧ vacatedSlot.tourLinks = .ok ([0, 3, 2], .ok ()) ∧
      vacatedSlot.checkLinks = .ok () ∧ vacatedSlot.Checked [0, 3, 2] ∧
      ∀ i, vacatedSlot.slots.contains (some i) = true → [0, 3, 2].count i = 1 := by
  have htidy : vacatedSlot.slots.Tidy :=
    Slots.tidy_released (Slots.tidy_occupy (Slots.tidy_occupy (Slots.tidy_occupy
      (Slots.tidy_occupy Slots.tidy_empty _) _) _) _) rfl
  obtain ⟨seen, hrun, -, hpass, -⟩ := tidy_links_checked htidy
  obtain rfl : [0, 3, 2] = seen := by cases hrun; rfl
  have hchecked : vacatedSlot.Checked [0, 3, 2] := hpass rfl
  have hundoubled := hchecked.once.mp (by decide)
  exact ⟨htidy, hrun, rfl, hchecked, hchecked.whole.mpr ⟨rfl, hundoubled⟩⟩

/-- A check that passes, though it comes twice to the slot that is both children of
the root and never to the slot that nothing links to: there are as many visits as
occupied slots. -/
theorem sharedChild_visited_twice :
    sharedChild.slots.Tidy ∧ sharedChild.checkLinks = .ok () ∧
      sharedChild.tourLinks = .ok ([0, 1, 1], .ok ()) ∧ sharedChild.Doubles 0 ∧
      sharedChild.slots.contains (some 1) = true ∧ [0, 1, 1].count 1 = 2 ∧
      sharedChild.slots.contains (some 2) = true ∧ 2 ∉ [0, 1, 1] := by
  have htidy : sharedChild.slots.Tidy :=
    Slots.tidy_occupy (Slots.tidy_occupy (Slots.tidy_occupy Slots.tidy_empty _) _) _
  have hdoubles : sharedChild.Doubles 0 := ⟨1, fun s => by cases s <;> rfl⟩
  exact ⟨htidy, rfl, rfl, hdoubles, rfl, rfl, rfl, by decide⟩

end SlotTree
