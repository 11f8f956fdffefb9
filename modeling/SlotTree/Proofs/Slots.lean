import SlotTree.Slots
import Mathlib.Data.List.Nodup
import Mathlib.Data.List.Perm.Subperm

/-
  Tidy slots — the free stack holds every vacant number once.

  `Slots.Tidy` relates the three parts of a store: the free numbers are the
  vacant ones, each is there once, and the occupied and the free numbers
  together are all there are. So a list of occupied slots can be held against
  their count (`Tidy.count_one_iff`). Occupying, releasing and changing a slot
  keep a store tidy (`tidy_occupy`, `tidy_released`, `tidy_update`), an
  allocation hands out a vacant number, as long as there is one that fits in a
  link (`get?_occupy`, `allocate_eq`), and a release of an occupied slot always
  succeeds (`release_ok`). Two slots are changed at once as they are one after
  the other (`updatePair_eq`).
-/
namespace SlotTree

/-! ## Runs that end with an answer -/

@[simp] theorem ok_bind {ε α β : Type} (a : α) (f : α → Except ε β) :
    (Except.ok a >>= f) = f a := rfl

@[simp] theorem error_bind {ε α β : Type} (e : ε) (f : α → Except ε β) :
    (Except.error e >>= f) = .error e := rfl

theorem bind_eq_ok {ε α β : Type} {x : Except ε α} {f : α → Except ε β} {b : β} :
    (x >>= f) = .ok b ↔ ∃ a, x = .ok a ∧ f a = .ok b := by
  cases x with
  | error e => simp
  | ok a => simp

@[simp] theorem pure_ok {ε α : Type} (a : α) : (pure a : Except ε α) = .ok a := rfl

@[simp] theorem map_ok {ε α β : Type} (f : α → β) (a : α) :
    (f <$> (Except.ok a : Except ε α)) = .ok (f a) := rfl

namespace Slots

variable {α : Type}

/-- The free stack holds each vacant number once, and the count of occupied
slots makes up for the rest. -/
structure Tidy (s : Slots α) : Prop where
  vacant : ∀ i, i ∈ s.free ↔ i < s.size ∧ s.get? (some i) = none
  nodup : s.free.Nodup
  count : s.live + s.free.length = s.size

theorem tidy_empty : (empty : Slots α).Tidy :=
  ⟨by simp [empty, size], List.nodup_nil, rfl⟩

/-! ## Numbers in use -/

theorem lt_size_of_get? {s : Slots α} {i : Nat} {a : α} (h : s.get? (some i) = some a) :
    i < s.size := by
  by_cases hi : i < s.size
  · exact hi
  · have hnone : s.cells[i]? = none := Array.getElem?_eq_none (by simpa [size] using hi)
    simp [get?, hnone] at h

@[simp] theorem size_update (s : Slots α) (id : Link) (f : α → α) :
    (s.update id f).size = s.size := by
  cases id <;> simp [update, size]

@[simp] theorem free_update (s : Slots α) (id : Link) (f : α → α) :
    (s.update id f).free = s.free := by
  cases id <;> rfl

@[simp] theorem live_update (s : Slots α) (id : Link) (f : α → α) :
    (s.update id f).live = s.live := by
  cases id <;> rfl

theorem get?_update (s : Slots α) (id other : Link) (f : α → α) :
    (s.update id f).get? other = if id = other then (s.get? other).map f else s.get? other := by
  by_cases h : id = other
  · subst h
    simp [get?_update_self]
  · simp [get?_update_of_ne s f h, h]

theorem update_same {s : Slots α} {id : Link} {f : α → α} (h : ∀ a, s.get? id = some a → f a = a) :
    s.update id f = s := by
  cases id with
  | none => rfl
  | some i =>
    have hcells : s.cells.modify i (Option.map f) = s.cells := by
      apply Array.ext_getElem?
      intro j
      rw [Array.getElem?_modify]
      split
      · next hij =>
        subst hij
        cases hc : s.cells[i]? with
        | none => rfl
        | some cell =>
          cases cell with
          | none => rfl
          | some a => simp [h a (by simp [get?, hc])]
      · rfl
    simp only [update, hcells]

@[simp] theorem contains_update (s : Slots α) (id other : Link) (f : α → α) :
    (s.update id f).contains other = s.contains other := by
  unfold contains
  rw [get?_update]
  split <;> simp

theorem contains_iff {s : Slots α} {id : Link} :
    s.contains id = true ↔ ∃ a, s.get? id = some a := Option.isSome_iff_exists

theorem tidy_update {s : Slots α} (h : s.Tidy) (id : Link) (f : α → α) : (s.update id f).Tidy := by
  refine ⟨fun i => ?_, by simpa using h.nodup, by simpa using h.count⟩
  have hc := contains_update s id (some i) f
  simp only [contains] at hc
  rw [free_update, size_update, h.vacant i]
  refine and_congr_right (fun _ => ?_)
  rw [← Option.not_isSome_iff_eq_none, ← Option.not_isSome_iff_eq_none, hc]

/-! ## Allocation -/

/-- The number that the next allocation comes to. -/
def next (s : Slots α) : Nat := s.free.head?.getD s.size

theorem occupy_fst (s : Slots α) (a : α) : (s.occupy a).1 = s.next := by
  unfold occupy next
  cases s.free <;> rfl

theorem allocate_eq (s : Slots α) (a : α) : s.allocate a =
    if s.next < absentNumber then .ok (s.next, (s.occupy a).2) else .error (.exhausted s.next) := by
  rw [← occupy_fst s a]
  rfl

theorem Tidy.next_le {s : Slots α} (h : s.Tidy) : s.next ≤ s.size := by
  unfold next
  cases hf : s.free with
  | nil => exact Nat.le_refl _
  | cons i rest => exact Nat.le_of_lt ((h.vacant i).mp (by simp [hf])).1

theorem Tidy.next_lt {s : Slots α} (h : s.Tidy) (hsize : s.size ≤ absentNumber)
    (hlive : s.live < absentNumber) : s.next < absentNumber := by
  have hcount := h.count
  unfold next
  cases hf : s.free with
  | nil =>
    rw [hf, List.length_nil] at hcount
    simp only [List.head?_nil, Option.getD_none]
    omega
  | cons i rest => exact Nat.lt_of_lt_of_le ((h.vacant i).mp (by simp [hf])).1 hsize

theorem Tidy.next_eq {s : Slots α} (h : s.Tidy) (hsize : s.size ≤ absentNumber)
    (hlive : absentNumber ≤ s.live) : s.next = absentNumber := by
  have hcount := h.count
  have hfree : s.free = [] := List.eq_nil_of_length_eq_zero (by omega)
  rw [hfree, List.length_nil] at hcount
  simp only [next, hfree, List.head?_nil, Option.getD_none]
  omega

theorem Tidy.get?_next {s : Slots α} (h : s.Tidy) : s.get? (some s.next) = none := by
  unfold next
  cases hf : s.free with
  | nil => simp [get?, size]
  | cons i rest => exact ((h.vacant i).mp (by simp [hf])).2

/-- The number handed out holds the new item, and no other number changes. -/
theorem get?_occupy {s : Slots α} (h : s.Tidy) (a : α) (other : Link) :
    (s.occupy a).2.get? other = if other = some s.next then some a else s.get? other := by
  unfold occupy next
  cases other with
  | none => simp
  | some j =>
    cases hf : s.free with
    | nil =>
      by_cases hj : j = s.cells.size
      · subst hj
        simp [get?, size]
      · simp [get?, Array.getElem?_push, size, hj]
    | cons i rest =>
      obtain ⟨hi, -⟩ := (h.vacant i).mp (by simp [hf])
      by_cases hj : j = i
      · subst hj
        simp [get?, show j < s.cells.size from hi]
      · simp [get?, Ne.symm hj, hj]

theorem live_occupy (s : Slots α) (a : α) : (s.occupy a).2.live = s.live + 1 := by
  unfold occupy
  split <;> rfl

theorem size_occupy (s : Slots α) (a : α) :
    (s.occupy a).2.size = if s.free = [] then s.size + 1 else s.size := by
  unfold occupy
  split <;> simp_all [size]

theorem size_occupy_le {s : Slots α} (hsize : s.size ≤ absentNumber)
    (hnext : s.next < absentNumber) (a : α) : (s.occupy a).2.size ≤ absentNumber := by
  rw [size_occupy]
  split
  · next hfree =>
    rw [next, hfree] at hnext
    exact hnext
  · exact hsize

theorem free_occupy (s : Slots α) (a : α) : (s.occupy a).2.free = s.free.tail := by
  unfold occupy
  split <;> simp_all

theorem tidy_occupy {s : Slots α} (h : s.Tidy) (a : α) : (s.occupy a).2.Tidy := by
  have hget := get?_occupy h a
  refine ⟨fun i => ?_, ?_, ?_⟩
  · rw [hget, free_occupy, size_occupy]
    have hv := h.vacant i
    unfold next
    cases hf : s.free with
    | nil =>
      simp only [hf, List.not_mem_nil, false_iff, not_and] at hv
      simp only [List.tail_nil, List.not_mem_nil, Option.some.injEq, if_true, false_iff, not_and]
      intro hi hn
      split at hn
      · simp at hn
      · next hne =>
        simp only [List.head?_nil, Option.getD_none] at hne
        exact hv (by omega) hn
    | cons j rest =>
      have hnd := h.nodup
      rw [hf] at hnd hv
      have hj : j ∉ rest := (List.nodup_cons.mp hnd).1
      by_cases hij : i = j
      · subst hij
        simp [hj]
      · simpa [hij] using hv
  · rw [free_occupy]
    exact h.nodup.tail
  · have hc := h.count
    rw [live_occupy, free_occupy, size_occupy]
    cases hf : s.free with
    | nil => simp [hf] at hc ⊢; omega
    | cons j rest => simp [hf] at hc ⊢; omega

/-! ## Counting the occupied slots -/

theorem not_mem_free {s : Slots α} (h : s.Tidy) {i : Nat} {a : α}
    (hi : s.get? (some i) = some a) : i ∉ s.free := by
  intro hm
  rw [((h.vacant i).mp hm).2] at hi
  cases hi

/-- Different occupied slots are no more than are counted. -/
theorem Tidy.length_le {s : Slots α} (h : s.Tidy) {ids : List Nat} (hnd : ids.Nodup)
    (hocc : ∀ i ∈ ids, s.contains (some i) = true) : ids.length ≤ s.live := by
  have occupied : ∀ i ∈ ids, i < s.size ∧ i ∉ s.free := by
    intro i hi
    obtain ⟨a, ha⟩ := contains_iff.mp (hocc i hi)
    exact ⟨lt_size_of_get? ha, not_mem_free h ha⟩
  -- With the free numbers they are different numbers of the store.
  have hall : (ids ++ s.free).Nodup := by
    rw [List.nodup_append]
    refine ⟨hnd, h.nodup, ?_⟩
    intro i hi j hj hij
    exact (occupied i hi).2 (hij ▸ hj)
  have hsub : ids ++ s.free ⊆ List.range s.size := by
    intro i hi
    rw [List.mem_range]
    rcases List.mem_append.mp hi with hi | hi
    · exact (occupied i hi).1
    · exact ((h.vacant i).mp hi).1
  have hle := (hall.subperm hsub).length_le
  have hcount := h.count
  simp only [List.length_append, List.length_range] at hle
  omega

theorem Tidy.live_le {s : Slots α} (h : s.Tidy) {ids : List Nat}
    (hall : ∀ i, s.contains (some i) = true → i ∈ ids) : s.live ≤ ids.length := by
  have hsub : List.range s.size ⊆ ids ++ s.free := by
    intro i hi
    rw [List.mem_append]
    cases hc : s.get? (some i) with
    | none => exact .inr ((h.vacant i).mpr ⟨List.mem_range.mp hi, hc⟩)
    | some a => exact .inl (hall i (contains_iff.mpr ⟨a, hc⟩))
  have hle := (List.nodup_range.subperm hsub).length_le
  have hcount := h.count
  simp only [List.length_append, List.length_range] at hle
  omega

theorem Tidy.mem_of_contains {s : Slots α} (h : s.Tidy) {ids : List Nat} (hnd : ids.Nodup)
    (hocc : ∀ i ∈ ids, s.contains (some i) = true) (hlen : s.live = ids.length) {i : Nat}
    (hi : s.contains (some i) = true) : i ∈ ids := by
  apply Classical.byContradiction
  intro hout
  have hle := h.length_le (List.nodup_cons.mpr ⟨hout, hnd⟩) (List.forall_mem_cons.mpr ⟨hi, hocc⟩)
  rw [List.length_cons] at hle
  omega

/-- A list of occupied slots holds each of them once if and only if it holds none
twice and as many as are counted. -/
theorem Tidy.count_one_iff {s : Slots α} (h : s.Tidy) {ids : List Nat}
    (hocc : ∀ i ∈ ids, s.contains (some i) = true) :
    (∀ i, s.contains (some i) = true → ids.count i = 1) ↔ ids.length = s.live ∧ ids.Nodup := by
  constructor
  · intro hcount
    have hall : ∀ i, s.contains (some i) = true → i ∈ ids := fun i hi =>
      List.count_pos_iff.mp (by rw [hcount i hi]; exact Nat.one_pos)
    have hnodup : ids.Nodup := List.nodup_iff_count_eq_one.mpr fun i hi => hcount i (hocc i hi)
    exact ⟨Nat.le_antisymm (h.length_le hnodup hocc) (h.live_le hall), hnodup⟩
  · rintro ⟨hlength, hnodup⟩ i hi
    exact List.count_eq_one_of_mem hnodup (h.mem_of_contains hnodup hocc hlength.symm hi)

theorem live_pos {s : Slots α} (h : s.Tidy) {i : Nat} {a : α} (hi : s.get? (some i) = some a) :
    0 < s.live :=
  h.length_le (List.nodup_singleton i) (List.forall_mem_singleton.mpr (contains_iff.mpr ⟨a, hi⟩))

/-! ## Release -/

/-- The store after the slot `i` was given back. -/
def released (s : Slots α) (i : Nat) : Slots α :=
  ⟨s.cells.setIfInBounds i none, i :: s.free, s.live - 1⟩

theorem release_ok {s : Slots α} (h : s.Tidy) {i : Nat} {a : α} (hi : s.get? (some i) = some a) :
    s.release (some i) = .ok (some (a, s.released i)) := by
  have hpos := live_pos h hi
  obtain ⟨n, hn⟩ := Nat.exists_eq_succ_of_ne_zero (Nat.ne_of_gt hpos)
  simp [release, hi, hn, countDown, released]

theorem get?_released (s : Slots α) (i : Nat) (other : Link) :
    (s.released i).get? other = if other = some i then none else s.get? other := by
  cases other with
  | none => simp
  | some j =>
    by_cases hj : j = i
    · subst hj
      simp only [released, get?, if_true]
      rw [Array.getElem?_setIfInBounds_self]
      split <;> rfl
    · simp [released, get?, Ne.symm hj, hj]

@[simp] theorem size_released (s : Slots α) (i : Nat) : (s.released i).size = s.size := by
  simp [released, size]

theorem tidy_released {s : Slots α} (h : s.Tidy) {i : Nat} {a : α}
    (hi : s.get? (some i) = some a) : (s.released i).Tidy := by
  have hpos := live_pos h hi
  refine ⟨fun j => ?_, List.nodup_cons.mpr ⟨not_mem_free h hi, h.nodup⟩, ?_⟩
  · have hv := h.vacant j
    rw [get?_released, size_released]
    by_cases hj : j = i
    · subst hj
      simp [released, lt_size_of_get? hi]
    · simpa [released, hj] using hv
  · have hc := h.count
    rw [size_released]
    simp only [released, List.length_cons]
    omega

/-! ## Two items at once -/

theorem placed_toSubarray {s : Slots α} {start stop i : Nat} (hi : start + i < stop)
    (hstop : stop ≤ s.size) :
    placed (s.cells.toSubarray start stop) i =
      (s.get? (some (start + i))).map (start + i, ·) := by
  have hsize : stop ≤ s.cells.size := hstop
  have hstart : (s.cells.toSubarray start stop).start = start := by
    rw [Array.start_toSubarray]
    omega
  have hin : i < (s.cells.toSubarray start stop).size := by
    rw [Subarray.size_eq, Array.start_toSubarray, Array.stop_toSubarray]
    omega
  have hget : (s.cells.toSubarray start stop)[i]? = s.cells[start + i]? := by
    rw [getElem?_pos (s.cells.toSubarray start stop) i hin,
      getElem?_pos s.cells (start + i) (by omega), Subarray.getElem_eq_getElem_array]
    simp only [hstart, Array.array_toSubarray]
  rw [placed, hstart, hget, get?]

theorem get?_none_of_le {s : Slots α} {i : Nat} (h : s.size ≤ i) : s.get? (some i) = none := by
  have hnone : s.cells[i]? = none := Array.getElem?_eq_none h
  rw [get?, hnone]
  rfl

/-- Two different numbers lead to their items, each with its own place, whichever
of the two is the greater one. -/
theorem pair_of_ne {s : Slots α} {i j : Nat} (hij : i ≠ j) :
    s.pair (some i) (some j) = do
      let x ← s.get? (some i)
      let y ← s.get? (some j)
      return ((i, x), (j, y)) := by
  by_cases hsize : s.size ≤ max i j
  · -- The greater number is that of no slot.
    have hpair : s.pair (some i) (some j) = none := if_pos (.inr hsize)
    rw [hpair]
    rcases Nat.le_total i j with hle | hle
    · rw [get?_none_of_le (s := s) (i := j) (by omega)]
      cases s.get? (some i) <;> rfl
    · rw [get?_none_of_le (s := s) (i := i) (by omega)]
      rfl
  · have hlow := @placed_toSubarray α s 0 (max i j) (min i j) (by omega) (by omega)
    have hhigh := @placed_toSubarray α s (max i j) s.size 0 (by omega) (Nat.le_refl _)
    rw [Nat.zero_add] at hlow
    rw [Nat.add_zero] at hhigh
    have hpair : s.pair (some i) (some j) = do
        let first ← (s.get? (some (min i j))).map (min i j, ·)
        let second ← (s.get? (some (max i j))).map (max i j, ·)
        return if i < j then (first, second) else (second, first) := by
      rw [← hlow, ← hhigh]
      exact if_neg (not_or.mpr ⟨hij, hsize⟩)
    rw [hpair]
    rcases Nat.lt_or_gt_of_ne hij with hlt | hlt
    · rw [Nat.min_eq_left (Nat.le_of_lt hlt), Nat.max_eq_right (Nat.le_of_lt hlt)]
      cases s.get? (some i) <;> cases s.get? (some j) <;> simp [hlt]
    · rw [Nat.min_eq_right (Nat.le_of_lt hlt), Nat.max_eq_left (Nat.le_of_lt hlt)]
      cases s.get? (some i) <;> cases s.get? (some j) <;> simp [Nat.not_lt_of_gt hlt]

theorem pair_eq_some_iff {s : Slots α} {a b : Link} {x y : Nat × α} :
    s.pair a b = some (x, y) ↔ a ≠ b ∧ (a = some x.1 ∧ s.get? a = some x.2) ∧
      b = some y.1 ∧ s.get? b = some y.2 := by
  cases a with
  | none => simp [pair]
  | some i =>
    cases b with
    | none => simp [pair]
    | some j =>
      by_cases hij : i = j
      · simp [pair, hij]
      · rw [pair_of_ne hij]
        obtain ⟨i', x⟩ := x
        obtain ⟨j', y⟩ := y
        cases s.get? (some i) <;> cases s.get? (some j) <;> grind

theorem update_const {s : Slots α} {i : Nat} {a : α} (h : s.get? (some i) = some a) (x : α) :
    s.update (some i) (fun _ => x) = { s with cells := s.cells.setIfInBounds i (some x) } := by
  have hcell : s.cells[i]? = some (some a) := Option.join_eq_some_iff.mp h
  have hcells : s.cells.modify i (Option.map fun _ => x) = s.cells.setIfInBounds i (some x) := by
    apply Array.ext_getElem?
    intro j
    rw [Array.getElem?_modify, Array.getElem?_setIfInBounds]
    by_cases hij : i = j
    · subst hij
      have hi : i < s.cells.size := lt_size_of_get? h
      rw [if_pos rfl, if_pos rfl, if_pos hi, hcell]
      rfl
    · simp [hij]
  simp only [update, hcells]

theorem pair_eq_none {s : Slots α} {a b : Link} (h : s.get? a = none ∨ s.get? b = none ∨ a = b) :
    s.pair a b = none := by
  cases hpair : s.pair a b with
  | none => rfl
  | some xy =>
    obtain ⟨hab, ⟨-, ha⟩, -, hb⟩ := pair_eq_some_iff.mp hpair
    rcases h with h | h | h
    · cases h.symm.trans ha
    · cases h.symm.trans hb
    · exact absurd h hab

theorem updatePair_eq (s : Slots α) (a b : Link) (f : α → α → α × α) :
    s.updatePair a b f =
      match s.get? a, s.get? b with
      | some x, some y =>
        if a = b then none
        else some ((s.update a (fun _ => (f x y).1)).update b (fun _ => (f x y).2))
      | _, _ => none := by
  have hnone : s.pair a b = none → s.updatePair a b f = none := by
    intro hpair
    rw [updatePair, hpair]
    rfl
  cases ha : s.get? a with
  | none => exact hnone (pair_eq_none (.inl ha))
  | some x =>
    cases hb : s.get? b with
    | none => exact hnone (pair_eq_none (.inr (.inl hb)))
    | some y =>
      change s.updatePair a b f = if a = b then none else _
      by_cases hab : a = b
      · rw [if_pos hab, hnone (pair_eq_none (.inr (.inr hab)))]
      · rw [if_neg hab]
        cases a with
        | none => cases ha
        | some i =>
          cases b with
          | none => cases hb
          | some j =>
            have hb' : (s.update (some i) (fun _ => (f x y).1)).get? (some j) = some y := by
              rw [get?_update_of_ne _ _ hab, hb]
            have hij : i ≠ j := fun hij => hab (congrArg some hij)
            rw [update_const hb', update_const ha, updatePair, pair_of_ne hij, ha, hb]
            rfl

theorem exists_updatePair {s : Slots α} {a b : Link} {f : α → α → α × α} :
    (∃ s', s.updatePair a b f = some s') ↔
      a ≠ b ∧ s.contains a = true ∧ s.contains b = true := by
  rw [updatePair_eq, contains, contains]
  cases s.get? a with
  | none => simp
  | some x =>
    cases s.get? b with
    | none => simp
    | some y => by_cases hab : a = b <;> simp [hab]

end Slots

end SlotTree
