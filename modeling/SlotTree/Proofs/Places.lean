import SlotTree.Proofs.Dictionary
import SlotTree.Proofs.Roaming

/-
  Places — a slot number stands for one entry as long as that entry is there.

  A removal takes the entry of the slot it is given and answers where the entry
  that followed is afterwards. No other entry leaves its slot, unless the node
  had two children: then the following entry has moved into the slot that was
  given, and its old slot is the vacant one (`Tree.Vacates`). Whichever slot
  becomes vacant lies on top of the free stack, so the next new entry goes
  there. An insertion puts a new entry into a slot that was vacant, and it stays
  there through the repair; with 2^32 - 1 entries there is no such slot.

  All of this goes for any comparison and for the slots of any tree that a run
  leads to (`roamed_slots_name_entries`).
-/
namespace SlotTree

variable {K V : Type}

namespace Tree

variable {t : Tree K V} {items before after : List (Nat × K × V)} {i freed : Nat} {e : K × V}

theorem Keeps.occupied (h : t.Keeps items) (j : Nat) :
    t.slots.contains (some j) = true ↔ j ∈ items.map (·.1) := by
  obtain ⟨-, sh, hsound, rfl⟩ := h
  exact hsound.occupied j

theorem Keeps.inOrder (h : t.Keeps items) : t.inOrder = .ok (items.map (·.1)) := by
  obtain ⟨-, sh, hsound, rfl⟩ := h
  exact hsound.holds.inOrder

theorem Keeps.allocate_top (h : t.Keeps items) {rest : List Nat} (hfree : t.slots.free = i :: rest)
    (n : Node K V) : ∃ slots, t.slots.allocate n = .ok (i, slots) := by
  obtain ⟨hfits, sh, hsound, -⟩ := h
  obtain ⟨hlt, -⟩ := (hsound.tidy.vacant i).mp (by simp [hfree])
  have hnext : t.slots.next = i := by simp [Slots.next, hfree]
  rw [Slots.allocate_eq, hnext, if_pos (by omega)]
  exact ⟨_, rfl⟩

/-- What the removal of the node in slot `i` does to a tree whose items are
`before`, the one of that slot and `after`. -/
structure Frees (t : Tree K V) (before : List (Nat × K × V)) (i : Nat) (e : K × V)
    (after : List (Nat × K × V)) (freed : Nat) (r : Removed K V) : Prop where
  /-- The entry of the slot is answered. -/
  entry : (r.key, r.value) = e
  /-- It is gone, and the others follow each other as before. -/
  entries : r.tree.entries = .ok ((before ++ after).map (·.2))
  /-- The others keep their slots, but for the following one if it had to move,
  and the answer names the slot where the following one is now. -/
  places : ∃ after', t.Vacates i after after' freed ∧ r.tree.Keeps (before ++ after') ∧
    r.next = after'.head?.map (·.1)
  /-- One slot is vacant that was not. -/
  occupied : ∀ j, r.tree.slots.contains (some j) = true ↔
    t.slots.contains (some j) = true ∧ j ≠ freed
  stack : r.tree.slots.free = freed :: t.slots.free
  /-- That slot is the next one to be occupied. -/
  reused : ∀ n, ∃ slots, r.tree.slots.allocate n = .ok (freed, slots)

theorem Vacates.mem_ids {after' : List (Nat × K × V)} (h : t.Vacates i after after' freed)
    (hnd : ((before ++ (i, e) :: after).map (·.1)).Nodup) (j : Nat) :
    j ∈ (before ++ after').map (·.1) ↔ j ∈ (before ++ (i, e) :: after).map (·.1) ∧ j ≠ freed := by
  rw [List.map_append, List.map_cons, List.nodup_append] at hnd
  obtain ⟨-, hnd, hapart⟩ := hnd
  rw [List.nodup_cons] at hnd
  cases h with
  | stays =>
    have hbefore : i ∉ before.map (·.1) := fun hm => hapart i hm i (List.mem_cons_self ..) rfl
    simp only [List.map_append, List.map_cons, List.mem_append, List.mem_cons]
    grind
  | moves =>
    have hbefore : freed ∉ before.map (·.1) := fun hm => hapart freed hm freed (by simp) rfl
    simp only [List.map_append, List.map_cons, List.mem_append, List.mem_cons] at hnd ⊢
    grind

theorem eraseNode_frees (h : t.Keeps (before ++ (i, e) :: after)) :
    ∃ r freed, t.eraseNode (some i) = .ok (some r) ∧ t.Frees before i e after freed r := by
  obtain ⟨r, after', freed, hrun, he, hnext, -, hk, hvacates, hstack⟩ := eraseNode_vacates h
  refine ⟨r, freed, hrun, he, ?_, ⟨after', hvacates, hk, hnext⟩, fun j => ?_, hstack,
    hk.allocate_top hstack⟩
  · rw [hk.entries, List.map_append, List.map_append, hvacates.shifted.entries]
  · rw [hk.occupied, h.occupied]
    exact hvacates.mem_ids h.nodup j

theorem eraseNode_vacant {l : Link} (h : t.slots.get? l = none) :
    t.eraseNode l = .ok none ∧ t.takeNode l = .ok (none, t) := by
  have hrun : t.eraseNode l = .ok none := by
    cases l with
    | none => rfl
    | some i => simp [eraseNode, h]
  exact ⟨hrun, by simp [takeNode, hrun]⟩

end Tree

variable [Written K] [Written V] [DecidableEq K] [DecidableEq V]

/-- In any tree that a run leads to, slot numbers name entries. A removal takes
the entry of the slot it is given, answers where the following entry is now, and
frees one slot; there is nothing to remove elsewhere. An insertion under any
comparison puts a key that the search does not find into a slot that was vacant
and moves no entry, unless there are 2^32 - 1 entries already; for an equal key
that it finds it puts another value into that slot, and nothing else changes but
the revision. A search under the one comparison in use, if it is lawful, finds
every key that is there. -/
theorem roamed_slots_name_entries {C : (K → K → Ordering) → Prop} {s : Session K V} {number : Nat}
    {t : Tree K V} (h : Roams C s) (ht : s.tree number = .ok t) :
    ∃ items : List (Nat × K × V), t.Keeps items ∧ t.inOrder = .ok (items.map (·.1)) ∧
      t.entries = .ok (items.map (·.2)) ∧
      (∀ i n, t.slots.get? (some i) = some n →
        ∃ before after r freed, items = before ++ (i, n.entry) :: after ∧
          t.eraseNode (some i) = .ok (some r) ∧ t.Frees before i n.entry after freed r) ∧
      (∀ l, t.slots.get? l = none → t.eraseNode l = .ok none ∧ t.takeNode l = .ok (none, t)) ∧
      ∀ cmp key value,
        (t.find cmp key = .ok none ∧
          (Governs C cmp → ∀ e ∈ items.map (·.2), cmp key e.1 ≠ .eq) ∧
          (t.size < absentNumber → ∃ before after r, items = before ++ after ∧
            t.insertNode cmp key value = .ok r ∧ r.old = none ∧ r.id ∉ items.map (·.1) ∧
            r.tree.Keeps (before ++ (r.id, key, value) :: after)) ∧
          (¬ t.size < absentNumber →
            t.insertNode cmp key value = .error (.exhausted absentNumber))) ∨
        ∃ i n, t.find cmp key = .ok (some i) ∧ t.slots.get? (some i) = some n ∧
          cmp key n.key = .eq ∧ t.insertNode cmp key value = .ok ⟨i, some n.value, { t with
            slots := t.slots.update (some i) (fun n => { n with value := value })
            revision := t.revision + 1 }⟩ := by
  obtain ⟨items, hk, hasc⟩ := h.keeps number t ht
  refine ⟨items, hk, hk.inOrder, hk.entries, ?_, fun l hl => Tree.eraseNode_vacant hl, ?_⟩
  · intro i n hn
    obtain ⟨before, after, hitems⟩ := hk.item_of_get? hn
    obtain ⟨r, freed, hrun, hfrees⟩ := Tree.eraseNode_frees (hitems ▸ hk)
    exact ⟨before, after, r, freed, hitems, hrun, hfrees⟩
  · intro cmp key value
    obtain ⟨l, hfind, hl⟩ := Tree.find_found cmp hk key
    cases hl with
    | absent hnone =>
      refine .inl ⟨hfind, ?_, ?_, fun hfull => Tree.insertNode_exhausted hk hfind hfull value⟩
      · intro hgov
        have := hgov.lawful
        exact hnone (hasc cmp hgov)
      · intro hroom
        obtain ⟨before, after, i, t', hitems, hrun, hout, -, hk'⟩ :=
          Tree.insertNode_absent hk hfind hroom value
        exact ⟨before, after, _, hitems, hrun, rfl, hout, hk'⟩
    | @present before after i e hitems heq =>
      obtain ⟨n, hn, hrun⟩ := Tree.insertNode_present hk hfind value
      obtain ⟨n', hn', rfl⟩ := (hitems ▸ hk).get?
      obtain rfl := Option.some.inj (hn.symm.trans hn')
      exact .inr ⟨i, n, hfind, hn, heq, hrun⟩

theorem crowd_stored {n : Nat} (hn : n ≤ absentNumber) :
    ∃ (o : Outcome Int Int) (t : Tree Int Int) (items : List (Nat × Int × Int)),
      Session.blank.exec compare 0 (.edit (.insertAll (crowd n))) = .ok o ∧
        o.session.tree 0 = .ok t ∧ t.Keeps items ∧ items.map (·.2) = crowd n := by
  have hlist : Assoc.edit compare [] (.insertAll (crowd n)) = some (.nothing, crowd n) := by
    rw [Assoc.edit, insertAll_crowd]
  have hempty : (Session.blank : Session Int Int).tree 0 = .ok Tree.empty := rfl
  obtain ⟨t, items, hrun, hk, hitems, -⟩ :=
    Tree.edit_assoc Tree.keeps_empty List.Pairwise.nil (by rwa [length_crowd]) hlist
  refine ⟨⟨.nothing, [], Session.blank.setTree 0 t⟩, t, items, ?_, rfl, hk, hitems⟩
  simp only [Session.exec, hempty, ok_bind, hrun, Session.orStop, pure_ok]
  rfl

/-- With 2^32 - 1 keys stored, a fresh key has no slot. -/
theorem crowdedTree_exhausted :
    ∃ (o : Outcome Int Int) (t : Tree Int Int),
      Session.blank.exec compare 0 (.edit (.insertAll (crowd 4294967295))) = .ok o ∧
        Roams (· = compare) o.session ∧ o.session.tree 0 = .ok t ∧
        t.find compare (-1) = .ok none ∧
        t.insertNode compare (-1) 0 = .error (.exhausted 4294967295) := by
  obtain ⟨o, t, items, hrun, ht, hk, hitems⟩ := crowd_stored (Nat.le_refl absentNumber)
  have hfind : t.find compare (-1) = .ok none := by
    obtain ⟨l, hfind, hl⟩ := Tree.find_found compare hk (-1)
    cases hl with
    | absent => exact hfind
    | @present before after i e heq he =>
      -- The keys stored are not negative.
      have hmem : e ∈ crowd absentNumber := by simp [← hitems, heq]
      obtain ⟨n, -, rfl⟩ := List.mem_map.mp hmem
      have hkey : (-1 : Int) = n := Int.compare_eq_eq.mp he
      omega
  have hfull : ¬ t.size < absentNumber := by
    rw [hk.size, ← List.length_map (fun item : Nat × Int × Int => item.2), hitems, length_crowd]
    exact Nat.lt_irrefl _
  exact ⟨o, t, hrun, .command .blank rfl (by trivial) hrun, ht, hfind,
    Tree.insertNode_exhausted hk hfind hfull 0⟩

/-- Three entries, of which the one in the middle lies in slot 0 and has two
children. -/
def forkedEntries : List ((Int → Int → Ordering) × Nat × Command Int Int) :=
  [(compare, 0, .edit (.insertAll [(2, 20), (1, 10), (3, 30)]))]

/-- The entry that follows moves into the slot of the removed one, and its own
slot is the next one to be occupied. -/
theorem forkedEntries_named :
    ∃ (s : Session Int Int) (t : Tree Int Int) (r : Removed Int Int), Roams (· = compare) s ∧
      s.tree 0 = .ok t ∧ t.eraseNode (some 0) = .ok (some r) ∧ r.next = some 0 ∧
      r.tree.entryOf (some 0) = some (3, 30) ∧
      ∀ n, ∃ slots, r.tree.slots.allocate n = .ok (2, slots) := by
  have hrun : Session.blank.follow .blank forkedEntries = some _ := rfl
  have hreach := Reaches.follow (C := (· = compare)) .blank (by simp [forkedEntries]) hrun
  obtain ⟨items, -, -, -, herase, -, -⟩ :=
    @roamed_slots_name_entries Int Int _ _ _ _ _ _ 0 _ hreach.roams rfl
  obtain ⟨before, after, r, freed, -, herased, hfrees⟩ := herase 0 _ rfl
  obtain rfl := Option.some.inj (Except.ok.inj (herased.symm.trans rfl))
  obtain rfl : 2 = freed := (List.cons.inj hfrees.stack).1
  exact ⟨_, _, _, hreach.roams, rfl, herased, rfl, rfl, hfrees.reused⟩

end SlotTree
