import SlotTree.Proofs.Roaming
import SlotTree.Proofs.Stretch

/-
  Nearby keys — which of the stored keys lies next to a given one.

  A search for the nearest key keeps the last node passed that lies on the side in
  question. In a sorted tree what it ends at is the first item there
  (`Tree.nearest_tip`). Here that item is named without the list: of the stored
  keys that are meant it is the outermost, and there is none exactly if no stored
  key is meant (`Side.Outermost`).

  The key that is given need not be stored. If a stored key is equal to it, that
  key is the answer of both inclusive searches, as it is stored
  (`Outermost.of_eq`).
-/
namespace SlotTree

variable {K V : Type} {cmp : K → K → Ordering}

namespace Side

/-- Of the keys that are meant, the outermost on side `s`: all others that are
meant lie further in. No key is the answer if none is meant. -/
def Outermost (cmp : K → K → Ordering) (s : Side) (keys : List K) (meant : K → Prop) :
    Option K → Prop
  | none => ∀ k ∈ keys, ¬ meant k
  | some k => k ∈ keys ∧ meant k ∧ ∀ k' ∈ keys, meant k' → k' = k ∨ cmp k k' = s.order

variable {s : Side} {keys : List K} {meant : K → Prop} {o : Option K} {k key : K}

theorem tip_eq_none {α : Type} {l : List α} : s.tip l = none ↔ l = [] := by
  cases s with
  | left => exact List.head?_eq_none_iff
  | right => exact List.getLast?_eq_none_iff

theorem order_of_tip [Std.OrientedCmp cmp] {es : List (K × V)} {e e' : K × V}
    (h : Ascending cmp es) (htip : s.tip es = some e) (he' : e' ∈ es) :
    e' = e ∨ cmp e.1 e'.1 = s.order := by
  cases s with
  | left =>
    obtain ⟨rest, rfl⟩ := List.head?_eq_some_iff.mp htip
    rcases List.mem_cons.mp he' with rfl | he'
    · exact .inl rfl
    · exact .inr (List.rel_of_pairwise_cons h he')
  | right =>
    obtain ⟨rest, rfl⟩ := List.getLast?_eq_some_iff.mp htip
    rcases List.mem_append.mp he' with he' | he'
    · exact .inr (Std.OrientedCmp.gt_of_lt
        ((List.pairwise_append.mp h).2.2 e' he' e List.mem_cons_self))
    · exact .inl (List.mem_singleton.mp he')

theorem outermost_tip [Std.OrientedCmp cmp] {es : List (K × V)} (h : Ascending cmp es)
    (p : K → Bool) :
    s.Outermost cmp (es.map (·.1)) (fun k => p k = true)
      ((s.tip (es.filter (fun e => p e.1))).map (·.1)) := by
  have hmem : ∀ k ∈ es.map (·.1), p k = true → ∃ e ∈ es.filter (fun e => p e.1), e.1 = k := by
    intro k hk hp
    obtain ⟨e, he, rfl⟩ := List.mem_map.mp hk
    exact ⟨e, List.mem_filter.mpr ⟨he, hp⟩, rfl⟩
  cases htip : s.tip (es.filter (fun e => p e.1)) with
  | none =>
    intro k hk hp
    obtain ⟨e, he, -⟩ := hmem k hk hp
    rw [tip_eq_none.mp htip] at he
    cases he
  | some e =>
    obtain ⟨he, hp⟩ := List.mem_filter.mp (tip_mem htip)
    refine ⟨List.mem_map_of_mem he, hp, ?_⟩
    intro k hk hpk
    obtain ⟨e', he', rfl⟩ := hmem k hk hpk
    rcases order_of_tip (h.filter _) htip he' with rfl | horder
    · exact .inl rfl
    · exact .inr horder

/-- A stored key that is equal to the given one is the answer, if all that lie
further in than the given one are meant too. -/
theorem Outermost.of_eq [Std.TransCmp cmp] (h : s.Outermost cmp keys (cmp · key ≠ s.order) o)
    (hk : k ∈ keys) (heq : cmp k key = .eq) : o = some k := by
  have hmeant : cmp k key ≠ s.order := by
    rw [heq]
    cases s <;> nofun
  cases o with
  | none => exact absurd hmeant (h k hk)
  | some found =>
    obtain ⟨-, hfound, hothers⟩ := h
    rcases hothers k hk hmeant with rfl | horder
    · rfl
    · -- Otherwise the answer would lie further out than the given key.
      rw [Std.TransCmp.congr_right heq] at horder
      exact absurd horder hfound

end Side

/-! ## Searches -/

namespace Tree

variable [Std.TransCmp cmp] {t : Tree K V} {items : List (Nat × K × V)}

theorem nearest_outermost (h : t.Keeps items) (ha : Ascending cmp (items.map (·.2))) (s : Side)
    (inclusive : Bool) (key : K) :
    ∃ o, t.keyOf <$> t.nearest cmp s inclusive key = .ok o ∧
      s.other.Outermost cmp ((items.map (·.2)).map (·.1))
        (fun k => if inclusive then cmp k key ≠ s.other.order else cmp k key = s.order) o := by
  have hmeant : ∀ k, (if inclusive then cmp k key ≠ s.other.order else cmp k key = s.order) ↔
      decide (s.cut cmp inclusive key k ≠ s.order) = true := by
    intro k
    have hswap : cmp k key = (cmp key k).swap := Std.OrientedCmp.eq_swap
    rw [hswap]
    cases hk : cmp key k <;> cases inclusive <;> cases s <;>
      simp [Side.cut, hk, Side.order, Side.other]
  refine ⟨_, by rw [nearest_tip h ha, map_ok, keyOf_tip h s.other List.filter_sublist], ?_⟩
  have htip := Side.outermost_tip (s := s.other) ha
    (fun k => decide (s.cut cmp inclusive key k ≠ s.order))
  rw [List.filter_map] at htip
  simp only [hmeant]
  exact htip

theorem endEntry_outermost (h : t.Keeps items) (ha : Ascending cmp (items.map (·.2))) (s : Side) :
    ∃ o, t.endEntry s = .ok o ∧ t.endKey s = .ok (o.map (·.1)) ∧
      (∀ e, o = some e → e ∈ items.map (·.2)) ∧
      s.Outermost cmp ((items.map (·.2)).map (·.1)) (fun _ => True) (o.map (·.1)) := by
  have hentry : t.endEntry s = .ok (s.tip (items.map (·.2))) := by
    rw [endEntry, h.endNode, map_ok, entryOf_tip h s (.refl _)]
  have hkey : t.endKey s = .ok ((s.tip (items.map (·.2))).map (·.1)) := by
    rw [endKey, h.endNode, map_ok, keyOf_tip h s (.refl _)]
  refine ⟨_, hentry, hkey, fun e he => Side.tip_mem he, ?_⟩
  simpa using Side.outermost_tip (s := s) ha (fun _ => true)

end Tree

open SlotTree.Side

variable [Written K] [Written V] [DecidableEq K] [DecidableEq V]

/-- After any run under one lawful comparison, each search for a key near a given
one, stored or not, ends at the stored key that its name says, and at none if there
is no such key. A stored key that is equal to the given one is found as it is
stored, by both searches that admit it. The key after and the key before are the
answers of the two that do not. The ends of the tree have the least and the
greatest of all stored keys. -/
theorem roamed_keys_nearby {C : (K → K → Ordering) → Prop} {s : Session K V} {number : Nat}
    {t : Tree K V} (h : Roams C s) (hgov : Governs C cmp) (ht : s.tree number = .ok t) :
    ∃ es keys, t.entries = .ok es ∧ es.map (·.1) = keys ∧
      (∀ key, ∃ ceiling floor higher lower,
        t.ceilingKey cmp key = .ok ceiling ∧
          Outermost cmp .left keys (cmp · key ≠ .lt) ceiling ∧
        t.floorKey cmp key = .ok floor ∧
          Outermost cmp .right keys (cmp · key ≠ .gt) floor ∧
        t.higherKey cmp key = .ok higher ∧
          Outermost cmp .left keys (cmp · key = .gt) higher ∧
        t.lowerKey cmp key = .ok lower ∧
          Outermost cmp .right keys (cmp · key = .lt) lower ∧
        t.nextKey cmp key = .ok higher ∧ t.previousKey cmp key = .ok lower ∧
        ∀ k ∈ keys, cmp k key = .eq → ceiling = some k ∧ floor = some k) ∧
      ∀ side, ∃ o, t.endEntry side = .ok o ∧ t.endKey side = .ok (o.map (·.1)) ∧
        (∀ e, o = some e → e ∈ es) ∧
        Outermost cmp side keys (fun _ => True) (o.map (·.1)) := by
  obtain ⟨items, hk, hasc⟩ := h.keeps number t ht
  have := hgov.lawful
  have ha := hasc cmp hgov
  refine ⟨items.map (·.2), _, hk.entries, rfl, ?_, Tree.endEntry_outermost hk ha⟩
  intro key
  obtain ⟨ceiling, hceiling, hleast⟩ := Tree.nearest_outermost hk ha .right true key
  obtain ⟨floor, hfloor, hgreatest⟩ := Tree.nearest_outermost hk ha .left true key
  obtain ⟨higher, hhigher, hafter⟩ := Tree.nearest_outermost hk ha .right false key
  obtain ⟨lower, hlower, hbefore⟩ := Tree.nearest_outermost hk ha .left false key
  refine ⟨ceiling, floor, higher, lower, hceiling, hleast, hfloor, hgreatest, hhigher, hafter,
    hlower, hbefore, hhigher, hlower, ?_⟩
  intro k hmem heq
  exact ⟨Outermost.of_eq hleast hmem heq, Outermost.of_eq hgreatest hmem heq⟩

/-- Around a number that is stored with the other sign. -/
theorem signless_keys_nearby :
    ∃ (s : Session Int Int) (t : Tree Int Int), Roams (· = compareOn Int.natAbs) s ∧
      s.tree 0 = .ok t ∧ t.entries = .ok [(-2, 20), (5, 50), (-7, 70)] ∧
      t.ceilingKey (compareOn Int.natAbs) (-5) = .ok (some 5) ∧
      t.floorKey (compareOn Int.natAbs) (-5) = .ok (some 5) ∧
      t.higherKey (compareOn Int.natAbs) (-5) = .ok (some (-7)) ∧
      Outermost (compareOn Int.natAbs) .left [-2, 5, -7]
        (compareOn Int.natAbs · (-5) = .gt) (some (-7)) ∧
      t.lowerKey (compareOn Int.natAbs) 2 = .ok none ∧
      Outermost (compareOn Int.natAbs) .right [-2, 5, -7]
        (compareOn Int.natAbs · 2 = .lt) none := by
  have h := @Roams.command Int Int _ _ _ _ (· = compareOn Int.natAbs) _ (compareOn Int.natAbs) 0
    (.edit (.insertAll [(5, 50), (-7, 70), (-2, 20)])) _ .blank rfl trivial rfl
  obtain ⟨es, keys, hes, rfl, hnear, -⟩ :=
    @roamed_keys_nearby Int Int (compareOn Int.natAbs) _ _ _ _ _ _ 0 _ h
      ⟨inferInstance, fun _ h => h⟩ rfl
  have hentries : es = [(-2, 20), (5, 50), (-7, 70)] := Except.ok.inj (hes.symm.trans rfl)
  subst hentries
  obtain ⟨ceiling, floor, higher, lower, hceiling, -, hfloor, -, hhigher, hafter, -, -, -, -,
    heq⟩ := hnear (-5)
  obtain ⟨rfl, rfl⟩ := heq 5 (by simp) rfl
  obtain rfl : higher = some (-7) := Except.ok.inj (hhigher.symm.trans rfl)
  obtain ⟨-, -, -, before, -, -, -, -, -, -, hlower, hbefore, -⟩ := hnear 2
  obtain rfl : before = none := Except.ok.inj (hlower.symm.trans rfl)
  exact ⟨_, _, h, rfl, hes, hceiling, hfloor, hhigher, hafter, hlower, hbefore⟩

end SlotTree
