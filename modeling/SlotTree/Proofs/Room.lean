import SlotTree.Proofs.Roaming

/-
  Room — how many slots an operation opens.

  A slot that becomes vacant is occupied again before a new one is opened. So a
  removal leaves the number of slots as it is (`eraseNode_grows`), and an
  insertion opens one only if every slot is occupied (`insert_grows`). Nothing
  else than these two changes that number, but for emptying a tree.

  The sizes of an operation are the numbers of entries after each of the single
  operations that it stands for: a list of operations through a window, at any
  depth, stands for these, and a sweep for its steps. `Tree.Grows` says that
  there are afterwards as many slots as before or, if that is more, as the
  largest of these numbers.
-/
namespace SlotTree

variable {K V : Type}

/-! ## The number of entries after each operation -/

/-- The number of entries after an operation. -/
def Tree.sizeAfter {α : Type} : Except Fault (α × Tree K V) → List Nat
  | .ok (_, t) => [t.size]
  | .error _ => []

/-- The number of entries after each of several operations. -/
def Tree.sizesAfter {α β : Type} (step : Tree K V → β → Except Fault (α × Tree K V)) :
    Tree K V → List β → List Nat
  | _, [] => []
  | t, b :: bs =>
    match step t b with
    | .ok (_, t) => t.size :: sizesAfter step t bs
    | .error _ => []

namespace WindowWrite

variable [Written K]

mutual

/-- The number of entries after each operation through a window. -/
def sizes (cmp : K → K → Ordering) (t : Tree K V) (w : Window K) (op : WindowWrite K V) :
    List Nat :=
  match op with
  | narrow bounds ops =>
    match w.narrow cmp bounds with
    | .error _ => []
    | .ok inner => sizesAll cmp t inner ops
  | op => Tree.sizeAfter (run cmp t w op)

/-- The number of entries after each of a list of operations. -/
def sizesAll (cmp : K → K → Ordering) (t : Tree K V) (w : Window K) :
    List (WindowWrite K V) → List Nat
  | [] => []
  | op :: ops =>
    sizes cmp t w op ++
      match run cmp t w op with
      | .ok (_, t) => sizesAll cmp t w ops
      | .error _ => []

end

end WindowWrite

/-- The number of entries after each operation that an edit stands for. -/
def Edit.sizes [Written K] [Written V] [DecidableEq K] (cmp : K → K → Ordering) (t : Tree K V)
    (e : Edit K V) : List Nat :=
  match e with
  | .insertCounting entries => Tree.sizesAfter (fun t e => t.insert cmp e.1 e.2) t entries
  | .removeCounting keys => Tree.sizesAfter (Tree.remove cmp) t keys
  | .window bounds ops =>
    match Window.ofBounds cmp bounds with
    | .error _ => []
    | .ok w => WindowWrite.sizesAll cmp t w ops
  | e => Tree.sizeAfter (e.run cmp t)

namespace CursorOp

/-- The number of entries after each removal of a sweep. -/
def sweepSizes (s : Side) (meant : Nat → K → Bool) : Nat → Tree K V → Cursor → Nat → List Nat
  | 0, _, _, _ => []
  | steps + 1, t, c, seen =>
    if c.hasEntry s = false then []
    else
      match c.step t s with
      | .ok (.ok (e, c)) =>
        if meant seen e.1 then
          match c.remove t with
          | .ok (.ok (_, c, t)) => t.size :: sweepSizes s meant steps t c (seen + 1)
          | _ => []
        else sweepSizes s meant steps t c (seen + 1)
      | _ => []

/-- The number of entries after each operation that one on a cursor stands
for. -/
def sizes (t : Tree K V) (c : Cursor) (op : CursorOp K V) : List Nat :=
  match op with
  | sweep s meant => sweepSizes s meant t.patience t c 0
  | op => Tree.sizeAfter ((fun done => (done.1, done.2.2)) <$> op.run t c)

end CursorOp

/-! ## The number of slots -/

namespace Tree

variable {t t' t'' : Tree K V} {items : List (Nat × K × V)} {i : Nat}
  {ns ms : List Nat} {l : Link} {cmp : K → K → Ordering} {key : K}

theorem Keeps.room (h : t.Keeps items) : t.size + t.slots.free.length = t.slots.size := by
  obtain ⟨-, sh, hsound, -⟩ := h
  rw [hsound.size, ← hsound.live]
  exact hsound.tidy.count

/-- The tree `t'` is sound and has the slots of `t`, and more only if one of
these numbers of entries asks for them. -/
structure Grows (t : Tree K V) (ns : List Nat) (t' : Tree K V) : Prop where
  keeps : ∃ items, t'.Keeps items
  room : t'.slots.size = ns.foldl max t.slots.size

namespace Grows

theorem refl (h : t.Keeps items) : t.Grows [] t := ⟨⟨items, h⟩, rfl⟩

theorem trans (h : t.Grows ns t') (h' : t'.Grows ms t'') : t.Grows (ns ++ ms) t'' :=
  ⟨h'.keeps, by rw [h'.room, h.room, List.foldl_append]⟩

/-- The entries that are there have asked for no more slots than there are. -/
theorem noted (h : t.Grows ns t') : t.Grows (ns ++ [t'.size]) t' := by
  refine ⟨h.keeps, ?_⟩
  obtain ⟨items', hk⟩ := h.keeps
  have hroom := hk.room
  rw [List.foldl_append, ← h.room, List.foldl_cons, List.foldl_nil]
  omega

theorem once {α : Type} {run : Except Fault (α × Tree K V)} {a : α} (h : t.Grows [t'.size] t')
    (hrun : run = .ok (a, t')) : t.Grows (sizeAfter run) t' := by
  subst hrun
  exact h

theorem level {α : Type} {run : Except Fault (α × Tree K V)} {a : α} (h : t.Grows [] t')
    (hrun : run = .ok (a, t')) : t.Grows (sizeAfter run) t' := h.noted.once hrun

end Grows

/-! ### Removals -/

theorem eraseNode_grows (h : t.Keeps items) {r : Removed K V}
    (hrun : t.eraseNode l = .ok (some r)) : t.Grows [] r.tree := by
  cases l with
  | none => cases hrun
  | some i =>
    cases hn : t.slots.get? (some i) with
    | none => simp [eraseNode, hn] at hrun
    | some n =>
      obtain ⟨before, after, rfl⟩ := h.item_of_get? hn
      obtain ⟨r', after', freed, hrun', -, -, -, hk, hvacates, hfree⟩ := eraseNode_vacates h
      obtain rfl : r = r' := by simpa using hrun.symm.trans hrun'
      refine ⟨⟨_, hk⟩, ?_⟩
      -- One entry less and one vacant slot more.
      have hlen : after'.length = after.length := by
        simpa using congrArg List.length hvacates.shifted.entries
      have hroom := h.room
      have hroom' := hk.room
      rw [h.size, List.length_append, List.length_cons] at hroom
      rw [hk.size, List.length_append, hfree, List.length_cons] at hroom'
      rw [List.foldl_nil]
      omega

theorem takeNode_grows (h : t.Keeps items) {e : Option (K × V)}
    (hrun : t.takeNode l = .ok (e, t')) : t.Grows [] t' := by
  obtain ⟨erased, herase, hrun⟩ := bind_eq_ok.mp hrun
  cases erased with
  | none =>
    cases hrun
    exact .refl h
  | some r =>
    cases hrun
    exact eraseNode_grows h herase

theorem removeEntry_grows (h : t.Keeps items) {e : Option (K × V)}
    (hrun : t.removeEntry cmp key = .ok (e, t')) : t.Grows [] t' := by
  obtain ⟨l, -, htake⟩ := bind_eq_ok.mp hrun
  exact takeNode_grows h htake

theorem remove_grows (h : t.Keeps items) {old : Option V}
    (hrun : t.remove cmp key = .ok (old, t')) : t.Grows [] t' := by
  obtain ⟨done, hremove, hrun⟩ := bind_eq_ok.mp hrun
  cases hrun
  exact removeEntry_grows h hremove

theorem pop_grows (h : t.Keeps items) {s : Side} {e : Option (K × V)}
    (hrun : t.pop s = .ok (e, t')) : t.Grows [] t' := by
  obtain ⟨l, -, htake⟩ := bind_eq_ok.mp hrun
  exact takeNode_grows h htake

/-! ### Other values -/

theorem setValue_grows (h : t.Keeps items) {v : V} (hrun : t.setValue i v = .ok t') :
    t.Grows [] t' := by
  cases hn : t.slots.get? (some i) with
  | none => simp [setValue, reviseNode, Slots.revise, Slots.contains, hn] at hrun
  | some n =>
    obtain ⟨before, after, rfl⟩ := h.item_of_get? hn
    obtain ⟨t₁, hset, -, hk⟩ := h.setValue v
    obtain rfl := Except.ok.inj (hrun.symm.trans hset)
    refine ⟨⟨_, hk⟩, ?_⟩
    have hc : t.slots.contains (some i) = true := Slots.contains_iff.mpr ⟨n, hn⟩
    obtain rfl := Except.ok.inj (hrun.symm.trans (reviseNode_ok hc _))
    exact Slots.size_update ..

theorem Grows.touched (h : t.Grows ns t') : t.Grows ns t'.touched := by
  obtain ⟨⟨items', hk⟩, hroom⟩ := h
  exact ⟨⟨items', hk.touched⟩, hroom⟩

theorem modify_grows (h : t.Keeps items) {f : V → V} {old : Option V}
    (hrun : t.modify cmp key f = .ok (old, t')) : t.Grows [] t' := by
  obtain ⟨l, -, hrun⟩ := bind_eq_ok.mp hrun
  cases l with
  | none =>
    cases hrun
    exact .refl h
  | some i =>
    obtain ⟨n, -, hrun⟩ := bind_eq_ok.mp hrun
    obtain ⟨t₁, hset, hrun⟩ := bind_eq_ok.mp hrun
    cases hrun
    exact (setValue_grows h hset).touched

theorem retainFrom_grows {σ : Type} {visit : σ → K → V → σ × V × Bool} {steps : Nat}
    {state last : σ} (h : t.Keeps items)
    (hrun : retainFrom visit steps t state l = .ok (last, t')) : t.Grows [] t' := by
  induction steps generalizing t items state l with
  | zero =>
    cases l with
    | none =>
      cases hrun
      exact .refl h
    | some i => cases hrun
  | succ steps ih =>
    cases l with
    | none =>
      cases hrun
      exact .refl h
    | some i =>
      obtain ⟨n, -, hrun⟩ := bind_eq_ok.mp hrun
      obtain ⟨t₁, hset, hrun⟩ := bind_eq_ok.mp hrun
      have hgrows := setValue_grows h hset
      obtain ⟨items₁, hk₁⟩ := hgrows.keeps
      refine hgrows.trans ?_
      split at hrun
      · obtain ⟨beyond, -, hrun⟩ := bind_eq_ok.mp hrun
        exact ih hk₁ hrun
      · obtain ⟨erased, herase, hrun⟩ := bind_eq_ok.mp hrun
        cases erased with
        | none =>
          cases hrun
          exact .refl hk₁
        | some r =>
          have hgrows' := eraseNode_grows hk₁ herase
          obtain ⟨items₂, hk₂⟩ := hgrows'.keeps
          exact hgrows'.trans (ih hk₂ hrun)

theorem retain_grows {σ : Type} {visit : σ → K → V → σ × V × Bool} {start last : σ}
    (h : t.Keeps items) (hrun : t.retain visit start = .ok (last, t')) : t.Grows [] t' := by
  obtain ⟨l, -, hrun⟩ := bind_eq_ok.mp hrun
  exact retainFrom_grows h hrun

/-! ### Insertions -/

/-- An insertion opens a slot if the entries would not do with those there
are. -/
theorem insert_grows (h : t.Keeps items) {value : V} {old : Option V}
    (hrun : t.insert cmp key value = .ok (old, t')) : t.Grows [t'.size] t' ∧ t.size ≤ t'.size := by
  obtain ⟨l, hfind, -⟩ := find_found cmp h key
  obtain ⟨done, hinsert, hrun⟩ := bind_eq_ok.mp hrun
  cases hrun
  cases l with
  | some i =>
    obtain ⟨n, -, hrun⟩ := insertNode_present h hfind value
    obtain ⟨-, hstored⟩ := (insertNode_ends cmp h key value).of_ok hinsert
    obtain rfl := Except.ok.inj (hrun.symm.trans hinsert)
    obtain ⟨items', hev⟩ := hstored.evolves rfl
    have hgrows : t.Grows [] _ := ⟨⟨items', hev.keeps⟩, Slots.size_update ..⟩
    exact ⟨hgrows.noted, Nat.le_refl _⟩
  | none =>
    have hroom : t.size < absentNumber := by
      by_contra hfull
      cases hinsert.symm.trans (insertNode_exhausted h hfind hfull value)
    obtain ⟨before, after, i, t₁, rfl, hrun, -, hfree, hk⟩ :=
      insertNode_absent h hfind hroom value
    obtain rfl := Except.ok.inj (hrun.symm.trans hinsert)
    change t.Grows [t₁.size] t₁ ∧ t.size ≤ t₁.size
    -- One entry more, in a vacant slot if there is one.
    have hroom := h.room
    have hroom' := hk.room
    have hsize : t₁.size = t.size + 1 := by
      rw [hk.size, h.size]
      simp
      omega
    rw [hfree, List.length_tail, hsize] at hroom'
    refine ⟨⟨⟨_, hk⟩, ?_⟩, by omega⟩
    rw [List.foldl_cons, List.foldl_nil, hsize]
    omega

theorem insertAll_grows (h : t.Keeps items) {es : List (K × V)}
    (hrun : t.insertAll cmp es = .ok t') : t.Grows [t'.size] t' ∧ t.size ≤ t'.size := by
  induction es generalizing t items with
  | nil =>
    cases hrun
    exact ⟨(Grows.refl h).noted, Nat.le_refl _⟩
  | cons e es ih =>
    obtain ⟨done, hinsert, hrun⟩ := bind_eq_ok.mp hrun
    obtain ⟨hgrows, hle⟩ := insert_grows h hinsert
    obtain ⟨items₁, hk₁⟩ := hgrows.keeps
    obtain ⟨hgrows', hle'⟩ := ih hk₁ hrun
    refine ⟨⟨hgrows'.keeps, ?_⟩, Nat.le_trans hle hle'⟩
    -- The entries only become more, so the last number is the largest.
    have hroom := hgrows.room
    have hroom' := hgrows'.room
    simp only [List.foldl_cons, List.foldl_nil] at hroom hroom' ⊢
    omega

end Tree

open SlotTree.Tree

/-! ## What commands do to the number of slots -/

namespace Window

variable {cmp : K → K → Ordering} {w : Window K} {t t' : Tree K V} {items : List (Nat × K × V)}

theorem pop_grows (h : t.Keeps items) {s : Side} {e : Option (K × V)}
    (hrun : w.pop cmp t s = .ok (e, t')) : t.Grows [] t' := by
  obtain ⟨l, -, htake⟩ := bind_eq_ok.mp hrun
  exact takeNode_grows h htake

theorem clearFrom_grows {steps : Nat} {l : Link} (h : t.Keeps items)
    (hrun : clearFrom cmp w steps t l = .ok t') : t.Grows [] t' := by
  induction steps generalizing t items l with
  | zero => cases hrun
  | succ steps ih =>
    unfold clearFrom at hrun
    split at hrun
    · cases hrun
      exact .refl h
    · split at hrun
      · cases hrun
        exact .refl h
      · obtain ⟨erased, herase, hrun⟩ := bind_eq_ok.mp hrun
        cases erased with
        | none =>
          cases hrun
          exact .refl h
        | some r =>
          have hgrows := eraseNode_grows h herase
          obtain ⟨items₁, hk₁⟩ := hgrows.keeps
          exact hgrows.trans (ih hk₁ hrun)

theorem clear_grows (h : t.Keeps items) (hrun : w.clear cmp t = .ok t') : t.Grows [] t' := by
  obtain ⟨l, -, hrun⟩ := bind_eq_ok.mp hrun
  exact clearFrom_grows h hrun

end Window

namespace Edit

variable {cmp : K → K → Ordering} {t t' : Tree K V} {items : List (Nat × K × V)} {n : Nat}

theorem runInserts_grows {es : List (K × V)} (h : t.Keeps items)
    (hrun : runInserts cmp t es = .ok (n, t')) :
    t.Grows (sizesAfter (fun t e => t.insert cmp e.1 e.2) t es) t' := by
  induction es generalizing t items n with
  | nil =>
    cases hrun
    exact .refl h
  | cons e es ih =>
    obtain ⟨done, hinsert, hrun⟩ := bind_eq_ok.mp hrun
    obtain ⟨rest, hrest, hrun⟩ := bind_eq_ok.mp hrun
    cases hrun
    obtain ⟨hgrows, -⟩ := insert_grows h hinsert
    obtain ⟨items₁, hk₁⟩ := hgrows.keeps
    simp only [sizesAfter, hinsert]
    exact hgrows.trans (ih hk₁ hrest)

theorem runRemovals_grows {keys : List K} (h : t.Keeps items)
    (hrun : runRemovals cmp t keys = .ok (n, t')) :
    t.Grows (sizesAfter (Tree.remove cmp) t keys) t' := by
  induction keys generalizing t items n with
  | nil =>
    cases hrun
    exact .refl h
  | cons key keys ih =>
    obtain ⟨done, hremove, hrun⟩ := bind_eq_ok.mp hrun
    obtain ⟨rest, hrest, hrun⟩ := bind_eq_ok.mp hrun
    cases hrun
    have hgrows := (remove_grows h hremove).noted
    obtain ⟨items₁, hk₁⟩ := hgrows.keeps
    simp only [sizesAfter, hremove]
    exact hgrows.trans (ih hk₁ hrest)

end Edit

namespace WindowWrite

variable [Written K] {cmp : K → K → Ordering}

mutual

theorem run_grows {t : Tree K V} {items : List (Nat × K × V)} (h : t.Keeps items) (w : Window K) :
    ∀ (op : WindowWrite K V) {r t'}, run cmp t w op = .ok (r, t') →
      t.Grows (sizes cmp t w op) t'
  | read op, r, t', hrun => by
    refine .level ?_ hrun
    obtain ⟨answer, -, hrun⟩ := bind_eq_ok.mp hrun
    cases hrun
    exact .refl h
  | asReadOnly ops, r, t', hrun => by
    refine .level ?_ hrun
    obtain ⟨answers, -, hrun⟩ := bind_eq_ok.mp hrun
    cases hrun
    exact .refl h
  | insert key value, r, t', hrun => by
    refine .once ?_ hrun
    cases hkey : w.admits cmp key with
    | true =>
      rw [(run_admitted hkey).1 value] at hrun
      obtain ⟨done, hinsert, hrun⟩ := bind_eq_ok.mp hrun
      cases hrun
      exact (insert_grows h hinsert).1
    | false =>
      cases hrun.symm.trans ((run_barred hkey).1 value)
      exact (Grows.refl h).noted
  | remove key, r, t', hrun => by
    refine .level ?_ hrun
    cases hkey : w.admits cmp key with
    | true =>
      rw [(run_admitted hkey).2.1] at hrun
      obtain ⟨done, hremove, hrun⟩ := bind_eq_ok.mp hrun
      cases hrun
      exact remove_grows h hremove
    | false =>
      cases hrun.symm.trans (run_barred hkey).2.1
      exact .refl h
  | modify key value, r, t', hrun => by
    refine .level ?_ hrun
    cases hkey : w.admits cmp key with
    | true =>
      rw [(run_admitted hkey).2.2 value] at hrun
      obtain ⟨done, hmodify, hrun⟩ := bind_eq_ok.mp hrun
      cases hrun
      exact modify_grows h hmodify
    | false =>
      cases hrun.symm.trans ((run_barred hkey).2.2 value)
      exact .refl h
  | pop s, r, t', hrun => by
    refine .level ?_ hrun
    obtain ⟨done, hpop, hrun⟩ := bind_eq_ok.mp hrun
    cases hrun
    exact Window.pop_grows h hpop
  | clear, r, t', hrun => by
    refine .level ?_ hrun
    obtain ⟨done, hclear, hrun⟩ := bind_eq_ok.mp hrun
    cases hrun
    exact Window.clear_grows h hclear
  | narrow bounds ops, r, t', hrun => by
    rw [sizes]
    rw [run] at hrun
    split at hrun
    · next hnarrow =>
      cases hrun
      simpa only [hnarrow] using .refl h
    · next inner hnarrow =>
      obtain ⟨done, hall, hrun⟩ := bind_eq_ok.mp hrun
      cases hrun
      simpa only [hnarrow] using runAll_grows h inner ops hall

theorem runAll_grows {t : Tree K V} {items : List (Nat × K × V)} (h : t.Keeps items)
    (w : Window K) : ∀ (ops : List (WindowWrite K V)) {rs t'}, runAll cmp t w ops = .ok (rs, t') →
      t.Grows (sizesAll cmp t w ops) t'
  | [], rs, t', hrun => by
    cases hrun
    simpa only [sizesAll] using .refl h
  | op :: ops, rs, t', hrun => by
    obtain ⟨done, hop, hrun⟩ := bind_eq_ok.mp hrun
    obtain ⟨rest, hrest, hrun⟩ := bind_eq_ok.mp hrun
    cases hrun
    have hgrows := run_grows h w op hop
    obtain ⟨items₁, hk₁⟩ := hgrows.keeps
    simp only [sizesAll, hop]
    exact hgrows.trans (runAll_grows hk₁ w ops hrest)

end

end WindowWrite

/-- An edit opens the slots that the numbers of entries ask for, unless it
empties the tree. -/
theorem Edit.run_grows [Written K] [Written V] [DecidableEq K] {cmp : K → K → Ordering}
    {t t' : Tree K V} {items : List (Nat × K × V)} (h : t.Keeps items) {e : Edit K V}
    (he : e ≠ .clear) {r : Reply K V} (hrun : e.run cmp t = .ok (r, t')) :
    t.Grows (e.sizes cmp t) t' := by
  cases e with
  | clear => exact absurd rfl he
  | insert key value =>
    refine .once ?_ hrun
    obtain ⟨done, hinsert, hrun⟩ := bind_eq_ok.mp hrun
    cases hrun
    exact (insert_grows h hinsert).1
  | insertAll entries =>
    refine .once ?_ hrun
    obtain ⟨done, hinsert, hrun⟩ := bind_eq_ok.mp hrun
    cases hrun
    exact (insertAll_grows h hinsert).1
  | insertCounting entries =>
    obtain ⟨done, hinsert, hrun⟩ := bind_eq_ok.mp hrun
    cases hrun
    exact runInserts_grows h hinsert
  | removeCounting keys =>
    obtain ⟨done, hremove, hrun⟩ := bind_eq_ok.mp hrun
    cases hrun
    exact runRemovals_grows h hremove
  | modify key value =>
    refine .level ?_ hrun
    obtain ⟨done, hmodify, hrun⟩ := bind_eq_ok.mp hrun
    cases hrun
    exact modify_grows h hmodify
  | remove key =>
    refine .level ?_ hrun
    obtain ⟨done, hremove, hrun⟩ := bind_eq_ok.mp hrun
    cases hrun
    exact remove_grows h hremove
  | removeEntry key =>
    refine .level ?_ hrun
    obtain ⟨done, hremove, hrun⟩ := bind_eq_ok.mp hrun
    cases hrun
    exact removeEntry_grows h hremove
  | pop s =>
    refine .level ?_ hrun
    obtain ⟨done, hpop, hrun⟩ := bind_eq_ok.mp hrun
    cases hrun
    exact pop_grows h hpop
  | retain visit =>
    refine .level ?_ hrun
    obtain ⟨done, hretain, hrun⟩ := bind_eq_ok.mp hrun
    cases hrun
    exact retain_grows h hretain
  | reserve n width =>
    refine .level ?_ hrun
    obtain ⟨done, hreserve, hrun⟩ := bind_eq_ok.mp hrun
    cases hrun
    obtain rfl := (reserve_ends t n width).of_ok hreserve
    exact .refl h
  | window bounds ops =>
    rw [sizes]
    rw [run] at hrun
    split at hrun
    · next hbounds =>
      cases hrun
      simpa only [hbounds] using .refl h
    · next w hbounds =>
      obtain ⟨done, hall, hrun⟩ := bind_eq_ok.mp hrun
      cases hrun
      simpa only [hbounds] using WindowWrite.runAll_grows h w ops hall

namespace Cursor

variable {t t' : Tree K V} {items : List (Nat × K × V)} {c c' : Cursor}

theorem setValue_grows (h : t.Keeps items) {v old : V}
    (hrun : c.setValue t v = .ok (old, c', t')) : t.Grows [] t' := by
  obtain ⟨items', hk, -⟩ := setValue_keepsSome h hrun
  obtain ⟨i, -, hrun⟩ := bind_eq_ok.mp hrun
  split at hrun
  · cases hrun
  · cases hrun
    exact ⟨⟨items', hk⟩, Slots.size_update ..⟩

theorem remove_grows (h : t.Keeps items) {e : K × V}
    (hrun : c.remove t = .ok (.ok (e, c', t'))) : t.Grows [] t' := by
  unfold remove at hrun
  split at hrun
  · cases hrun
  · obtain ⟨previous, -, hrun⟩ := bind_eq_ok.mp hrun
    obtain ⟨erased, herase, hrun⟩ := bind_eq_ok.mp hrun
    cases erased with
    | none => cases hrun
    | some r =>
      cases hrun
      exact eraseNode_grows h herase

end Cursor

namespace CursorOp

variable {t t' : Tree K V} {items : List (Nat × K × V)} {c c' : Cursor}

theorem runSweep_grows {s : Side} {meant : Nat → K → Bool} {steps : Nat} {seen : List K}
    {o : Except Refusal (List K)} (h : t.Keeps items)
    (hrun : runSweep s meant steps t c seen = .ok (o, c', t')) :
    t.Grows (sweepSizes s meant steps t c seen.length) t' := by
  induction steps generalizing t items c seen with
  | zero => cases hrun
  | succ steps ih =>
    unfold runSweep at hrun
    unfold sweepSizes
    split at hrun
    · next hend =>
      cases hrun
      rw [if_pos hend]
      exact .refl h
    · next hend =>
      obtain ⟨taken, htaken, hrun⟩ := bind_eq_ok.mp hrun
      rw [if_neg hend]
      split at hrun
      · cases hrun
        simpa only [htaken] using .refl h
      · simp only [htaken]
        split at hrun
        · next hmeant =>
          obtain ⟨removed, hremove, hrun⟩ := bind_eq_ok.mp hrun
          rw [if_pos hmeant]
          split at hrun
          · cases hrun
            simpa only [hremove] using .refl h
          · simp only [hremove]
            have hgrows := (Cursor.remove_grows h hremove).noted
            obtain ⟨items₁, hk₁⟩ := hgrows.keeps
            exact hgrows.trans (ih hk₁ hrun)
        · next hmeant =>
          rw [if_neg hmeant]
          exact ih h hrun

theorem run_grows (h : t.Keeps items) {op : CursorOp K V} {r : Reply K V}
    (hrun : op.run t c = .ok (r, c', t')) : t.Grows (op.sizes t c) t' := by
  have hafter : (fun done : Reply K V × Cursor × Tree K V => (done.1, done.2.2)) <$> op.run t c =
      .ok (r, t') := by
    rw [hrun]
    rfl
  cases op with
  | hasEntry | key | value | text =>
    cases hrun
    exact Grows.level (.refl h) hafter
  | step s =>
    refine .level ?_ hafter
    obtain ⟨taken, -, hrun⟩ := bind_eq_ok.mp hrun
    cases taken <;> cases hrun <;> exact .refl h
  | reset =>
    refine .level ?_ hafter
    obtain ⟨front, -, hrun⟩ := bind_eq_ok.mp hrun
    cases hrun
    exact .refl h
  | setValue v =>
    refine .level ?_ hafter
    rw [run] at hrun
    split at hrun
    · cases hrun
      exact .refl h
    · next hset =>
      cases hrun
      exact Cursor.setValue_grows h hset
  | remove =>
    refine .level ?_ hafter
    obtain ⟨removed, hremove, hrun⟩ := bind_eq_ok.mp hrun
    split at hrun
    · cases hrun
      exact .refl h
    · cases hrun
      exact Cursor.remove_grows h hremove
  | sweep s meant =>
    obtain ⟨swept, hsweep, hrun⟩ := bind_eq_ok.mp hrun
    cases hrun
    exact runSweep_grows h hsweep

end CursorOp

end SlotTree
