import SlotTree.Proofs.Intact
import SlotTree.Proofs.Measures
import SlotTree.Proofs.Roaming

/-
  Outlines — what the text of a tree tells of it.

  An outline has a line for every node, set in by its depth, and a node comes
  before its left and its right subtree. It does not say on which side an only
  child is. Two things make up for that. The text is cut into its lines and each
  line into depth, key and colour in one way only, if the texts of the keys are
  legible (`rows_inj`). And in a sorted tree the rows of the left subtree are those
  whose keys come before the root, so the rows leave no choice of the shape
  (`Shape.resembles_of_rows`).

  Every cut is made before the first item that fails a test: the line break, the
  first character that is no blank, the first key that does not come before the
  root (`cut_unique`).
-/
namespace SlotTree

variable {K V V' : Type}

/-- A list is cut in one way only into items that pass a test and a rest that does
not begin with such an item. -/
theorem cut_unique {α : Type} {p : α → Bool} {xs ys as bs : List α} (hxs : ∀ x ∈ xs, p x)
    (hys : ∀ y ∈ ys, p y) (has : ∀ a, as.head? = some a → p a = false)
    (hbs : ∀ b, bs.head? = some b → p b = false) (h : xs ++ as = ys ++ bs) :
    xs = ys ∧ as = bs := by
  have stops : ∀ zs : List α, (∀ z, zs.head? = some z → p z = false) → zs.takeWhile p = [] := by
    intro zs hzs
    cases zs with
    | nil => rfl
    | cons z zs => simp [hzs z rfl]
  have hcut := congrArg (List.takeWhile p) h
  rw [List.takeWhile_append_of_pos hxs, List.takeWhile_append_of_pos hys, stops as has,
    stops bs hbs, List.append_nil, List.append_nil] at hcut
  subst hcut
  exact ⟨rfl, List.append_cancel_left h⟩

/-! ## The rows of an outline -/

/-- What a line of an outline says of a node. -/
@[ext] structure Row (K : Type) where
  depth : Nat
  key : K
  color : Color

/-- The keys can be told from their texts, no text is broken into lines and none
begins with a blank. -/
structure Legible [Written K] (keys : List K) : Prop where
  inj : ∀ a ∈ keys, ∀ b ∈ keys, Written.text a = Written.text b → a = b
  unbroken : ∀ k ∈ keys, '\n' ∉ (Written.text k).toList
  flush : ∀ k ∈ keys, (Written.text k).toList.head? ≠ some ' '

theorem Tree.toList_colorLetter (c : Color) :
    (colorLetter c).toList = [if c = .red then 'R' else 'B'] := by
  cases c <;> rfl

theorem Tree.colorLetter_inj {c c' : Color}
    (h : (colorLetter c).toList = (colorLetter c').toList) : c = c' := by
  revert h
  cases c <;> cases c' <;> simp [toList_colorLetter]

namespace Row

variable [Written K]

/-- A row without its line break. -/
def front (x : Row K) : List Char :=
  List.replicate (2 * x.depth) ' ' ++
    ((Written.text x.key).toList ++ ' ' :: (Tree.colorLetter x.color).toList)

/-- A row as it is written. -/
def line (x : Row K) : List Char := x.front ++ ['\n']

theorem toList_outlineLine (depth : Nat) (n : Node K V) :
    (Tree.outlineLine depth n).toList = line ⟨depth, n.key, n.color⟩ := by
  have hindent : (String.join (List.replicate depth "  ")).toList =
      List.replicate (2 * depth) ' ' := by
    induction depth with
    | zero => rfl
    | succ depth ih =>
      rw [String.toList_join] at ih ⊢
      simp [List.replicate_succ, ih, Nat.mul_succ]
  simp [Tree.outlineLine, line, front, hindent]

variable {keys : List K} {x y : Row K}

theorem front_unbroken (hk : Legible keys) (hx : x.key ∈ keys) :
    ∀ c ∈ x.front, (c != '\n') = true := by
  intro c hc
  simp only [front, Tree.toList_colorLetter, List.mem_append, List.mem_replicate, List.mem_cons,
    List.not_mem_nil, or_false] at hc
  rcases hc with ⟨-, rfl⟩ | hc | rfl | rfl
  · decide
  · exact bne_iff_ne.mpr (fun h => hk.unbroken x.key hx (h ▸ hc))
  · decide
  · split <;> decide

theorem front_inj (hk : Legible keys) (hx : x.key ∈ keys) (hy : y.key ∈ keys)
    (h : x.front = y.front) : x = y := by
  have blank : ∀ n, ∀ c ∈ List.replicate n ' ', (c == ' ') = true := by simp
  have flush : ∀ k ∈ keys, ∀ c, (Written.text k).toList.head? = some c → (c == ' ') = false := by
    intro k hmem c hc
    exact beq_eq_false_iff_ne.mpr (fun h => hk.flush k hmem (h ▸ hc))
  -- The last two characters go first: a blank after an empty text is none of the indent.
  rw [front, front, ← List.append_assoc, ← List.append_assoc] at h
  obtain ⟨hset, htail⟩ := List.append_inj' h (by simp [Tree.toList_colorLetter])
  obtain ⟨hindent, htext⟩ := cut_unique (blank _) (blank _) (flush _ hx) (flush _ hy) hset
  have hdepth : x.depth = y.depth := by
    have hlen := congrArg List.length hindent
    simp only [List.length_replicate] at hlen
    omega
  have hkey := hk.inj _ hx _ hy (String.toList_inj.mp htext)
  have hcolor := Tree.colorLetter_inj (List.cons.inj htail).2
  exact Row.ext hdepth hkey hcolor

theorem rows_inj (hk : Legible keys) {xs ys : List (Row K)} (hxs : ∀ x ∈ xs, x.key ∈ keys)
    (hys : ∀ y ∈ ys, y.key ∈ keys) (h : xs.flatMap line = ys.flatMap line) : xs = ys := by
  induction xs generalizing ys with
  | nil =>
    cases ys with
    | nil => rfl
    | cons y ys => simp [line] at h
  | cons x xs ih =>
    cases ys with
    | nil => simp [line] at h
    | cons y ys =>
      simp only [List.forall_mem_cons] at hxs hys
      simp only [List.flatMap_cons, line, List.append_assoc, List.cons_append,
        List.nil_append] at h
      obtain ⟨hfront, hrest⟩ := cut_unique (front_unbroken hk hxs.1) (front_unbroken hk hys.1)
        (by simp) (by simp) h
      rw [front_inj hk hxs.1 hys.1 hfront, ih hxs.2 hys.2 (List.cons.inj hrest).2]

end Row

/-! ## Shapes of the same look -/

namespace Shape

/-- The key of the root, if there is one. -/
def key : Shape K V → Option K
  | nil => none
  | node _ _ _ e _ => some e.1

/-- Every way leads to the same key and the same colour in both, or to none in
both. -/
def Resembles (sh : Shape K V) (sh' : Shape K V') : Prop :=
  ∀ way, (sh.down way).key = (sh'.down way).key ∧ (sh.down way).color = (sh'.down way).color

/-- The rows of a shape that begins at some depth. -/
def rows (depth : Nat) : Shape K V → List (Row K)
  | nil => []
  | node c l _ e r => ⟨depth, e.1, c⟩ :: (l.rows (depth + 1) ++ r.rows (depth + 1))

theorem toList_outline [Written K] (sh : Shape K V) (depth : Nat) :
    (sh.outline depth).toList = (sh.rows depth).flatMap Row.line := by
  induction sh generalizing depth with
  | nil => rfl
  | node c l i e r ihl ihr =>
    simp [outline, rows, ihl, ihr, Row.toList_outlineLine, Node.of]

theorem key_mem_of_rows {sh : Shape K V} {depth : Nat} {x : Row K} (h : x ∈ sh.rows depth) :
    x.key ∈ sh.entries.map (·.1) := by
  induction sh generalizing depth with
  | nil => cases h
  | node c l i e r ihl ihr =>
    simp only [rows, List.mem_cons, List.mem_append] at h
    simp only [entries, items, List.map_append, List.map_cons, List.mem_append, List.mem_cons]
    rcases h with rfl | h | h
    · exact .inr (.inl rfl)
    · exact .inl (ihl h)
    · exact .inr (.inr (ihr h))

theorem Resembles.node {l r : Shape K V} {l' r' : Shape K V'} (hl : l.Resembles l')
    (hr : r.Resembles r') {c : Color} {i i' : Nat} {e : K × V} {e' : K × V'} (he : e.1 = e'.1) :
    (node c l i e r).Resembles (.node c l' i' e' r') := by
  rintro (_ | ⟨_ | _, way⟩)
  · exact ⟨congrArg some he, rfl⟩
  · exact hl way
  · exact hr way

theorem Resembles.rows_eq {sh : Shape K V} {sh' : Shape K V'} (h : sh.Resembles sh')
    (depth : Nat) : sh.rows depth = sh'.rows depth := by
  induction sh generalizing sh' depth with
  | nil =>
    cases sh' with
    | nil => rfl
    | node => cases (h []).1
  | node c l i e r ihl ihr =>
    cases sh' with
    | nil => cases (h []).1
    | node c' l' i' e' r' =>
      obtain ⟨hkey, rfl⟩ : some e.1 = some e'.1 ∧ c = c' := h []
      have hl : l.Resembles l' := fun way => h (.left :: way)
      have hr : r.Resembles r' := fun way => h (.right :: way)
      rw [rows, rows, Option.some.inj hkey, ihl hl, ihr hr]

section Sorted

variable {cmp : K → K → Ordering} {sh l r : Shape K V} {c : Color} {i : Nat} {e : K × V}

/-- In a sorted shape the rows of the left subtree are those whose keys come before
the root. -/
theorem rows_of_ascending [Std.OrientedCmp cmp] (h : Ascending cmp (node c l i e r).entries)
    (depth : Nat) : Ascending cmp l.entries ∧ Ascending cmp r.entries ∧
      (∀ x ∈ l.rows depth, (cmp x.key e.1).isLT) ∧
      ∀ x ∈ r.rows depth, (cmp x.key e.1).isLT = false := by
  simp only [Ascending, entries, items, List.map_append, List.map_cons, List.pairwise_append,
    List.pairwise_cons, List.mem_cons, forall_eq_or_imp] at h
  obtain ⟨hl, ⟨hafter, hr⟩, hcross⟩ := h
  refine ⟨hl, hr, fun x hx => ?_, fun x hx => ?_⟩
  · obtain ⟨b, hb, hkey⟩ := List.mem_map.mp (key_mem_of_rows hx)
    rw [← hkey, (hcross b hb).1]
    rfl
  · obtain ⟨b, hb, hkey⟩ := List.mem_map.mp (key_mem_of_rows hx)
    rw [← hkey, Std.OrientedCmp.gt_of_lt (hafter b hb)]
    rfl

/-- Of sorted shapes the rows tell all but the values. -/
theorem resembles_of_rows [Std.OrientedCmp cmp] {sh' : Shape K V'} {depth : Nat}
    (h : Ascending cmp sh.entries) (h' : Ascending cmp sh'.entries)
    (hrows : sh.rows depth = sh'.rows depth) : sh.Resembles sh' := by
  induction sh generalizing sh' depth with
  | nil =>
    cases sh' with
    | nil => exact fun way => by simp [key]
    | node => cases hrows
  | node c l i e r ihl ihr =>
    cases sh' with
    | nil => cases hrows
    | node c' l' i' e' r' =>
      obtain ⟨hroot, hbelow⟩ := List.cons.inj hrows
      obtain ⟨-, hkey, rfl⟩ := Row.mk.inj hroot
      obtain ⟨hl, hr, hbefore, hafter⟩ := rows_of_ascending h (depth + 1)
      obtain ⟨hl', hr', hbefore', hafter'⟩ := rows_of_ascending h' (depth + 1)
      rw [← hkey] at hbefore' hafter'
      obtain ⟨hleft, hright⟩ := cut_unique hbefore hbefore'
        (fun x hx => hafter x (List.mem_of_mem_head? hx))
        (fun x hx => hafter' x (List.mem_of_mem_head? hx)) hbelow
      exact (ihl hl hl' hleft).node (ihr hr hr' hright) hkey

/-- Without an order an only child may be on either side. -/
example (d : Color) (j depth : Nat) (e' : K × V) :
    (node c (node d nil j e' nil) i e nil).rows depth =
      (node c nil i e (node d nil j e' nil)).rows depth := rfl

end Sorted

end Shape

/-! ## Trees of the same look -/

namespace Tree

/-- The trees have nodes in the same places, with the same keys and colours. -/
structure Resembles (t : Tree K V) (t' : Tree K V') : Prop where
  place : ∀ way, (t.follow t.root way).isSome = (t'.follow t'.root way).isSome
  key : ∀ way, t.keyOf (t.follow t.root way) = t'.keyOf (t'.follow t'.root way)
  color : ∀ way, t.colorOf (t.follow t.root way) = t'.colorOf (t'.follow t'.root way)

variable {t : Tree K V} {t' : Tree K V'} {sh : Shape K V} {sh' : Shape K V'}

theorem keyOf_lays {p : Link} (h : t.slots.Lays p sh) : t.keyOf sh.link = sh.key := by
  cases sh with
  | nil => rfl
  | node c l i e r => simp [keyOf, h.1, Node.of, Shape.key]

theorem Sound.at_way (h : t.Sound sh) (way : List Side) :
    (t.follow t.root way).isSome = (sh.down way).key.isSome ∧
      t.keyOf (t.follow t.root way) = (sh.down way).key ∧
      t.colorOf (t.follow t.root way) = (sh.down way).color := by
  obtain ⟨hlink, q, hlays⟩ := follow_lays h.holds.lays way
  rw [h.holds.root, hlink]
  refine ⟨?_, keyOf_lays hlays, colorOf_lays hlays⟩
  cases sh.down way <;> rfl

theorem Sound.resembles_iff (h : t.Sound sh) (h' : t'.Sound sh') :
    t.Resembles t' ↔ sh.Resembles sh' := by
  constructor
  · intro ha way
    obtain ⟨-, hkey, hcolor⟩ := h.at_way way
    obtain ⟨-, hkey', hcolor'⟩ := h'.at_way way
    rw [← hkey, ← hkey', ← hcolor, ← hcolor']
    exact ⟨ha.key way, ha.color way⟩
  · intro ha
    refine ⟨fun way => ?_, fun way => ?_, fun way => ?_⟩
    · rw [(h.at_way way).1, (h'.at_way way).1, (ha way).1]
    · rw [(h.at_way way).2.1, (h'.at_way way).2.1, (ha way).1]
    · rw [(h.at_way way).2.2, (h'.at_way way).2.2, (ha way).2]

end Tree

variable [Written K] [Written V] [DecidableEq K] [DecidableEq V] [Written V'] [DecidableEq V']

/-- Any two maps that runs under one lawful comparison lead to have outlines. If the
texts of the stored keys are legible, the outlines are equal exactly if the trees
have nodes in the same places, with the same keys and colours: the outline loses
nothing but slots and values, though it does not say on which side an only child
is. -/
theorem roamed_outlines_tell {C : (K → K → Ordering) → Prop} {cmp : K → K → Ordering}
    {s : Session K V} {s' : Session K V'} {number number' : Nat} {t : Tree K V} {t' : Tree K V'}
    (h : Roams C s) (h' : Roams C s') (hgov : Governs C cmp) (ht : s.tree number = .ok t)
    (ht' : s'.tree number' = .ok t') :
    ∃ es es' text text', t.entries = .ok es ∧ t'.entries = .ok es' ∧
      t.outline = .ok text ∧ t'.outline = .ok text' ∧
      (Legible (es.map (·.1) ++ es'.map (·.1)) → (text = text' ↔ t.Resembles t')) := by
  obtain ⟨items, ⟨-, sh, hsound, rfl⟩, hasc⟩ := h.keeps number t ht
  obtain ⟨items', ⟨-, sh', hsound', rfl⟩, hasc'⟩ := h'.keeps number' t' ht'
  have := hgov.lawful
  refine ⟨_, _, _, _, hsound.holds.entries, hsound'.holds.entries, Tree.outline_ok hsound,
    Tree.outline_ok hsound', fun hk => ?_⟩
  rw [hsound.resembles_iff hsound', ← String.toList_inj, Shape.toList_outline, Shape.toList_outline]
  constructor
  · intro heq
    have hrows : sh.rows 0 = sh'.rows 0 :=
      Row.rows_inj hk (fun x hx => List.mem_append_left _ (Shape.key_mem_of_rows hx))
        (fun x hx => List.mem_append_right _ (Shape.key_mem_of_rows hx)) heq
    exact Shape.resembles_of_rows (hasc cmp hgov) (hasc' cmp hgov) hrows
  · intro ha
    rw [ha.rows_eq]

/-- The same keys in another order, in other slots and with other values. -/
theorem reordered_outlines_tell :
    ∃ (s s' : Session Int Int) (t t' : Tree Int Int), Roams (· = compare) s ∧
      Roams (· = compare) s' ∧ s.tree 0 = .ok t ∧ s'.tree 0 = .ok t' ∧
      t.root = some 0 ∧ t'.root = some 2 ∧ t.outline = .ok "2 B\n  1 B\n  3 B\n    4 R\n" ∧
      t'.outline = .ok "2 B\n  1 B\n  3 B\n    4 R\n" ∧ t.Resembles t' := by
  have h := @Roams.command Int Int _ _ _ _ (· = compare) _ compare 0
    (.edit (.insertAll [(2, 20), (1, 10), (3, 30), (4, 40)])) _ .blank rfl trivial rfl
  have h' := @Roams.command Int Int _ _ _ _ (· = compare) _ compare 0
    (.edit (.insertAll [(1, 0), (3, 0), (2, 0), (4, 0)])) _ .blank rfl trivial rfl
  obtain ⟨es, es', text, text', hes, hes', htext, htext', htell⟩ :=
    @roamed_outlines_tell Int Int Int _ _ _ _ _ _ (· = compare) compare _ _ 0 0 _ _ h h'
      ⟨inferInstance, fun _ h => h⟩ rfl rfl
  obtain rfl : es = [(1, 10), (2, 20), (3, 30), (4, 40)] := Except.ok.inj (hes.symm.trans rfl)
  obtain rfl : es' = [(1, 0), (2, 0), (3, 0), (4, 0)] := Except.ok.inj (hes'.symm.trans rfl)
  obtain rfl : text = "2 B\n  1 B\n  3 B\n    4 R\n" := Except.ok.inj (htext.symm.trans rfl)
  obtain rfl : text' = "2 B\n  1 B\n  3 B\n    4 R\n" := Except.ok.inj (htext'.symm.trans rfl)
  have hlegible : Legible ([1, 2, 3, 4, 1, 2, 3, 4] : List Int) :=
    ⟨by decide, by decide, by decide⟩
  exact ⟨_, _, _, _, h, h', rfl, rfl, rfl, rfl, htext, htext', (htell hlegible).mp rfl⟩

end SlotTree
