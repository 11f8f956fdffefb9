import SlotTree.Tree.Search
import SlotTree.Proofs.Walk

/-
  Searches — where a search ends, for any comparison at all.

  A cut gives every key a side: `.lt` sends the search to the left of it,
  `.gt` to the right, `.eq` ends it. A search for a cut ends at a node
  (`Shape.Meets`) or in a hole of the shape (`Shape.Splits`); either way every
  node passed lies where its key sent the search (`Trail.Toward`). That is all
  that can be said without laws for the comparison, and it is enough to insert
  and remove soundly. What it means in a sorted tree is said elsewhere.
-/
namespace SlotTree

variable {K V : Type}

/-- At every node of the trail the cut turns to the side of the hole. -/
def Trail.Toward (cut : K → Ordering) : Trail K V → Prop
  | .top => True
  | .under f up => cut f.entry.1 = f.side.order ∧ up.Toward cut

namespace Shape

/-- The search for the cut ends at the item `i`. -/
def Meets (cut : K → Ordering) (sh : Shape K V) (i : Nat) (e : K × V) : Prop :=
  ∃ (up : Trail K V) (c : Color) (l r : Shape K V),
    sh = up.fill (.node c l i e r) ∧ up.Toward cut ∧ cut e.1 = .eq

/-- The search for the cut ends in the hole of the trail. -/
def Splits (cut : K → Ordering) (sh : Shape K V) (up : Trail K V) : Prop :=
  sh = up.fill .nil ∧ up.Toward cut

theorem Meets.items {cut : K → Ordering} {sh : Shape K V} {i : Nat} {e : K × V}
    (h : sh.Meets cut i e) : ∃ before after, sh.items = before ++ (i, e) :: after := by
  obtain ⟨up, c, l, r, rfl, -, -⟩ := h
  refine ⟨up.beyond .left ++ l.items, r.items ++ up.beyond .right, ?_⟩
  simp [Trail.items_fill, Shape.items]

theorem Splits.items {cut : K → Ordering} {sh : Shape K V} {up : Trail K V} (h : sh.Splits cut up) :
    sh.items = up.beyond .left ++ up.beyond .right := by
  rw [h.1, Trail.items_fill]
  simp [Shape.items]

end Shape

/-- What a landing says of the shape that was searched. -/
inductive Landing.Fits (cut : K → Ordering) (sh : Shape K V) : Landing → Prop where
  | found {i : Nat} {e : K × V} : sh.Meets cut i e → Fits cut sh (.found i)
  | below {f : Crumb K V} {up : Trail K V} :
    sh.Splits cut (.under f up) → Fits cut sh (.below f.id f.side)
  | nowhere : sh.Splits cut .top → Fits cut sh .nowhere

/-- The cut at a key that lies, if `inclusive` is false, just past that key on
side `s`. -/
def Side.cut (cmp : K → K → Ordering) (s : Side) (inclusive : Bool) (key k : K) : Ordering :=
  match cmp key k with
  | .eq => if inclusive then .eq else s.order
  | o => o

theorem Side.cut_inclusive (cmp : K → K → Ordering) (s : Side) (key : K) :
    s.cut cmp true key = cmp key := by
  funext k
  unfold Side.cut
  cases cmp key k <;> rfl

theorem Side.toward_eq_some {o : Ordering} {s : Side} : Side.toward o = some s ↔ o = s.order := by
  cases o <;> cases s <;> simp [Side.toward, Side.order]

theorem Side.toward_eq_none {o : Ordering} : Side.toward o = none ↔ o = .eq := by
  cases o <;> simp [Side.toward]

namespace Tree

variable {t : Tree K V} {up : Trail K V} {sh : Shape K V} {i : Nat} {key : K}

theorem Focus.node_at (h : t.Focus up sh) (hi : sh.link = some i) :
    ∃ n, t.node i = .ok n ∧
      ∀ s, ∃ a b, sh = .branch s sh.color a i n.entry b ∧ n.child s = a.link := by
  obtain ⟨l, e, r, heq⟩ := Shape.eq_branch hi .left
  have hn := Focus.get? (heq ▸ h)
  refine ⟨_, node_ok hn, fun s => ?_⟩
  rw [Node.entry_of]
  cases s with
  | left => exact ⟨l, r, heq, rfl⟩
  | right => exact ⟨r, l, heq, rfl⟩

/-! ## Locating a key -/

theorem locateFrom_ok (cmp : K → K → Ordering) (h : t.Focus up sh) (hi : sh.link = some i)
    (hup : up.Toward (cmp key)) {steps : Nat} (hp : sh.ids.length ≤ steps) :
    ∃ l, t.locateFrom cmp key steps i = .ok l ∧ l.Fits (cmp key) (up.fill sh) := by
  induction steps generalizing up sh i with
  | zero =>
    have := List.length_pos_of_mem (Shape.mem_ids_of_link hi)
    omega
  | succ steps ih =>
    obtain ⟨n, hn, hside⟩ := h.node_at hi
    simp only [locateFrom, hn, ok_bind]
    cases hs : Side.toward (cmp key n.key) with
    | none =>
      obtain ⟨l, r, heq, -⟩ := hside .left
      have hm : (up.fill sh).Meets (cmp key) i n.entry :=
        ⟨up, sh.color, l, r, congrArg up.fill heq, hup, Side.toward_eq_none.mp hs⟩
      exact ⟨_, rfl, .found hm⟩
    | some s =>
      obtain ⟨a, b, heq, hchild⟩ := hside s
      -- The subtree on side `s` comes into focus, and the node joins the trail.
      have hnear := (heq ▸ h).near
      have hto : (Trail.under ⟨s, sh.color, i, n.entry, b⟩ up).Toward (cmp key) :=
        ⟨Side.toward_eq_some.mp hs, hup⟩
      have hfill : up.fill sh = (Trail.under ⟨s, sh.color, i, n.entry, b⟩ up).fill a :=
        congrArg up.fill heq
      rw [heq, Shape.length_ids_branch] at hp
      simp only [hchild]
      cases hl : a.link with
      | none =>
        obtain rfl := Shape.link_eq_none.mp hl
        exact ⟨_, rfl, .below ⟨hfill, hto⟩⟩
      | some j =>
        rw [hfill]
        exact ih hnear hl hto (by omega)

/-- A search ends, and where it ends fits the shape. -/
theorem locate_ok (cmp : K → K → Ordering) (h : t.Holds sh) (key : K) :
    ∃ l, t.locate cmp key = .ok l ∧ l.Fits (cmp key) sh := by
  simp only [locate, h.root]
  cases hl : sh.link with
  | none =>
    obtain rfl := Shape.link_eq_none.mp hl
    exact ⟨_, rfl, .nowhere ⟨rfl, trivial⟩⟩
  | some i =>
    have hf := focus_top.mpr h
    exact locateFrom_ok cmp hf hl trivial (by have := hf.length_lt; omega)

theorem find_ok (cmp : K → K → Ordering) (h : t.Holds sh) (key : K) :
    (∃ i e, t.find cmp key = .ok (some i) ∧ sh.Meets (cmp key) i e) ∨
      ∃ up, t.find cmp key = .ok none ∧ sh.Splits (cmp key) up := by
  obtain ⟨l, hrun, hl⟩ := locate_ok cmp h key
  cases hl with
  | found hm => exact .inl ⟨_, _, by simp [find, hrun], hm⟩
  | below hs => exact .inr ⟨_, by simp [find, hrun], hs⟩
  | nowhere hs => exact .inr ⟨_, by simp [find, hrun], hs⟩

/-! ## Nearest keys -/

/-- The end of a search for the nearest key: a node that meets the cut, or the
item next to where the cut splits the shape. -/
def Nearest (cut : K → Ordering) (sh : Shape K V) (s : Side) (l : Link) : Prop :=
  (∃ i e, l = some i ∧ sh.Meets cut i e) ∨
    ∃ up, l = (s.other.tip (up.beyond s)).map (·.1) ∧ sh.Splits cut up

theorem nearestFrom_ok (cmp : K → K → Ordering) (s : Side) (inclusive : Bool) (h : t.Focus up sh)
    (hup : up.Toward (s.cut cmp inclusive key)) {steps : Nat} (hp : sh.ids.length ≤ steps) :
    ∃ l, t.nearestFrom cmp s inclusive key steps sh.link
        ((s.other.tip (up.beyond s)).map (·.1)) = .ok l ∧
      Nearest (s.cut cmp inclusive key) (up.fill sh) s l := by
  induction steps generalizing up sh with
  | zero =>
    cases sh with
    | nil => exact ⟨_, rfl, .inr ⟨up, rfl, rfl, hup⟩⟩
    | node c l i e r => simp at hp
  | succ steps ih =>
    cases hl : sh.link with
    | none =>
      obtain rfl := Shape.link_eq_none.mp hl
      exact ⟨_, rfl, .inr ⟨up, rfl, rfl, hup⟩⟩
    | some i =>
      obtain ⟨n, hn, hside⟩ := h.node_at hl
      -- One step down on side `turn`, where the cut sends the search.
      have down : ∀ turn : Side, s.cut cmp inclusive key n.key = turn.order →
          ∃ l, t.nearestFrom cmp s inclusive key steps (n.child turn)
              (if turn = s.other then some i else (s.other.tip (up.beyond s)).map (·.1)) = .ok l ∧
            Nearest (s.cut cmp inclusive key) (up.fill sh) s l := by
        intro turn hturn
        obtain ⟨a, b, heq, hchild⟩ := hside turn
        have hfill : up.fill sh = (Trail.under ⟨turn, sh.color, i, n.entry, b⟩ up).fill a :=
          congrArg up.fill heq
        have hbest : (if turn = s.other then some i else (s.other.tip (up.beyond s)).map (·.1)) =
            (s.other.tip
              ((Trail.under ⟨turn, sh.color, i, n.entry, b⟩ up).beyond s)).map (·.1) := by
          cases turn <;> cases s <;> simp [Trail.beyond, Side.tip, Side.other]
        rw [heq, Shape.length_ids_branch] at hp
        rw [hchild, hbest, hfill]
        exact ih (heq ▸ h).near ⟨hturn, hup⟩ (by omega)
      simp only [nearestFrom, hn, ok_bind]
      cases hs : Side.toward (cmp key n.key) with
      | none =>
        have hcmp := Side.toward_eq_none.mp hs
        cases inclusive with
        | true =>
          obtain ⟨l, r, heq, -⟩ := hside .left
          refine ⟨_, rfl, .inl ⟨i, n.entry, rfl, up, sh.color, l, r, congrArg up.fill heq, hup, ?_⟩⟩
          rw [Side.cut_inclusive]
          exact hcmp
        | false =>
          have := down s (by simp [Side.cut, hcmp])
          simpa [show ¬ s = s.other by cases s <;> simp [Side.other]] using this
      | some turn =>
        refine down turn ?_
        have hcmp := Side.toward_eq_some.mp hs
        cases turn <;> simp [Side.cut, hcmp, Side.order]

theorem nearest_ok (cmp : K → K → Ordering) (s : Side) (inclusive : Bool) (h : t.Holds sh)
    (key : K) :
    ∃ l, t.nearest cmp s inclusive key = .ok l ∧ Nearest (s.cut cmp inclusive key) sh s l := by
  have hf := focus_top.mpr h
  have hlen : sh.ids.length ≤ t.horizon := by
    have := hf.length_lt
    omega
  have hrun := @nearestFrom_ok K V t .top sh key cmp s inclusive hf trivial t.horizon hlen
  have hnone : (s.other.tip (Trail.beyond s (.top : Trail K V))).map (·.1) = none := by
    cases s <;> rfl
  simp only [nearest, h.root]
  rwa [hnone] at hrun

end Tree

end SlotTree
