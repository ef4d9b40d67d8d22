import ChoiceGraph.Proofs.Equality

/-! # Terms under decided choices

Once it is known which side of each choice is taken, a node that is a choice stands for one of its
alternatives. A list whose items are choices between terms, or demands for such a choice, then stands
for one list of terms. A reduction may demand a choice, pull it above a cell of the list, or redirect
a link; whichever sides are taken, the list stands for the same terms, and as many choices are left
to take on the way. -/
namespace ChoiceGraph

/-- One of two, for the side of a choice that is taken. -/
def Side.pick {α : Type} (s : Side) (l r : α) : α :=
  match s with
  | left => l
  | right => r

/-- The choices of which a side is taken, with that side. -/
abbrev Choosing := ChoiceId → Side → Prop

namespace Content

/-- A demand for a value that is not a free variable. -/
def demand (x : NodeId) : Content := ⟨.operation, Prelude.standard.ensureNotFree, 0, .links [x]⟩

def nil : Content := constant 0 Prelude.standard.nil

def cons (x rest : NodeId) : Content := ⟨.constructor 1, Prelude.standard.cons, 0, .links [x, rest]⟩

def indirection (x : NodeId) : Content := ⟨.forward, Builtin.forward, 0, .links [x]⟩

def alternative (narrowed : Bool) (id : ChoiceId) (l r : NodeId) : Content :=
  ⟨.choice, if narrowed then Builtin.narrowed else Builtin.choice, id, .links [l, r]⟩

theorem nil_isData : nil.IsData := ⟨⟨0, rfl⟩, by decide⟩

theorem cons_isData (x rest : NodeId) : (cons x rest).IsData :=
  ⟨⟨1, rfl⟩, show 10 ≤ Prelude.standard.cons by decide⟩

section Fitting

variable {σ : Signature}

theorem demand_fits (hσ : σ.Sound) (x : NodeId) : (demand x).Fits σ :=
  .call _ _ 0 [x] (by decide) ((hσ.prelude _ (by decide)).trans rfl) ⟨rfl, rfl, 1, rfl, Nat.le_refl 1⟩ rfl

theorem cons_fits (hσ : σ.Sound) (x rest : NodeId) : (cons x rest).Fits σ :=
  .constructor _ _ 5 1 0 [x, rest] (by decide) ((hσ.prelude _ (by decide)).trans rfl)
    ⟨rfl, by decide, rfl, rfl⟩ rfl

theorem nil_fits (hσ : σ.Sound) : nil.Fits σ :=
  .constructor _ _ 5 0 0 [] (by decide) ((hσ.prelude _ (by decide)).trans rfl)
    ⟨rfl, by decide, rfl, rfl⟩ rfl

theorem alternative_fits (narrowed : Bool) (id : ChoiceId) (l r : NodeId) :
    (alternative narrowed id l r).Fits σ := by
  cases narrowed with
  | true => exact .narrowed id l r
  | false => exact .choice id l r

end Fitting

end Content

namespace Graph

variable {g g' : Graph} {φ : Choosing} {i j u w x : NodeId} {c d : Content} {n k : Nat} {b : Bool}
  {xs ys : List NodeId}

/-- The node is in use and holds this. -/
structure Holds (g : Graph) (i : NodeId) (c : Content) : Prop where
  content : g.content? i = some c
  unfree : i ∉ g.free

theorem Holds.eq (h : g.Holds i c) (h' : g.Holds i d) : c = d :=
  Option.some.inj (h.content.symm.trans h'.content)

theorem Holds.ne (h : g.Holds i c) (h' : g.Holds j d) (differ : c.tag ≠ d.tag) : i ≠ j := by
  rintro rfl
  exact differ (congrArg Content.tag (h.eq h'))

/-- The node comes to `x` after `n` choices. It may be a demand, if that is allowed; what is demanded
is no demand again. -/
inductive Resolves (g : Graph) (φ : Choosing) (x : NodeId) : Bool → NodeId → Nat → Prop where
  | here {b : Bool} : Resolves g φ x b x 0
  | through {b : Bool} {i : NodeId} (h : g.Holds i (.indirection x)) : Resolves g φ x b i 0
  | choice {b narrowed : Bool} {i l r : NodeId} {id : ChoiceId} {s : Side} {n : Nat}
    (h : g.Holds i (.alternative narrowed id l r)) (taken : φ id s)
    (below : Resolves g φ x b (s.pick l r) n) : Resolves g φ x b i (n + 1)
  | demand {i v : NodeId} {n : Nat} (h : g.Holds i (.demand v)) (below : Resolves g φ x false v n) :
    Resolves g φ x true i n

/-- The node comes to a list of these terms after `n` choices. -/
inductive Spells (g : Graph) (φ : Choosing) : List NodeId → NodeId → Nat → Prop where
  | nil {i : NodeId} (h : g.Holds i .nil) : Spells g φ [] i 0
  | cons {i e t x : NodeId} {xs : List NodeId} {n k : Nat} (h : g.Holds i (.cons e t))
    (item : g.Resolves φ x true e n) (rest : Spells g φ xs t k) : Spells g φ (x :: xs) i (n + k)
  | choice {narrowed : Bool} {xs : List NodeId} {i l r : NodeId} {id : ChoiceId} {side : Side}
    {n : Nat} (h : g.Holds i (.alternative narrowed id l r)) (taken : φ id side)
    (below : Spells g φ xs (side.pick l r) n) : Spells g φ xs i (n + 1)

/-- The node is a list of these terms. -/
inductive Lists (g : Graph) : List NodeId → NodeId → Prop where
  | nil {i : NodeId} (h : g.Holds i .nil) : Lists g [] i
  | cons {i t x : NodeId} {xs : List NodeId} (h : g.Holds i (.cons x t)) (rest : Lists g xs t) :
    Lists g (x :: xs) i

/-- The node is a constructor applied to variables of no type. -/
structure Leaf (g : Graph) (x : NodeId) (c : Content) : Prop where
  holds : g.Holds x c
  data : c.IsData
  fields : ∀ f ∈ c.links, ∃ z, g.Holds f (Eff.freeContent z none)

/-- At a choice, the side that is taken resolves. -/
theorem Resolves.taken {narrowed : Bool} {id : ChoiceId} {l r : NodeId} (h : g.Resolves φ x b w n)
    (hw : g.Holds w (.alternative narrowed id l r)) (leaf : ∃ c, g.Leaf x c) :
    ∃ side k, n = k + 1 ∧ φ id side ∧ g.Resolves φ x b (side.pick l r) k := by
  cases h with
  | here =>
    obtain ⟨c, leaf⟩ := leaf
    obtain ⟨⟨index, tag⟩, -⟩ := leaf.data
    rw [← hw.eq leaf.holds] at tag
    cases tag
  | through h => cases congrArg Content.tag (hw.eq h)
  | demand h => cases congrArg Content.tag (hw.eq h)
  | choice h taken below =>
    have same := hw.eq h
    cases congrArg Content.aux same
    cases congrArg Content.cargo same
    exact ⟨_, _, rfl, taken, below⟩

theorem Spells.taken {narrowed : Bool} {id : ChoiceId} {l r : NodeId} (h : g.Spells φ xs w n)
    (hw : g.Holds w (.alternative narrowed id l r)) :
    ∃ side k, n = k + 1 ∧ φ id side ∧ g.Spells φ xs (side.pick l r) k := by
  cases h with
  | nil h => cases congrArg Content.tag (hw.eq h)
  | cons h => cases congrArg Content.tag (hw.eq h)
  | choice h taken below =>
    have same := hw.eq h
    cases congrArg Content.aux same
    cases congrArg Content.cargo same
    exact ⟨_, _, rfl, taken, below⟩

/-- A node comes to lists of one length only. -/
theorem Spells.length_unique (single : ∀ id s s', φ id s → φ id s' → s = s') (h : g.Spells φ xs u n)
    (h' : g.Spells φ ys u k) : xs.length = ys.length := by
  induction h generalizing ys k with
  | nil h =>
    cases h' with
    | nil => rfl
    | cons h' => cases congrArg Content.symbol (h.eq h')
    | choice h' => cases congrArg Content.tag (h.eq h')
  | cons h _ _ ih =>
    cases h' with
    | nil h' => cases congrArg Content.symbol (h.eq h')
    | choice h' => cases congrArg Content.tag (h.eq h')
    | cons h' _ rest =>
      cases congrArg Content.cargo (h.eq h')
      rw [List.length_cons, List.length_cons, ih rest]
  | choice h taken _ ih =>
    obtain ⟨side, k, -, taken', below⟩ := h'.taken h
    cases single _ _ _ taken taken'
    exact ih below

/-- A term comes to nothing but itself. -/
theorem Resolves.eq_of_leaf {y : NodeId} (h : g.Resolves φ y b x n) (leaf : g.Leaf x c) : y = x := by
  obtain ⟨⟨index, tag⟩, -⟩ := leaf.data
  have differs : ∀ d, g.Holds x d → d.tag = .constructor index := fun d hd => hd.eq leaf.holds ▸ tag
  cases h with
  | here => rfl
  | through h => cases differs _ h
  | choice h => cases differs _ h
  | demand h => cases differs _ h

/-- A list comes to nothing but itself. -/
theorem Lists.eq_of_spells (h : g.Lists xs u) (leaves : ∀ x ∈ xs, ∃ c, g.Leaf x c)
    (s : g.Spells φ ys u n) : ys = xs := by
  induction h generalizing ys n with
  | nil h =>
    cases s with
    | nil => rfl
    | cons h' => cases congrArg Content.symbol (h.eq h')
    | choice h' => cases congrArg Content.tag (h.eq h')
  | cons h _ ih =>
    cases s with
    | nil h' => cases congrArg Content.symbol (h.eq h')
    | choice h' => cases congrArg Content.tag (h.eq h')
    | cons h' item rest =>
      cases congrArg Content.cargo (h.eq h')
      obtain ⟨c, leaf⟩ := leaves _ List.mem_cons_self
      rw [item.eq_of_leaf leaf, ih (fun x hx => leaves x (List.mem_cons_of_mem _ hx)) rest]

/-! ## What a reduction keeps -/

/-- Nodes come to the same terms as before, whichever sides are taken. -/
structure Advances (g g' : Graph) : Prop where
  resolves : ∀ φ x b i n, (∃ c, g.Leaf x c) → g.Resolves φ x b i n → g'.Resolves φ x b i n
  spells : ∀ φ xs i n, (∀ x ∈ xs, ∃ c, g.Leaf x c) → g.Spells φ xs i n → g'.Spells φ xs i n
  leaves : ∀ x c, g.Leaf x c → g'.Leaf x c
  still : ∀ i c, g.Holds i c → c.tag = .choice ∨ c.tag = .free ∨ c.tag = .forward → g'.Holds i c

theorem Advances.refl (g : Graph) : g.Advances g :=
  ⟨fun _ _ _ _ _ _ h => h, fun _ _ _ _ _ h => h, fun _ _ h => h, fun _ _ h _ => h⟩

theorem Advances.trans {g'' : Graph} (h : g.Advances g') (h' : g'.Advances g'') : g.Advances g'' where
  resolves φ x b i n leaf r := h'.resolves φ x b i n (leaf.imp fun c => h.leaves x c)
    (h.resolves φ x b i n leaf r)
  spells φ xs i n leaves r := h'.spells φ xs i n (fun x hx => (leaves x hx).imp fun c => h.leaves x c)
    (h.spells φ xs i n leaves r)
  leaves x c leaf := h'.leaves x c (h.leaves x c leaf)
  still i c hi tag := h'.still i c (h.still i c hi tag) tag

/-- One demand or one cell of a list has changed, and still comes to what it came to. -/
structure Reforms (g : Graph) (u : NodeId) (g' : Graph) : Prop where
  others : ∀ j c, j ≠ u → g.Holds j c → g'.Holds j c
  kind : (∃ v, g.Holds u (.demand v)) ∨
    ∃ e t f d, g.Holds u (.cons e t) ∧ f ∈ [e, t] ∧ g.Holds f d ∧ d.tag ≠ .free
  item : ∀ φ x v n, (∃ c, g'.Leaf x c) → g.Holds u (.demand v) → g'.Resolves φ x false v n →
    g'.Resolves φ x true u n
  cell : ∀ φ x xs e t n k, (∃ c, g'.Leaf x c) → g.Holds u (.cons e t) → g'.Resolves φ x true e n →
    g'.Spells φ xs t k → g'.Spells φ (x :: xs) u (n + k)

namespace Reforms

variable (h : g.Reforms u g')
include h

/-- The node itself is a demand or a cell. -/
theorem tag (hc : g.Holds u c) : c.tag = .operation ∨ c.tag = .constructor 1 := by
  rcases h.kind with ⟨v, hv⟩ | ⟨e, t, -, -, hu, -⟩
  · exact .inl (hv.eq hc ▸ rfl)
  · exact .inr (hu.eq hc ▸ rfl)

theorem leaf (hx : g.Leaf x c) : g'.Leaf x c := by
  have apart : x ≠ u := by
    rintro rfl
    rcases h.kind with ⟨v, hv⟩ | ⟨e, t, f, d, hu, mem, hf, bound⟩
    · obtain ⟨⟨index, tag⟩, -⟩ := hx.data
      cases (congrArg Content.tag (hv.eq hx.holds)).trans tag
    · cases hu.eq hx.holds
      obtain ⟨z, free⟩ := hx.fields f mem
      exact bound (congrArg Content.tag (hf.eq free))
  refine ⟨h.others x c apart hx.holds, hx.data, fun f hf => ?_⟩
  obtain ⟨z, free⟩ := hx.fields f hf
  refine ⟨z, h.others f _ (fun same => ?_) free⟩
  subst same
  rcases h.tag free with tag | tag
  · cases tag
  · cases tag

theorem resolves (leaf : ∃ c, g.Leaf x c) (r : g.Resolves φ x b i n) : g'.Resolves φ x b i n := by
  have leaf' : ∃ c, g'.Leaf x c := leaf.imp fun c hx => h.leaf hx
  induction r with
  | here => exact .here
  | @through b i hi =>
    refine .through (h.others i _ (fun same => ?_) hi)
    subst same
    rcases h.tag hi with tag | tag <;> cases tag
  | @choice b narrowed i l r id side n hi taken _ ih =>
    refine .choice (h.others i _ (fun same => ?_) hi) taken ih
    subst same
    rcases h.tag hi with tag | tag <;> cases tag
  | @demand i v n hi _ ih =>
    by_cases here : i = u
    · subst here
      exact h.item φ x v n leaf' hi ih
    · exact .demand (h.others i _ here hi) ih

theorem spells (leaves : ∀ x ∈ xs, ∃ c, g.Leaf x c) (s : g.Spells φ xs i n) :
    g'.Spells φ xs i n := by
  induction s with
  | @nil i hi =>
    refine .nil (h.others i _ (fun same => ?_) hi)
    subst same
    rcases h.tag hi with tag | tag <;> cases tag
  | @choice narrowed xs i l r id side n hi taken _ ih =>
    refine .choice (h.others i _ (fun same => ?_) hi) taken (ih leaves)
    subst same
    rcases h.tag hi with tag | tag <;> cases tag
  | @cons i e t x xs n k hi item _ ih =>
    have leaf := leaves x List.mem_cons_self
    have item' := h.resolves leaf item
    have rest := ih fun y hy => leaves y (List.mem_cons_of_mem _ hy)
    by_cases here : i = u
    · subst here
      exact h.cell φ x xs e t n k (leaf.imp fun c hx => h.leaf hx) hi item' rest
    · exact .cons (h.others i _ here hi) item' rest

theorem advances : g.Advances g' where
  resolves _ _ _ _ _ leaf r := h.resolves leaf r
  spells _ _ _ _ leaves s := h.spells leaves s
  leaves _ _ hx := h.leaf hx
  still i c hi tag := by
    refine h.others i c (fun same => ?_) hi
    subst same
    rcases h.tag hi with tag' | tag' <;> rcases tag with tag | tag | tag <;> cases tag'.symm.trans tag

end Reforms

/-! ## The changes there are -/

theorem Sets.holds (sets : g.Sets u c g') (unfree : u ∉ g.free) : g'.Holds u c :=
  ⟨sets.same, sets.free.symm ▸ unfree⟩

theorem Sets.holds_other (sets : g.Sets u c g') (hj : j ≠ u) (h : g.Holds j d) : g'.Holds j d :=
  ⟨(sets.others j hj).trans h.content, sets.free.symm ▸ h.unfree⟩

theorem Taken.holds {ids : List NodeId} (taken : g.Taken ids g')
    (h : g.Holds j d) : g'.Holds j d := by
  have outside : j ∉ ids ++ g'.free := taken.split ▸ h.unfree
  refine ⟨(taken.kept j fun hj => outside (List.mem_append_left _ hj)).trans h.content, fun hj => ?_⟩
  exact outside (List.mem_append_right _ hj)

/-- A choice is pulled above a node: two copies of it, below the choice. -/
structure Pulled (g : Graph) (u : NodeId) (c : Content) (k : Nat) (narrowed : Bool) (id : ChoiceId)
    (l r : NodeId) (g' : Graph) : Prop where
  others : ∀ j d, j ≠ u → g.Holds j d → g'.Holds j d
  copies : ∃ p q, g'.Holds u (.alternative narrowed id p q) ∧ g'.Holds p (c.setLink k l) ∧
    g'.Holds q (c.setLink k r)
  fresh : ∀ p q, g'.Holds u (.alternative narrowed id p q) → p ≠ q ∧ p ∈ g.free ∧ q ∈ g.free

theorem Pulled.side {narrowed : Bool} {id : ChoiceId} {l r : NodeId}
    (h : g.Pulled u c k narrowed id l r g') : ∃ p q, g'.Holds u (.alternative narrowed id p q) ∧
      ∀ side : Side, g'.Holds (side.pick p q) (c.setLink k (side.pick l r)) := by
  obtain ⟨p, q, hu, hp, hq⟩ := h.copies
  refine ⟨p, q, hu, fun side => ?_⟩
  cases side with
  | left => exact hp
  | right => exact hq

/-- A choice that is demanded is pulled above the demand. -/
theorem Pulled.demand {narrowed : Bool} {id : ChoiceId} {l r : NodeId}
    (h : g.Pulled u (.demand w) 0 narrowed id l r g') (hu : g.Holds u (.demand w))
    (hw : g.Holds w (.alternative narrowed id l r)) : g.Reforms u g' where
  others := h.others
  kind := .inl ⟨w, hu⟩
  item φ x v n leaf hv below := by
    cases congrArg Content.cargo (hu.eq hv)
    have hw' := h.others w _ (hw.ne hu nofun) hw
    obtain ⟨side, k, rfl, taken, below⟩ := below.taken hw' leaf
    obtain ⟨p, q, hu', copies⟩ := h.side
    exact .choice hu' taken (.demand (copies side) below)
  cell φ x xs e t n k _ he := by cases congrArg Content.tag (hu.eq he)

/-- A choice in the place of an item is pulled above the cell. -/
theorem Pulled.item {narrowed : Bool} {id : ChoiceId} {l r t : NodeId}
    (h : g.Pulled u (.cons w t) 0 narrowed id l r g') (hu : g.Holds u (.cons w t))
    (hw : g.Holds w (.alternative narrowed id l r)) : g.Reforms u g' where
  others := h.others
  kind := .inr ⟨w, t, w, _, hu, List.mem_cons_self, hw, nofun⟩
  item φ x v n _ hv := by cases congrArg Content.tag (hu.eq hv)
  cell φ x xs e t' n k leaf he item rest := by
    cases congrArg Content.cargo (hu.eq he)
    have hw' := h.others w _ (hw.ne hu nofun) hw
    obtain ⟨side, n, rfl, taken, item⟩ := item.taken hw' leaf
    obtain ⟨p, q, hu', copies⟩ := h.side
    rw [Nat.add_right_comm]
    exact .choice hu' taken (.cons (copies side) item rest)

/-- A choice in the place of the rest is pulled above the cell. -/
theorem Pulled.rest {narrowed : Bool} {id : ChoiceId} {l r e : NodeId}
    (h : g.Pulled u (.cons e w) 1 narrowed id l r g') (hu : g.Holds u (.cons e w))
    (hw : g.Holds w (.alternative narrowed id l r)) : g.Reforms u g' where
  others := h.others
  kind := .inr ⟨e, w, w, _, hu, List.mem_cons_of_mem _ List.mem_cons_self, hw, nofun⟩
  item φ x v n _ hv := by cases congrArg Content.tag (hu.eq hv)
  cell φ x xs e' t n k leaf he item rest := by
    cases congrArg Content.cargo (hu.eq he)
    have hw' := h.others w _ (hw.ne hu nofun) hw
    obtain ⟨side, k, rfl, taken, rest⟩ := rest.taken hw'
    obtain ⟨p, q, hu', copies⟩ := h.side
    exact .choice hu' taken (.cons (copies side) item rest)

/-- What is demanded is a term. -/
theorem Sets.reforms_value (sets : g.Sets u (.indirection x) g') (hu : g.Holds u (.demand x))
    (leaf : g.Leaf x c) : g.Reforms u g' where
  others j d hj h := sets.holds_other hj h
  kind := .inl ⟨x, hu⟩
  item φ y v n leaf' hv below := by
    cases congrArg Content.cargo (hu.eq hv)
    obtain ⟨⟨index, tag⟩, -⟩ := leaf.data
    have apart : x ≠ u := leaf.holds.ne hu (by rw [tag]; nofun)
    have hx := sets.holds_other apart leaf.holds
    have constructor_ : ∀ d, g'.Holds x d → d.tag = .constructor index := fun d hd =>
      (congrArg Content.tag (hx.eq hd)).symm.trans tag
    cases below with
    | here => exact .through (sets.holds hu.unfree)
    | through h => cases constructor_ _ h
    | choice h => cases constructor_ _ h
  cell φ y xs e t n k _ he := by cases congrArg Content.tag (hu.eq he)

/-- The link of a demand follows an indirection. -/
theorem Sets.reforms_demand {v : NodeId} (sets : g.Sets u (.demand x) g') (hu : g.Holds u (.demand v))
    (hv : g.Holds v (.indirection x)) : g.Reforms u g' where
  others j d hj h := sets.holds_other hj h
  kind := .inl ⟨v, hu⟩
  item φ y v' n leaf' hv' below := by
    cases congrArg Content.cargo (hu.eq hv')
    have hv₁ := sets.holds_other (hv.ne hu nofun) hv
    refine .demand (sets.holds hu.unfree) ?_
    cases below with
    | here =>
      obtain ⟨c, leaf⟩ := leaf'
      obtain ⟨⟨index, tag⟩, -⟩ := leaf.data
      cases (congrArg Content.tag (hv₁.eq leaf.holds)).trans tag
    | through h =>
      cases congrArg Content.cargo (hv₁.eq h)
      exact .here
    | choice h => cases congrArg Content.tag (hv₁.eq h)
  cell φ y xs e t n k _ he := by cases congrArg Content.tag (hu.eq he)

/-- The link of a cell follows an indirection. -/
theorem Sets.reforms_item {e t : NodeId} (sets : g.Sets u (.cons x t) g') (hu : g.Holds u (.cons e t))
    (he : g.Holds e (.indirection x)) : g.Reforms u g' where
  others j d hj h := sets.holds_other hj h
  kind := .inr ⟨e, t, e, _, hu, List.mem_cons_self, he, nofun⟩
  item φ y v n _ hv := by cases congrArg Content.tag (hu.eq hv)
  cell φ y xs e' t' n k leaf he' item rest := by
    cases congrArg Content.cargo (hu.eq he')
    have he₁ := sets.holds_other (he.ne hu nofun) he
    refine .cons (sets.holds hu.unfree) ?_ rest
    cases item with
    | here =>
      obtain ⟨c, leaf⟩ := leaf
      obtain ⟨⟨index, tag⟩, -⟩ := leaf.data
      cases (congrArg Content.tag (he₁.eq leaf.holds)).trans tag
    | through h =>
      cases congrArg Content.cargo (he₁.eq h)
      exact .here
    | choice h => cases congrArg Content.tag (he₁.eq h)
    | demand h => cases congrArg Content.tag (he₁.eq h)

/-! ## What stays as it is -/

theorem Resolves.kept (r : g.Resolves φ x b i n) (kept : ∀ j d, g.Holds j d → g'.Holds j d) :
    g'.Resolves φ x b i n := by
  induction r with
  | here => exact .here
  | through h => exact .through (kept _ _ h)
  | choice h taken _ ih => exact .choice (kept _ _ h) taken ih
  | demand h _ ih => exact .demand (kept _ _ h) ih

theorem Spells.kept (s : g.Spells φ xs i n) (kept : ∀ j d, g.Holds j d → g'.Holds j d) :
    g'.Spells φ xs i n := by
  induction s with
  | nil h => exact .nil (kept _ _ h)
  | choice h taken _ ih => exact .choice (kept _ _ h) taken ih
  | cons h item _ ih => exact .cons (kept _ _ h) (item.kept kept) ih

/-- If nothing in use has changed, nodes come to what they came to. -/
theorem advances_of_holds (kept : ∀ j d, g.Holds j d → g'.Holds j d) : g.Advances g' where
  resolves _ _ _ _ _ _ r := r.kept kept
  spells _ _ _ _ _ s := s.kept kept
  leaves _ _ leaf := ⟨kept _ _ leaf.holds, leaf.data, fun f hf => (leaf.fields f hf).imp fun _ => kept _ _⟩
  still i c hi _ := kept i c hi

/-- Cells of lists of at least `k` terms are as they were. -/
def KeepsCells (g : Graph) (φ : Choosing) (k : Nat) (g' : Graph) : Prop :=
  ∀ j e t ys n, g.Holds j (.cons e t) → (∀ y ∈ ys, ∃ c, g.Leaf y c) → g.Spells φ ys j n →
    k ≤ ys.length → g'.Holds j (.cons e t)

theorem KeepsCells.mono {k' : Nat} (h : g.KeepsCells φ k g') (le : k ≤ k') : g.KeepsCells φ k' g' :=
  fun j e t ys n hj leaves s long => h j e t ys n hj leaves s (le.trans long)

theorem KeepsCells.trans {g'' : Graph} (h : g.KeepsCells φ k g') (advances : g.Advances g')
    (h' : g'.KeepsCells φ k g'') : g.KeepsCells φ k g'' := fun j e t ys n hj leaves s long =>
  h' j e t ys n (h j e t ys n hj leaves s long)
    (fun y hy => (leaves y hy).imp fun c => advances.leaves y c) (advances.spells φ ys j n leaves s) long

theorem Reforms.keeps_cells {v : NodeId} (h : g.Reforms u g') (hu : g.Holds u (.demand v)) :
    g.KeepsCells φ k g' := fun j _ _ _ _ hj _ _ _ =>
  h.others j _ (hj.ne hu nofun) hj

theorem Reforms.keeps_longer (h : g.Reforms u g') (single : ∀ id s s', φ id s → φ id s' → s = s')
    (s : g.Spells φ xs u n) : g.KeepsCells φ (xs.length + 1) g' := fun j e t ys k hj _ s' long =>
  h.others j _ (fun same => by
    have equal := (same ▸ s').length_unique single s
    omega) hj

end Graph

end ChoiceGraph
