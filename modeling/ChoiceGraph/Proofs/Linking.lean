import ChoiceGraph.Proofs.Passes
import ChoiceGraph.Proofs.RoundTrips
import ChoiceGraph.Proofs.Ties

/-! # Linking the variables that are bound to each other

Variables of one type that bindings connect are narrowed together. Each becomes a generator of its own,
and the generators are linked place by place: their choices are tied, and their fields are bound. However
the bindings are met, in the end every two variables that are bound are linked, and nothing else is tied
or bound. -/
namespace ChoiceGraph.Reduction

open Eff Machine Graph

/-- A variable with the generator it has become. -/
structure Gen where
  var : BoundVar
  /-- The identifiers of the inner choices, and their nodes. -/
  choices : List ChoiceId
  inner : List NodeId
  /-- The alternatives with their fields. -/
  made : List (NodeId × List BoundVar)

namespace Gen

/-- All choices, the outermost first. -/
def decisions (G : Gen) : List ChoiceId := G.var.id :: G.choices

def terms (G : Gen) : List NodeId := G.made.map Prod.fst

def fields (G : Gen) : List BoundVar := G.made.flatMap Prod.snd

/-- The alternatives as nodes only. -/
def plain (G : Gen) : List (NodeId × List NodeId) := G.made.map fun a => (a.1, a.2.map BoundVar.node)

/-- The identifiers that were given out for the generator. -/
def ids (G : Gen) : List Nat := G.fields.map BoundVar.id ++ G.choices

/-- The nodes that were taken for the generator. -/
def nodes (G : Gen) : List NodeId := nodesOf G.plain ++ G.inner

theorem plain_terms (G : Gen) : G.plain.map Prod.fst = G.terms := List.map_map

theorem plain_fields (G : Gen) : G.plain.flatMap Prod.snd = G.fields.map BoundVar.node := by
  rw [plain, List.flatMap_map, fields, List.map_flatMap]

/-- The generator stands in the place of its variable. -/
structure Stands (G : Gen) (g : Graph) (s : Signature) (ctors : List (SymbolId × Nat)) : Prop where
  encodes : g.Encodes G.var.node G.var.id G.terms G.choices G.inner
  laid : g.Laid s ctors G.plain (G.fields.map BoundVar.id)
  count : G.inner.length = ctors.length - 2
  apart : G.nodes.Nodup
  unfree : ∀ i ∈ G.var.node :: G.nodes, i ∉ g.free

end Gen

variable {m m' m₁ : Machine} {x : BoundVar} {t : TypeId} {ctors : List (SymbolId × Nat)}
  {g g' : Graph} {a n : Nat} {G G' : Gen}

/-! ## Narrowing one variable -/

/-- A variable was narrowed out of free nodes, and no other node has changed. At least `a` nodes are
left. -/
structure Grown (m : Machine) (x : BoundVar) (ctors : List (SymbolId × Nat)) (a : Nat) (G : Gen)
    (g : Graph) (n : Nat) : Prop where
  var : G.var = x
  stands : G.Stands g m.signature ctors
  sound : g.Sound
  capacity : g.capacity = m.graph.capacity
  pools : g.pools.size = m.graph.pools.size
  nodes : a ≤ g.free.length
  others : ∀ j d, j ≠ x.node → m.graph.Holds j d → g.Holds j d
  distinct : G.ids.Nodup
  fresh : ∀ z ∈ G.ids, m.nextId ≤ z ∧ z < m.nextId + n

/-- Fields and their identifiers, alternative by alternative. -/
theorem grouped : ∀ (made : List (NodeId × List NodeId)) (vars : List VarId),
    (made.flatMap Prod.snd).length = vars.length → ∃ made' : List (NodeId × List BoundVar),
      made'.map (fun a => (a.1, a.2.map BoundVar.node)) = made ∧
        (made'.flatMap Prod.snd).map BoundVar.id = vars := by
  intro made
  induction made with
  | nil => exact fun vars length => ⟨[], rfl, (List.length_eq_zero_iff.mp length.symm).symm⟩
  | cons alt made ih =>
    intro vars length
    obtain ⟨node, fields⟩ := alt
    replace length : fields.length + (made.flatMap Prod.snd).length = vars.length := by
      rwa [List.flatMap_cons, List.length_append] at length
    obtain ⟨made', plain, ids⟩ := ih (vars.drop fields.length) (by rw [List.length_drop]; omega)
    have enough : (vars.take fields.length).length = fields.length := by
      rw [List.length_take]
      omega
    refine ⟨(node, List.zipWith BoundVar.mk (vars.take fields.length) fields) :: made', ?_, ?_⟩
    · rw [List.map_cons, plain, List.map_zipWith]
      have nodes := @List.map_snd_zip _ _ (vars.take fields.length) fields (by omega)
      rw [List.zip_eq_zipWith, List.map_zipWith] at nodes
      exact congrArg (fun l => (node, l) :: made) nodes
    · rw [List.flatMap_cons, List.map_append, ids, List.map_zipWith]
      have first := @List.map_fst_zip _ _ (vars.take fields.length) fields (by omega)
      rw [List.zip_eq_zipWith, List.map_zipWith] at first
      exact (congrArg (· ++ vars.drop fields.length) first).trans (List.take_append_drop _ _)

theorem instantiate_grown (sound : m.graph.Sound)
    (hx : m.graph.Holds x.node (freeContent x.id (some t))) (run : constructorsOf m t = .ok ctors)
    (listed : Listed m ctors) (some_ : ctors ≠ []) (fit : ∀ p ∈ ctors, Fitting m p.2)
    (nodes : a + generatorSize ctors ≤ m.graph.free.length) :
    ∃ G g n, instantiate x.node m = .ok ctors.length (m.drawn g n) ∧ Grown m x ctors a G g n := by
  obtain ⟨nodes₁, g₁, served, taken, size, blank⟩ :=
    allocateBeside_takes sound x.node (n := generatorSize ctors) (by omega)
  have unlisted : x.node ∉ nodes₁ := fun hi => hx.unfree (taken.split ▸ List.mem_append_left _ hi)
  have supply : Supply (m.setGraph g₁) x.node ctors nodes₁ :=
    ⟨taken.sound, taken.nodup, size, fun i hi => Graph.content_lt (blank i hi).content,
      Graph.content_lt (taken.holds hx).content, unlisted⟩
  have filled := fillGenerator_filled (m := m.setGraph g₁) x.id supply listed some_
  have fills := (instantiate_fills hx.content run some_).trans (bind_ok served)
  generalize fillGenerator x.node x.id ctors nodes₁ (m.setGraph g₁) = result at filled fills
  cases filled with
  | @refused _ _ ctor mem unfit =>
    refine absurd ?_ unfit
    simpa only [Fitting, setGraph, taken.pools] using fit ctor mem
  | @built g made inner leaves count encodes laid perm =>
    have rest := congrArg List.length taken.split
    rw [List.length_append, size] at rest
    have order := List.range'_append_1 (s := m.nextId) (m := fieldCount ctors) (n := inner.length)
    have perm_ids := (List.reverse_perm (List.range' (m.nextId + fieldCount ctors) inner.length)).append_left
      (List.range' m.nextId (fieldCount ctors))
    rw [order] at perm_ids
    obtain ⟨made', plain, vars⟩ := grouped made _ laid.fields.length_eq
    let G : Gen := ⟨x, (List.range' (m.nextId + fieldCount ctors) inner.length).reverse, inner, made'⟩
    have terms : G.terms = made.map Prod.fst := by rw [← G.plain_terms, ← plain]; rfl
    have ids : G.ids.Perm (List.range' m.nextId (fieldCount ctors + inner.length)) := by
      refine List.Perm.trans (List.Perm.of_eq ?_) perm_ids
      exact congrArg (· ++ _) vars
    replace perm : G.nodes.Perm nodes₁ := by
      show (nodesOf G.plain ++ inner).Perm nodes₁
      rwa [show G.plain = made from plain]
    refine ⟨G, g, _, fills, rfl, ⟨terms ▸ encodes, ?_, count, perm.nodup_iff.mpr taken.nodup, fun i hi => ?_⟩,
      leaves.sound, leaves.capacity.trans taken.capacity, leaves.pools.trans taken.pools, ?_,
      fun j d hj hd => ?_, ids.nodup_iff.mpr List.nodup_range', fun z hz => ?_⟩
    · rw [show G.plain = made from plain, show G.fields.map BoundVar.id = _ from vars]
      exact laid
    · rw [leaves.free]
      rcases List.mem_cons.mp hi with rfl | hi
      · exact (taken.holds hx).unfree
      · exact (blank i (perm.subset hi)).unfree
    · rw [leaves.free]
      show a ≤ g₁.free.length
      omega
    · have kept := taken.holds hd
      have out : ¬ (j ∈ nodes₁ ∨ j = x.node) := fun h => h.elim
        (fun hi => hd.unfree (taken.split ▸ List.mem_append_left _ hi)) hj
      exact ⟨(leaves.content out).trans kept.content, leaves.free.symm ▸ kept.unfree⟩
    · exact List.mem_range'_1.mp (ids.subset hz)

/-! ## What a generator holds -/

/-- Not a variable of some type, which may still be narrowed. -/
def Final (c : Content) : Prop := ∀ id t, c ≠ freeContent id (some t)

/-- What narrowing leaves in its nodes. -/
structure Established (c : Content) : Prop where
  final : Final c
  idle : c.tag ≠ .operation

theorem forall₂_left {α β : Type} {R : α → β → Prop} {l : List α} {l' : List β}
    (h : List.Forall₂ R l l') : ∀ {i : Nat} {a : α}, l[i]? = some a → ∃ b, l'[i]? = some b ∧ R a b := by
  induction h with
  | nil => exact fun hi => nomatch hi
  | cons head _ ih =>
    intro i a hi
    cases i with
    | zero =>
      cases hi
      exact ⟨_, rfl, head⟩
    | succ i => exact ih hi

theorem nested_held {i : NodeId} {alternatives inner : List NodeId} {ids : List ChoiceId}
    (h : g.Nested i alternatives ids inner) : ∀ j ∈ inner, ∃ d, g.content? j = some d ∧ Established d := by
  induction h with
  | last => exact fun j hj => nomatch hj
  | choice h _ ih =>
    intro j hj
    rcases List.mem_cons.mp hj with rfl | hj
    · exact ⟨_, h, nofun, nofun⟩
    · exact ih j hj

namespace Gen.Stands

variable {s : Signature}

theorem held (h : G.Stands g s ctors) :
    ∀ i ∈ G.var.node :: G.nodes, ∃ d, g.content? i = some d ∧ Established d := by
  intro i hi
  rcases List.mem_cons.mp hi with rfl | hi
  · have encodes := h.encodes
    generalize G.terms = alternatives at encodes
    generalize G.inner = inner at encodes
    generalize G.choices = choices at encodes
    cases encodes with
    | only h => exact ⟨_, h, nofun, nofun⟩
    | several h => exact ⟨_, h, nofun, nofun⟩
  rcases List.mem_append.mp hi with hi | hi
  · obtain ⟨alt, hmade, hi⟩ := List.mem_flatMap.mp hi
    rcases List.mem_cons.mp hi with rfl | hi
    · obtain ⟨k, hk⟩ := List.mem_iff_getElem?.mp hmade
      obtain ⟨ctor, -, applies⟩ := forall₂_left h.laid.applied.flip hk
      obtain ⟨index, -, content⟩ := applies.content
      exact ⟨_, content, nofun, nofun⟩
    · obtain ⟨k, hk⟩ := List.mem_iff_getElem?.mp (List.mem_flatMap.mpr ⟨alt, hmade, hi⟩)
      obtain ⟨z, -, content⟩ := forall₂_left h.laid.fields hk
      exact ⟨_, content, nofun, nofun⟩
  · have encodes := h.encodes
    generalize G.terms = alternatives at encodes
    generalize G.inner = inner at encodes hi
    generalize G.choices = choices at encodes
    cases encodes with
    | only => exact absurd hi List.not_mem_nil
    | several _ nested => exact nested_held nested i hi

/-- A generator stays as long as only calls and variables of some type are changed. -/
theorem kept (h : G.Stands g s ctors) (kept : ∀ j d, Established d → g.Holds j d → g'.Holds j d) :
    G.Stands g' s ctors := by
  have same : ∀ i ∈ G.var.node :: G.nodes, g'.content? i = g.content? i ∧ i ∉ g'.free := fun i hi => by
    obtain ⟨d, hd, settled⟩ := h.held i hi
    have there := kept i d settled ⟨hd, h.unfree i hi⟩
    exact ⟨there.content.trans hd.symm, there.unfree⟩
  have made : ∀ i ∈ nodesOf G.plain, g'.content? i = g.content? i := fun i hi =>
    (same i (List.mem_cons_of_mem _ (List.mem_append_left _ hi))).1
  have inner : ∀ i ∈ G.inner, g'.content? i = g.content? i := fun i hi =>
    (same i (List.mem_cons_of_mem _ (List.mem_append_right _ hi))).1
  have var := (same G.var.node List.mem_cons_self).1
  refine ⟨?_, h.laid.congr made, h.count, h.apart, fun i hi => (same i hi).2⟩
  have encodes := h.encodes
  generalize G.terms = alternatives at encodes ⊢
  generalize G.inner = inner_ at encodes inner ⊢
  generalize G.choices = choices at encodes ⊢
  cases encodes with
  | only h => exact .only (var.trans h)
  | several h nested => exact .several (var.trans h) (nested.congr inner)

end Gen.Stands

/-! ## Reading generators back -/

theorem mapM_forall₂ {α β : Type} {f : α → Except Fault β} {l : List α} {l' : List β}
    (reads : List.Forall₂ (fun a b => f a = .ok b) l l') : l.mapM f = .ok l' := by
  induction reads with
  | nil => rfl
  | cons head _ ih =>
    rw [List.mapM_cons, head, ih]
    rfl

theorem nested_length {i : NodeId} {alternatives inner : List NodeId} {ids : List ChoiceId}
    (h : g.Nested i alternatives ids inner) :
    ids.length = inner.length ∧ alternatives.length = ids.length + 1 := by
  induction h with
  | last => exact ⟨rfl, rfl⟩
  | choice _ _ ih => exact ⟨congrArg (· + 1) ih.1, congrArg (· + 1) ih.2⟩

namespace Gen

/-- The pairs of fields in the same place of two generators. -/
def besides (G G' : Gen) : List (BoundVar × BoundVar) :=
  (G.made.zip G'.made).flatMap fun p => p.1.2.zip p.2.2

theorem besides_comm {u v : BoundVar} : (u, v) ∈ G.besides G' ↔ (v, u) ∈ G'.besides G := by
  have swap : ∀ (G G' : Gen) (u v : BoundVar), (u, v) ∈ G.besides G' → (v, u) ∈ G'.besides G := by
    intro G G' u v h
    obtain ⟨p, hp, here⟩ := List.mem_flatMap.mp h
    refine List.mem_flatMap.mpr ⟨p.swap, ?_, ?_⟩
    · rw [← List.zip_swap]
      exact List.mem_map_of_mem hp
    · rw [← List.zip_swap]
      exact List.mem_map.mpr ⟨(u, v), here, rfl⟩
  exact ⟨swap G G' u v, swap G' G v u⟩

theorem mem_of_besides {u v : BoundVar} (h : (u, v) ∈ G.besides G') : u ∈ G.fields ∧ v ∈ G'.fields := by
  obtain ⟨p, hp, here⟩ := List.mem_flatMap.mp h
  obtain ⟨left, right⟩ := List.of_mem_zip hp
  obtain ⟨hu, hv⟩ := List.of_mem_zip here
  exact ⟨List.mem_flatMap.mpr ⟨_, left, hu⟩, List.mem_flatMap.mpr ⟨_, right, hv⟩⟩

theorem variableOf_free {i z : Nat} {type : Option TypeId}
    (hi : m.graph.content? i = some (freeContent z type)) : m.variableOf i = .ok (some z) := by
  obtain ⟨slots, node, -⟩ := TermGraph.node_content (t := m.toTermGraph) hi
  have standing : Tag.free ≠ .forward := by decide
  simp only [TermGraph.variableOf, TermGraph.skip_self (t := m.toTermGraph) hi standing, bind, Except.bind]
  rw [node]
  rfl

namespace Stands

theorem field (h : G.Stands g s ctors) {u : BoundVar} (hu : u ∈ G.fields) :
    g.content? u.node = some (freeContent u.id none) := by
  have fields := h.laid.fields
  rw [G.plain_fields, Graph.Variables, List.forall₂_map_left_iff, List.forall₂_map_right_iff,
    List.forall₂_same] at fields
  exact fields u hu

theorem inner_le (h : G.Stands g s ctors) : G.inner.length ≤ g.capacity := by
  have nodup : G.inner.Nodup := (List.nodup_append.mp h.apart).2.1
  have within : G.inner ⊆ List.range g.capacity := fun i hi => by
    obtain ⟨d, hd, -⟩ := h.held i (List.mem_cons_of_mem _ (List.mem_append_right _ hi))
    exact List.mem_range.mpr (Graph.content_lt hd)
  have le := (List.subperm_of_subset nodup within).length_le
  rwa [List.length_range] at le

theorem lengths (h : G.Stands g s ctors) :
    G.made.length = ctors.length ∧ G.choices.length = ctors.length - 2 := by
  constructor
  · have length := h.laid.applied.length_eq
    rw [plain, List.length_map] at length
    exact length.symm
  · rw [← h.count]
    have encodes := h.encodes
    generalize G.terms = alternatives at encodes
    generalize G.inner = inner at encodes
    generalize G.choices = choices at encodes
    cases encodes with
    | only => rfl
    | several _ nested => exact (nested_length nested).1

section Machine

variable (hσ : m.signature.Sound) (listed : Listed m ctors) (h : G.Stands m.graph m.signature ctors)
  (h' : G'.Stands m.graph m.signature ctors)
include hσ listed h

theorem reads : Generator.ofVar m.toTermGraph G.var.node = .ok ⟨G.choices, G.terms⟩ := by
  refine ofVar_encodes hσ h.encodes ?_ h.inner_le
  rw [← G.plain_terms]
  exact laid_constructs listed h.laid

omit hσ in
theorem successors {a : NodeId × List BoundVar} (ha : a ∈ G.made) :
    m.successors a.1 = .ok ((a.2.map BoundVar.node).map some) := by
  obtain ⟨k, hk⟩ := List.mem_iff_getElem?.mp (List.mem_map_of_mem (f := fun a : NodeId × List BoundVar =>
    (a.1, a.2.map BoundVar.node)) ha)
  obtain ⟨ctor, hctor, applies⟩ := forall₂_left h.laid.applied.flip hk
  obtain ⟨index, -, content⟩ := applies.content
  obtain ⟨-, sym, type, _, found, -, arity⟩ := listed ctor (List.mem_of_getElem? hctor)
  exact TermGraph.successors_content (t := m.toTermGraph) content found (applies.arity.trans arity.symm)

omit hσ listed in
theorem symbols : G.terms.mapM m.symbolId = .ok (ctors.map Prod.fst) := by
  refine mapM_forall₂ ?_
  rw [← G.plain_terms, List.forall₂_map_left_iff, List.forall₂_map_right_iff]
  refine h.laid.applied.flip.imp fun alt ctor applies => ?_
  obtain ⟨index, -, content⟩ := applies.content
  exact TermGraph.symbolId_content (t := m.toTermGraph) content

include h'

omit hσ listed in
theorem same_shape : Generator.sameShape m.toTermGraph ⟨G.choices, G.terms⟩ ⟨G'.choices, G'.terms⟩ =
    .ok true := by
  have lengths : G.terms.length = G'.terms.length ∧ G.choices.length = G'.choices.length := by
    simp only [terms, List.length_map, h.lengths, h'.lengths, and_self]
  unfold Generator.sameShape
  simp only [lengths, and_self, if_true, h.symbols, h'.symbols, bind, Except.bind, decide_true]
  rfl

omit hσ in
theorem alternative_pairs {a a' : NodeId × List BoundVar} (ha : a ∈ G.made) (ha' : a' ∈ G'.made) :
    Generator.fieldPairs m.toTermGraph a.1 a'.1 = .ok (a.2.zip a'.2) := by
  have both : ((a.2.map BoundVar.node).map some).zip ((a'.2.map BoundVar.node).map some) =
      (a.2.zip a'.2).map fun q => (some q.1.node, some q.2.node) := by
    simp only [List.map_map, List.zip_map]
    rfl
  have found : ((a.2.zip a'.2).map fun q => (some q.1.node, some q.2.node)).mapM
      (fun q => Generator.fieldPair? m.toTermGraph q.1 q.2) = .ok ((a.2.zip a'.2).map some) := by
    refine mapM_forall₂ ?_
    rw [List.forall₂_map_left_iff, List.forall₂_map_right_iff, List.forall₂_same]
    intro q hq
    obtain ⟨hu, hv⟩ := List.of_mem_zip hq
    have first := variableOf_free (m := m) (h.field (List.mem_flatMap.mpr ⟨a, ha, hu⟩))
    have second := variableOf_free (m := m) (h'.field (List.mem_flatMap.mpr ⟨a', ha', hv⟩))
    simp only [Generator.fieldPair?, Link.target, first, second, bind, Except.bind, pure, Except.pure]
  have all : ((a.2.zip a'.2).map some).filterMap (fun p => p) = a.2.zip a'.2 := by
    rw [List.filterMap_map]
    exact List.filterMap_some
  simp only [Generator.fieldPairs, h.successors listed ha, h'.successors listed ha', both, found, all, bind,
    Except.bind, pure, Except.pure]

omit hσ in
theorem field_pairs : Generator.allFieldPairs m.toTermGraph ⟨G.choices, G.terms⟩ ⟨G'.choices, G'.terms⟩ =
    .ok (G.besides G') := by
  have pairs : (G.terms.zip G'.terms).mapM (fun p => Generator.fieldPairs m.toTermGraph p.1 p.2) =
      .ok ((G.made.zip G'.made).map fun p => p.1.2.zip p.2.2) := by
    refine mapM_forall₂ ?_
    rw [terms, terms, List.zip_map, List.forall₂_map_left_iff, List.forall₂_map_right_iff, List.forall₂_same]
    intro p hp
    obtain ⟨left, right⟩ := List.of_mem_zip hp
    exact h.alternative_pairs listed h' left right
  unfold Generator.allFieldPairs
  rw [pairs, besides, List.flatMap_def]
  rfl

end Machine

end Stands

end Gen

/-! ## What linking adds -/

/-- The binding of one variable to another, recorded under the first. -/
def tether (u v : BoundVar) : VarId × Binding := (u.id, ⟨u.node, v.node, false⟩)

theorem bind_adds (store : ConstraintStore) (u v : BoundVar) :
    store.bind u v false = { store with bindings := store.bindings ++ [tether u v, tether v u] } := by
  simp only [ConstraintStore.bind, ConstraintStore.addBinding, tether, List.append_assoc, List.cons_append,
    List.nil_append]
  rfl

theorem bindAll_adds (fields : List (BoundVar × BoundVar)) : ∀ store : ConstraintStore,
    fields.foldl (fun s p => s.bind p.1 p.2 false) store =
      { store with bindings := store.bindings ++ fields.flatMap fun p => [tether p.1 p.2, tether p.2 p.1] } := by
  induction fields with
  | nil =>
    intro store
    rw [List.foldl_nil, List.flatMap_nil, List.append_nil]
  | cons p fields ih =>
    intro store
    rw [List.foldl_cons, bind_adds, ih, List.flatMap_cons, List.append_assoc]

theorem linkConstraints_adds (x y : BoundVar) (a b : Generator) (fields : List (BoundVar × BoundVar))
    (store : ConstraintStore) : linkConstraints x y a b fields store =
      ⟨store.bindings ++ fields.flatMap fun p => [tether p.1 p.2, tether p.2 p.1],
        (store.tieAll ((x.id :: a.choices).zip (y.id :: b.choices))).ties⟩ := by
  have tied : ∀ (pairs : List (ChoiceId × ChoiceId)) (store : ConstraintStore),
      (store.tieAll pairs).bindings = store.bindings := by
    intro pairs
    induction pairs with
    | nil => exact fun _ => rfl
    | cons p pairs ih =>
      intro store
      exact (ih _).trans ConstraintStore.tie_bindings
  calc linkConstraints x y a b fields store
      = fields.foldl (fun s p => s.bind p.1 p.2 false)
          (store.tieAll ((x.id :: a.choices).zip (y.id :: b.choices))) := rfl
    _ = _ := by rw [bindAll_adds, tied]

/-- Two generators that are not linked yet are linked place by place. -/
theorem link_links {store : ConstraintStore} (hσ : m.signature.Sound) (listed : Listed m ctors)
    (h : G.Stands m.graph m.signature ctors) (h' : G'.Stands m.graph m.signature ctors)
    (front : m.frontConstraints? = some store) (untied : ¬ store.Tied G.var.id G'.var.id) :
    link G.var G'.var m = .ok () (m.mapInnermost fun c => c.updateConstraints 0
      (linkConstraints G.var G'.var ⟨G.choices, G.terms⟩ ⟨G'.choices, G'.terms⟩ (G.besides G'))) := by
  refine (bind_ok (show (get : Eff Machine) m = .ok m m from rfl)).trans ?_
  rw [front]
  dsimp only
  rw [if_neg untied]
  refine (bind_ok (look_ok (h.reads hσ listed))).trans ((bind_ok (look_ok (h'.reads hσ listed))).trans
    ((bind_ok (look_ok (h.same_shape h'))).trans ?_))
  rw [if_pos rfl]
  exact bind_ok (look_ok (h.field_pairs listed h'))

end ChoiceGraph.Reduction
