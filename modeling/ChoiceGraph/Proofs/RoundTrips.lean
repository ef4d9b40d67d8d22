import ChoiceGraph.Proofs.Bindings
import ChoiceGraph.Proofs.Copies
import ChoiceGraph.Proofs.Generators

/-! # Generators, built and read back

A generator is described once, as choices nested to the right. What narrowing builds fits the
description, and what fits the description is read back as the same alternatives and the same inner
choices. -/
namespace ChoiceGraph

namespace Graph

variable {g g' : Graph} {s : Signature} {i v : NodeId} {id next : Nat} {ids : List ChoiceId}
  {xs ys inner alternatives : List NodeId} {ctor : SymbolId × Nat} {alt : NodeId × List NodeId}

/-! ## What a generator is -/

/-- Alternatives under choices that are nested to the right, with the identifiers of the choices and
the choices themselves, from the outermost inward. -/
inductive Nested (g : Graph) : NodeId → List NodeId → List ChoiceId → List NodeId → Prop where
  | last (a : NodeId) : Nested g a [a] [] []
  | choice {i a below : NodeId} {id : ChoiceId} {alternatives inner : List NodeId}
    {ids : List ChoiceId} (h : g.content? i = some ⟨.choice, Builtin.choice, id, .links [a, below]⟩)
    (rest : Nested g below alternatives ids inner) :
    Nested g i (a :: alternatives) (id :: ids) (i :: inner)

/-- What a variable has become: an indirection to its only alternative, or the outermost choice, which
is marked as that of a variable and has the identifier of the variable. -/
inductive Encodes (g : Graph) (v : NodeId) (id : VarId) :
    List NodeId → List ChoiceId → List NodeId → Prop where
  | only {a : NodeId} (h : g.content? v = some ⟨.forward, Builtin.forward, 0, .links [a]⟩) :
    Encodes g v id [a] [] []
  | several {first below : NodeId} {rest inner : List NodeId} {ids : List ChoiceId}
    (h : g.content? v = some ⟨.choice, Builtin.narrowed, id, .links [first, below]⟩)
    (nested : Nested g below rest ids inner) : Encodes g v id (first :: rest) ids inner

/-- A constructor applied to as many nodes as it has arguments. -/
structure Applies (g : Graph) (s : Signature) (ctor : SymbolId × Nat) (alt : NodeId × List NodeId) :
    Prop where
  arity : alt.2.length = ctor.2
  content : ∃ index, s.tagFor ctor.1 = .ok (.constructor index) ∧
    g.content? alt.1 = some ⟨.constructor index, ctor.1, 0, .links alt.2⟩

/-- Variables of no type with these identifiers. -/
def Variables (g : Graph) : List NodeId → List VarId → Prop :=
  List.Forall₂ fun i z => g.content? i = some (Eff.freeContent z none)

/-- Alternatives in the order of their constructors, and the identifiers of all their fields. -/
structure Laid (g : Graph) (s : Signature) (ctors : List (SymbolId × Nat))
    (made : List (NodeId × List NodeId)) (vars : List VarId) : Prop where
  applied : List.Forall₂ (g.Applies s) ctors made
  fields : g.Variables (made.flatMap Prod.snd) vars

/-- The nodes of the alternatives and of their fields. -/
def nodesOf (made : List (NodeId × List NodeId)) : List NodeId := made.flatMap fun a => a.1 :: a.2

theorem Nested.congr (h : g.Nested i alternatives ids inner)
    (same : ∀ j ∈ inner, g'.content? j = g.content? j) : g'.Nested i alternatives ids inner := by
  induction h with
  | last a => exact .last a
  | choice h rest ih =>
    exact .choice ((same _ List.mem_cons_self).trans h)
      (ih fun j hj => same j (List.mem_cons_of_mem _ hj))

theorem Applies.congr (h : g.Applies s ctor alt) (same : g'.content? alt.1 = g.content? alt.1) :
    g'.Applies s ctor alt where
  arity := h.arity
  content := h.content.imp fun _ h => ⟨h.1, same.trans h.2⟩

theorem Variables.congr {zs : List VarId} (h : g.Variables xs zs)
    (same : ∀ j ∈ xs, g'.content? j = g.content? j) : g'.Variables xs zs := by
  induction h with
  | nil => exact .nil
  | cons head _ ih =>
    exact .cons ((same _ List.mem_cons_self).trans head) (ih fun j hj => same j (List.mem_cons_of_mem _ hj))

theorem Laid.congr {ctors : List (SymbolId × Nat)} {made : List (NodeId × List NodeId)}
    {vars : List VarId} (h : g.Laid s ctors made vars)
    (same : ∀ j ∈ nodesOf made, g'.content? j = g.content? j) : g'.Laid s ctors made vars where
  applied := by
    have applied := h.applied
    clear h
    induction applied with
    | nil => exact .nil
    | cons head _ ih =>
      rw [nodesOf, List.flatMap_cons] at same
      exact .cons (head.congr (same _ (by simp)))
        (ih fun j hj => same j (List.mem_append_right _ hj))
  fields := h.fields.congr fun j hj => by
    obtain ⟨a, ha, field⟩ := List.mem_flatMap.mp hj
    exact same j (List.mem_flatMap.mpr ⟨a, ha, List.mem_cons_of_mem _ field⟩)

end Graph

/-! ## Reading a generator back -/

namespace Reduction

open Graph (Nested Encodes)

variable {t : TermGraph} {i v : NodeId} {id : VarId} {ids : List ChoiceId}
  {inner alternatives : List NodeId}

/-- Every alternative is a constructor. -/
def Constructs (t : TermGraph) (alternatives : List NodeId) : Prop :=
  ∀ a ∈ alternatives, ∃ c, t.graph.content? a = some c ∧ c.IsData

/-- Neither a choice nor an alternative is an indirection. -/
theorem nested_ends (h : t.graph.Nested i alternatives ids inner) (built : Constructs t alternatives) :
    ∃ c, t.graph.content? i = some c ∧ c.tag ≠ .forward := by
  cases h with
  | last =>
    obtain ⟨c, hc, ⟨index, tag⟩, -⟩ := built i List.mem_cons_self
    exact ⟨c, hc, by simp [tag]⟩
  | choice h rest => exact ⟨_, h, by simp⟩

/-- The two links of a choice, when neither leads to an indirection. -/
theorem choice_links {symbol : SymbolId} {id a b : Nat} {c d : Content} (sig : t.signature.Sound)
    (hs : symbol = Builtin.choice ∨ symbol = Builtin.narrowed)
    (h : t.graph.content? i = some ⟨.choice, symbol, id, .links [a, b]⟩)
    (ha : t.graph.content? a = some c) (hb : t.graph.content? b = some d)
    (hc : c.tag ≠ .forward) (hd : d.tag ≠ .forward) :
    t.successorSkip i 0 = .ok a ∧ t.successorSkip i 1 = .ok b := by
  have fits : Content.Fits t.signature ⟨.choice, symbol, id, .links [a, b]⟩ := by
    rcases hs with rfl | rfl
    · exact .choice _ _ _
    · exact .narrowed _ _ _
  obtain ⟨sym, found, -, length⟩ := fits.symbol sig
  exact ⟨TermGraph.successorSkip_content h found length rfl ha hc,
    TermGraph.successorSkip_content h found length rfl hb hd⟩

theorem tailWithin_nested (sig : t.signature.Sound) (h : t.graph.Nested i alternatives ids inner) :
    ∀ bound, inner.length < bound → Constructs t alternatives →
      Generator.tailWithin t bound i = .ok ⟨ids, alternatives⟩ := by
  induction h with
  | last a =>
    intro bound lt built
    obtain ⟨c, hc, ⟨index, tag⟩, le⟩ := built a List.mem_cons_self
    obtain ⟨slots, node, -⟩ := TermGraph.node_content hc
    have other : c.symbol ≠ Builtin.choice := by
      intro same
      rw [same] at le
      exact absurd le (by decide)
    cases bound with
    | zero => exact absurd lt (Nat.not_lt_zero _)
    | succ bound =>
      unfold Generator.tailWithin
      simp only [node, bind, Except.bind, tag]
      rw [if_neg other]
      rfl
  | @choice i a below id alternatives inner ids h rest ih =>
    intro bound lt built
    have built' : Constructs t alternatives := fun b hb => built b (List.mem_cons_of_mem _ hb)
    obtain ⟨c, hc, ⟨index, tag⟩, -⟩ := built a List.mem_cons_self
    obtain ⟨d, hd, ends⟩ := nested_ends rest built'
    obtain ⟨left, right⟩ := choice_links sig (.inl rfl) h hc hd (by simp [tag]) ends
    obtain ⟨slots, node, -⟩ := TermGraph.node_content h
    cases bound with
    | zero => exact absurd lt (Nat.not_lt_zero _)
    | succ bound =>
      have below := ih bound (Nat.lt_of_succ_lt_succ lt) built'
      unfold Generator.tailWithin
      simp only [node, left, right, below, bind, Except.bind]
      rfl

/-- A generator is read back as it was built. -/
theorem ofVar_encodes (sig : t.signature.Sound) (h : t.graph.Encodes v id alternatives ids inner)
    (built : Constructs t alternatives) (few : inner.length ≤ t.graph.capacity) :
    Generator.ofVar t v = .ok ⟨ids, alternatives⟩ := by
  cases h with
  | only h =>
    next a =>
    obtain ⟨c, hc, ⟨index, tag⟩, le⟩ := built a List.mem_cons_self
    have other : c.symbol ≠ Builtin.narrowed := by
      intro same
      rw [same] at le
      exact absurd le (by decide)
    have skip : t.skip v = .ok a := TermGraph.skip_forward h hc (by simp [tag])
    unfold Generator.ofVar
    simp only [skip, TermGraph.symbolId_content hc, bind, Except.bind]
    rw [if_neg other]
    simp only [TermGraph.tag_content hc, tag]
    rfl
  | several h nested =>
    next first below rest =>
    have built' : Constructs t rest := fun b hb => built b (List.mem_cons_of_mem _ hb)
    obtain ⟨c, hc, ⟨index, tag⟩, -⟩ := built first List.mem_cons_self
    obtain ⟨d, hd, ends⟩ := nested_ends nested built'
    obtain ⟨left, right⟩ := choice_links sig (.inr rfl) h hc hd (by simp [tag]) ends
    have skip : t.skip v = .ok v := TermGraph.skip_self h (by simp)
    have tail := tailWithin_nested sig nested t.depthBound (Nat.lt_succ_of_le few) built'
    unfold Generator.ofVar
    simp only [skip, TermGraph.symbolId_content h, left, right, tail, bind, Except.bind]
    rfl

end Reduction

/-! ## Building a generator -/

namespace Machine

variable {m : Machine} {g g' : Graph} {j k : Nat}

/-- The machine with another graph, after `k` more identifiers were given out. -/
def drawn (m : Machine) (g : Graph) (k : Nat) : Machine :=
  { m with graph := g, nextId := m.nextId + k }

@[simp] theorem drawn_graph : (m.drawn g k).graph = g := rfl

@[simp] theorem drawn_signature : (m.drawn g k).signature = m.signature := rfl

@[simp] theorem drawn_nextId : (m.drawn g k).nextId = m.nextId + k := rfl

@[simp] theorem drawn_setGraph : (m.drawn g k).setGraph g' = m.drawn g' k := rfl

@[simp] theorem drawn_drawn : (m.drawn g j).drawn g' k = m.drawn g' (j + k) := by
  simp only [drawn, Nat.add_assoc]

theorem drawn_zero : m.drawn m.graph 0 = m := rfl

end Machine

namespace Reduction

open Eff Machine Graph

variable {m : Machine}

theorem freshId_drawn (m : Machine) : freshId m = .ok m.nextId (m.drawn m.graph 1) := rfl

theorem makeFields_made : ∀ (ids : List NodeId) (m : Machine), m.graph.Sound → ids.Nodup →
    (∀ i ∈ ids, i < m.graph.capacity) →
    ∃ g, makeFields ids m = .ok () (m.drawn g ids.length) ∧ m.graph.Leaves (· ∈ ids) g ∧
      g.Variables ids (List.range' m.nextId ids.length) := by
  intro ids
  induction ids with
  | nil => exact fun m sound _ _ => ⟨m.graph, rfl, .refl sound, .nil⟩
  | cons i ids ih =>
    intro m sound nodup lt
    obtain ⟨absent, nodup⟩ := List.nodup_cons.mp nodup
    obtain ⟨g, first, w⟩ := rewriteFree_wrote (m := m.drawn m.graph 1) sound
      (lt i List.mem_cons_self) m.nextId
    have room : ∀ j ∈ ids, j < g.capacity := fun j hj =>
      w.capacity.symm ▸ lt j (List.mem_cons_of_mem _ hj)
    obtain ⟨g', later, leaves, vars⟩ := ih (m.drawn g 1) w.sound nodup room
    refine ⟨g', ?_, ?_, ?_⟩
    · refine (bind_ok (freshId_drawn m)).trans ((bind_ok first).trans (later.trans ?_))
      rw [drawn_drawn, List.length_cons, Nat.add_comm]
    · exact (w.leaves.mono fun j hj => hj ▸ List.mem_cons_self).trans
        (leaves.mono fun j hj => List.mem_cons_of_mem _ hj)
    · rw [List.length_cons, List.range'_succ]
      exact .cons ((leaves.content absent).trans w.same) vars

theorem spread_cons (symbol : SymbolId) (arity : Nat) (ctors : List (SymbolId × Nat)) :
    spread ((symbol, arity) :: ctors) = arity + spread ctors + 1 := by
  simp only [spread, fieldCount, List.length_cons]
  omega

/-- One constructor with its fields. It is refused when there is no pool for so many links. -/
theorem alternative_made (node : NodeId) (fields : List NodeId) {symbol : SymbolId} {index : Nat}
    (sound : m.graph.Sound) (nodup : (node :: fields).Nodup)
    (lt : ∀ i ∈ node :: fields, i < m.graph.capacity)
    (tag : m.signature.tagFor symbol = .ok (.constructor index)) :
    ∃ g, m.graph.Leaves (· ∈ node :: fields) g ∧
      ((Fitting m fields.length ∧
        (makeFields fields >>= fun _ => rewriteTo node symbol (fields.map some)) m =
          .ok () (m.drawn g fields.length) ∧
        g.Applies m.signature (symbol, fields.length) (node, fields) ∧
        g.Variables fields (List.range' m.nextId fields.length)) ∨
      (¬ Fitting m fields.length ∧
        (makeFields fields >>= fun _ => rewriteTo node symbol (fields.map some)) m =
          .error (.fatal (.arityOutOfRange fields.length m.graph.pools.size))
            (m.drawn g fields.length))) := by
  obtain ⟨absent, distinct⟩ := List.nodup_cons.mp nodup
  obtain ⟨g₁, first, leaves, vars⟩ := makeFields_made fields m sound distinct
    fun i hi => lt i (List.mem_cons_of_mem _ hi)
  have leaves₁ : m.graph.Leaves (· ∈ node :: fields) g₁ :=
    leaves.mono fun i hi => List.mem_cons_of_mem _ hi
  have writes : rewriteTo node symbol (fields.map some) (m.drawn g₁ fields.length) =
      rewrite node (.constructor index) symbol 0 (fields.map some) (m.drawn g₁ fields.length) :=
    bind_ok (look_ok tag)
  have same : Fitting (m.drawn g₁ fields.length) fields.length ↔ Fitting m fields.length := by
    simp only [Fitting, drawn_graph, leaves.pools]
  by_cases fits : Fitting m fields.length
  · obtain ⟨g₂, second, w⟩ := rewrite_wrote (m := m.drawn g₁ fields.length) leaves.sound
      (leaves.capacity.symm ▸ lt node List.mem_cons_self) (.constructor index) symbol 0 fields
      (same.mpr fits)
    refine ⟨g₂, leaves₁.trans (w.leaves.mono fun i hi => hi ▸ List.mem_cons_self), .inl ⟨fits, ?_, ?_, ?_⟩⟩
    · exact (bind_ok first).trans (writes.trans second)
    · exact ⟨rfl, index, tag, w.same⟩
    · exact vars.congr fun i hi => w.others i fun here => absent (here ▸ hi)
  · refine ⟨g₁, leaves₁, .inr ⟨fits, (bind_ok first).trans (writes.trans ?_)⟩⟩
    have refused := rewrite_refused (m := m.drawn g₁ fields.length) (i := node) (.constructor index)
      symbol 0 (fields.map some) (by rwa [List.length_map, same])
    rwa [List.length_map, drawn_graph, leaves.pools] at refused

/-- The alternatives are built out of the first nodes, or an arity for which there is no pool is met. -/
inductive Assembled (m : Machine) (ctors : List (SymbolId × Nat)) (fresh : List NodeId) :
    EStateM.Result Stop Machine (List NodeId × List NodeId) → Prop
  | made {g : Graph} {made : List (NodeId × List NodeId)} (leaves : m.graph.Leaves (· ∈ fresh) g)
    (laid : g.Laid m.signature ctors made (List.range' m.nextId (fieldCount ctors)))
    (nodes : nodesOf made = fresh.take (spread ctors)) :
    Assembled m ctors fresh
      (.ok (made.map Prod.fst, fresh.drop (spread ctors)) (m.drawn g (fieldCount ctors)))
  | refused {g : Graph} {k : Nat} {ctor : SymbolId × Nat} (mem : ctor ∈ ctors)
    (unfit : ¬ Fitting m ctor.2) (leaves : m.graph.Leaves (· ∈ fresh) g) :
    Assembled m ctors fresh (.error (.fatal (.arityOutOfRange ctor.2 m.graph.pools.size)) (m.drawn g k))

theorem buildAlternatives_assembled : ∀ (ctors : List (SymbolId × Nat)) (fresh : List NodeId)
    (m : Machine), m.graph.Sound → Listed m ctors → fresh.Nodup →
    (∀ i ∈ fresh, i < m.graph.capacity) → spread ctors ≤ fresh.length →
    Assembled m ctors fresh (buildAlternatives ctors fresh m) := by
  intro ctors
  induction ctors with
  | nil => exact fun fresh m sound _ _ _ _ => .made (.refl sound) ⟨.nil, .nil⟩ rfl
  | cons ctor ctors ih =>
    intro fresh m sound listed nodup lt enough
    obtain ⟨symbol, arity⟩ := ctor
    cases fresh with
    | nil => exact absurd enough (by simp [spread])
    | cons node fresh =>
      simp only [spread, fieldCount, List.length_cons] at enough
      obtain ⟨le, sym, type, index, found, hctor, harity⟩ := listed (symbol, arity) List.mem_cons_self
      have size : (fresh.take arity).length = arity := by
        rw [List.length_take]
        omega
      have taken : (node :: fresh.take arity).Sublist (node :: fresh) :=
        (List.take_sublist _ _).cons_cons node
      have below : ∀ i ∈ fresh.drop arity, i ∈ node :: fresh :=
        fun i hi => List.mem_cons_of_mem _ (List.mem_of_mem_drop hi)
      obtain ⟨g₁, leaves, built⟩ := alternative_made node (fresh.take arity) sound
        (nodup.sublist taken) (fun i hi => lt i (taken.subset hi))
        (Signature.Symbol.IsConstructor.tagFor found hctor)
      have leaves₁ : m.graph.Leaves (· ∈ node :: fresh) g₁ := leaves.mono fun i hi => taken.subset hi
      rw [size] at built
      unfold buildAlternatives
      dsimp only
      rw [← bind_assoc]
      rcases built with ⟨fits, run, applied, vars⟩ | ⟨unfit, run⟩
      · rw [bind_ok run]
        have rest := ih (fresh.drop arity) (m.drawn g₁ arity) leaves₁.sound
          (fun p hp => listed p (List.mem_cons_of_mem _ hp))
          ((List.nodup_cons.mp nodup).2.sublist (List.drop_sublist _ _))
          (fun i hi => leaves₁.capacity.symm ▸ lt i (below i hi))
          (by simp only [spread, List.length_drop]; omega)
        generalize later : buildAlternatives ctors (fresh.drop arity) (m.drawn g₁ arity) = result at rest
        cases rest with
        | refused mem unfit leaves₂ =>
          rw [bind_error later, drawn_drawn, drawn_graph, leaves₁.pools]
          refine .refused (List.mem_cons_of_mem _ mem) ?_ (leaves₁.trans (leaves₂.mono below))
          simpa only [Fitting, drawn_graph, leaves₁.pools] using unfit
        | made leaves₂ laid nodes =>
          next g₂ made =>
          -- what is built later is elsewhere
          have kept : ∀ i ∈ node :: fresh.take arity, g₂.content? i = g₁.content? i := by
            intro i hi
            apply leaves₂.content
            have apart := nodup
            rw [← List.take_append_drop arity fresh, ← List.cons_append] at apart
            exact List.disjoint_of_nodup_append apart hi
          rw [bind_ok later, drawn_drawn]
          have left : (fresh.drop arity).drop (spread ctors) =
              (node :: fresh).drop (spread ((symbol, arity) :: ctors)) := by
            rw [List.drop_drop, spread_cons, List.drop_succ_cons]
          dsimp only
          rw [left]
          show Assembled m ((symbol, arity) :: ctors) (node :: fresh)
            (.ok (((node, fresh.take arity) :: made).map Prod.fst, _) (m.drawn g₂ _))
          refine .made (leaves₁.trans (leaves₂.mono below))
            ⟨.cons (applied.congr (kept node List.mem_cons_self)) laid.applied, ?_⟩ ?_
          · have first := vars.congr fun i hi => kept i (List.mem_cons_of_mem _ hi)
            rw [fieldCount, List.flatMap_cons, ← List.range'_append_1]
            exact List.rel_append first laid.fields
          · rw [nodesOf, List.flatMap_cons, ← nodesOf, nodes, spread_cons, List.take_succ_cons, List.take_add]
            rfl
      · rw [bind_error run]
        exact .refused List.mem_cons_self unfit leaves₁

/-- The inner choices are built from the innermost outward. -/
theorem nestChoices_nested : ∀ (others : List NodeId) (first : NodeId) (fresh : List NodeId)
    (m : Machine), m.graph.Sound → fresh.Nodup → (∀ i ∈ fresh, i < m.graph.capacity) →
    others.length ≤ fresh.length →
    ∃ g top, nestChoices (first :: others) fresh m =
        .ok (top, fresh.drop others.length) (m.drawn g others.length) ∧
      m.graph.Leaves (· ∈ fresh) g ∧
      g.Nested top (first :: others) (List.range' m.nextId others.length).reverse
        (fresh.take others.length).reverse := by
  intro others
  induction others with
  | nil => exact fun first fresh m sound _ _ _ => ⟨m.graph, first, rfl, .refl sound, .last first⟩
  | cons second others ih =>
    intro first fresh m sound nodup lt enough
    rw [List.length_cons] at enough
    obtain ⟨g₁, below, nested, leaves₁, rest⟩ := ih second fresh m sound nodup lt
      (Nat.le_of_succ_le enough)
    have next : fresh.drop others.length =
        fresh[others.length] :: fresh.drop (others.length + 1) := List.drop_eq_getElem_cons enough
    have mem : fresh[others.length] ∈ fresh := List.getElem_mem enough
    obtain ⟨g₂, written, w⟩ := rewrite_wrote (m := m.drawn g₁ (others.length + 1)) leaves₁.sound
      (leaves₁.capacity.symm ▸ lt _ mem) .choice Builtin.choice (m.nextId + others.length)
      [first, below] (.inl (by simp [inlineBound]))
    refine ⟨g₂, fresh[others.length], ?_, ?_, ?_⟩
    · unfold nestChoices
      rw [bind_ok nested, next]
      dsimp only
      rw [bind_ok (freshId_drawn _), drawn_drawn]
      exact (bind_ok written).trans rfl
    · exact leaves₁.trans (w.leaves.mono fun i hi => hi ▸ mem)
    · rw [List.length_cons, List.range'_1_concat, List.reverse_concat, List.take_succ_eq_append_getElem enough,
        List.reverse_concat]
      refine .choice w.same (rest.congr fun j hj => w.others j ?_)
      -- the node of this choice comes after those of the others
      have apart : fresh[others.length] ∉ fresh.take others.length := by
        have split := nodup
        rw [← List.take_append_drop others.length fresh, next] at split
        exact fun here => List.disjoint_of_nodup_append split here List.mem_cons_self
      rintro rfl
      exact apart (List.mem_reverse.mp hj)

/-! ## Narrowing -/

variable {m' m₁ : Machine} {v : NodeId} {id : VarId} {type : Option TypeId} {t : TypeId} {g : Graph}
  {ctors : List (SymbolId × Nat)} {made : List (NodeId × List NodeId)} {nodes inner : List NodeId}

/-- The constructors of a type in the order of their declaration, each with its arity. -/
structure Declares (m : Machine) (t : TypeId) (ctors : List (SymbolId × Nat)) : Prop where
  declared : ∃ d, m.signature.types[t]? = some d ∧ ctors.map Prod.fst = d.constructors
  arities : ∀ p ∈ ctors, ∃ sym, m.signature.symbol? p.1 = some sym ∧ sym.arity = p.2

/-- A variable has become the generator of these constructors. Its nodes are those of one request, its
identifiers are the next ones, and it is read back as it is. -/
structure Generated (m : Machine) (v : NodeId) (id : VarId) (ctors : List (SymbolId × Nat))
    (m' : Machine) (made : List (NodeId × List NodeId)) (vars : List VarId) (ids : List ChoiceId)
    (inner : List NodeId) : Prop where
  encodes : m'.graph.Encodes v id (made.map Prod.fst) ids inner
  laid : m'.graph.Laid m.signature ctors made vars
  distinct : (vars ++ ids).Nodup
  unused : ∀ z, z ∈ vars ++ ids ↔ m.nextId ≤ z ∧ z < m'.nextId
  count : inner.length = ctors.length - 2
  size : (nodesOf made ++ inner).length = generatorSize ctors
  apart : (nodesOf made ++ inner).Nodup
  requested : ∃ nodes m₁, allocateBeside v (generatorSize ctors) m = .ok nodes m₁ ∧
    (nodesOf made ++ inner).Perm nodes ∧ m'.graph.free = m₁.graph.free
  fresh : ∀ i ∈ nodesOf made ++ inner,
    ¬ m.graph.Reach (some v :: m.rootSet) i ∧ i ∉ m'.graph.free
  reads : Generator.ofVar m'.toTermGraph v = .ok ⟨ids, made.map Prod.fst⟩
  others : m.Untouched (fun i => m.graph.Reach (some v :: m.rootSet) i ∧ i ≠ v) m'

/-- Whatever narrowing a variable comes to. -/
inductive Narrowed (m : Machine) (v : NodeId) (id : VarId) :
    Option TypeId → EStateM.Result Stop Machine Nat → Prop
  | suspended : Narrowed m v id none (.error (.suspended id) m)
  | failure {t : TypeId} {g : Graph} (declares : Declares m t []) (blank : g.content? v = some .blank)
    (free : g.free = m.graph.free)
    (others : m.Untouched (fun i => m.graph.Reach (some v :: m.rootSet) i ∧ i ≠ v) (m.setGraph g)) :
    Narrowed m v id (some t) (.ok 0 (m.setGraph g))
  | generator {t : TypeId} {ctors : List (SymbolId × Nat)} {m' : Machine}
    {made : List (NodeId × List NodeId)} {vars : List VarId} {ids : List ChoiceId}
    {inner : List NodeId} (declares : Declares m t ctors) (filled : ctors ≠ [])
    (generated : Generated m v id ctors m' made vars ids inner) :
    Narrowed m v id (some t) (.ok ctors.length m')
  | exhausted {t : TypeId} {ctors : List (SymbolId × Nat)} {live capacity : Nat} {m' : Machine}
    (declares : Declares m t ctors) (filled : ctors ≠ [])
    (untouched : m.Untouched (m.graph.Reach (some v :: m.rootSet)) m') :
    Narrowed m v id (some t) (.error (.fatal (.exhausted (generatorSize ctors) live capacity)) m')
  | refused {t : TypeId} {ctors : List (SymbolId × Nat)} {ctor : SymbolId × Nat} {m' : Machine}
    (declares : Declares m t ctors) (mem : ctor ∈ ctors) (unfit : ¬ Fitting m ctor.2)
    (untouched : m.Untouched (m.graph.Reach (some v :: m.rootSet)) m') :
    Narrowed m v id (some t) (.error (.fatal (.arityOutOfRange ctor.2 m.graph.pools.size)) m')

theorem laid_constructs {t : TermGraph} {vars : List VarId} (listed : Listed m ctors)
    (laid : t.graph.Laid m.signature ctors made vars) : Constructs t (made.map Prod.fst) := by
  intro a ha
  obtain ⟨alt, hmade, rfl⟩ := List.mem_map.mp ha
  have applied := laid.applied
  clear laid ha
  induction applied with
  | nil => exact absurd hmade List.not_mem_nil
  | cons head _ ih =>
    rcases List.mem_cons.mp hmade with rfl | later
    · obtain ⟨index, -, content⟩ := head.content
      exact ⟨_, content, ⟨index, rfl⟩, (listed _ List.mem_cons_self).1⟩
    · exact ih (fun p hp => listed p (List.mem_cons_of_mem _ hp)) later

/-- Nodes for the generator of a variable. -/
structure Supply (m : Machine) (v : NodeId) (ctors : List (SymbolId × Nat)) (nodes : List NodeId) :
    Prop where
  sound : m.graph.Sound
  nodup : nodes.Nodup
  size : nodes.length = generatorSize ctors
  lt : ∀ i ∈ nodes, i < m.graph.capacity
  above : v < m.graph.capacity
  apart : v ∉ nodes

/-- Builds a generator out of the nodes for it. -/
def fillGenerator (v : NodeId) (id : VarId) (ctors : List (SymbolId × Nat)) (nodes : List NodeId) :
    Eff Nat := do
  let (alternatives, fresh) ← buildAlternatives ctors nodes
  match alternatives with
  | [] => fault .dangling
  | [only] => rewriteForward v (some only)
  | first :: rest =>
    let (below, _) ← nestChoices rest fresh
    rewrite v .choice Builtin.narrowed id [some first, some below]
  return ctors.length

/-- The generator is built out of these nodes, and of no other one, or an arity for which there is no
pool is met. -/
inductive Filled (m : Machine) (v : NodeId) (id : VarId) (ctors : List (SymbolId × Nat))
    (nodes : List NodeId) : EStateM.Result Stop Machine Nat → Prop
  | built {g : Graph} {made : List (NodeId × List NodeId)} {inner : List NodeId}
    (leaves : m.graph.Leaves (fun i => i ∈ nodes ∨ i = v) g) (count : inner.length = ctors.length - 2)
    (encodes : g.Encodes v id (made.map Prod.fst)
      (List.range' (m.nextId + fieldCount ctors) inner.length).reverse inner)
    (laid : g.Laid m.signature ctors made (List.range' m.nextId (fieldCount ctors)))
    (perm : (nodesOf made ++ inner).Perm nodes) :
    Filled m v id ctors nodes (.ok ctors.length (m.drawn g (fieldCount ctors + inner.length)))
  | refused {g : Graph} {k : Nat} {ctor : SymbolId × Nat} (mem : ctor ∈ ctors)
    (unfit : ¬ Fitting m ctor.2) (leaves : m.graph.Leaves (· ∈ nodes) g) :
    Filled m v id ctors nodes (.error (.fatal (.arityOutOfRange ctor.2 m.graph.pools.size)) (m.drawn g k))

/-- The only alternative takes the place of the variable. -/
theorem filled_only (id : VarId) {alt : NodeId × List NodeId} (supply : Supply m v ctors nodes)
    (leaves : m.graph.Leaves (· ∈ nodes) g)
    (laid : g.Laid m.signature ctors [alt] (List.range' m.nextId (fieldCount ctors)))
    (first : nodesOf [alt] = nodes.take (spread ctors)) :
    ∃ m', rewriteForward v (some alt.1) (m.drawn g (fieldCount ctors)) = .ok () m' ∧
      Filled m v id ctors nodes (.ok ctors.length m') := by
  have one : ctors.length = 1 := laid.applied.length_eq
  obtain ⟨g', written, w⟩ := rewriteForward_wrote (m := m.drawn g (fieldCount ctors)) leaves.sound
    (leaves.capacity.symm ▸ supply.above) alt.1
  have all : nodesOf [alt] = nodes := by
    rw [first]
    apply List.take_of_length_le
    rw [supply.size, generatorSize, spread]
    omega
  have encodes : g'.Encodes v id ([alt].map Prod.fst)
      (List.range' (m.nextId + fieldCount ctors) ([] : List NodeId).length).reverse [] := .only w.same
  refine ⟨_, written, .built ?_ (by simp [one]) encodes (laid.congr fun i hi => w.others i ?_)
    (by simp [all])⟩
  · exact (leaves.mono fun _ hi => .inl hi).trans (w.leaves.mono fun _ hi => .inr hi)
  · rintro rfl
    exact supply.apart (all ▸ hi)

/-- The variable becomes the outermost choice, above the choices between the other alternatives. -/
theorem filled_several (id : VarId) {one two : NodeId × List NodeId}
    {more : List (NodeId × List NodeId)} (supply : Supply m v ctors nodes)
    (leaves : m.graph.Leaves (· ∈ nodes) g)
    (laid : g.Laid m.signature ctors (one :: two :: more) (List.range' m.nextId (fieldCount ctors)))
    (first : nodesOf (one :: two :: more) = nodes.take (spread ctors)) :
    ∃ m₁ m₂ below left,
      nestChoices (two.1 :: more.map Prod.fst) (nodes.drop (spread ctors))
        (m.drawn g (fieldCount ctors)) = .ok (below, left) m₁ ∧
      rewrite v .choice Builtin.narrowed id [some one.1, some below] m₁ = .ok () m₂ ∧
      Filled m v id ctors nodes (.ok ctors.length m₂) := by
  have count : ctors.length = more.length + 2 := laid.applied.length_eq
  have rest : (nodes.drop (spread ctors)).length = more.length := by
    rw [List.length_drop, supply.size, generatorSize, spread]
    omega
  have dropped : ∀ i ∈ nodes.drop (spread ctors), i ∈ nodes := fun _ hi => List.mem_of_mem_drop hi
  obtain ⟨g₁, below, nested, leaves₁, chain⟩ := nestChoices_nested (more.map Prod.fst) two.1
    (nodes.drop (spread ctors)) (m.drawn g (fieldCount ctors)) leaves.sound
    (supply.nodup.sublist (List.drop_sublist _ _))
    (fun i hi => leaves.capacity.symm ▸ supply.lt i (dropped i hi)) (by simp [rest])
  rw [List.length_map] at nested chain
  rw [drawn_drawn] at nested
  rw [drawn_nextId, List.take_of_length_le rest.le] at chain
  have leaves₂ : m.graph.Leaves (· ∈ nodes) g₁ := leaves.trans (leaves₁.mono dropped)
  obtain ⟨g₂, written, w⟩ := rewrite_wrote (m := m.drawn g₁ (fieldCount ctors + more.length))
    leaves₂.sound (leaves₂.capacity.symm ▸ supply.above) .choice Builtin.narrowed id [one.1, below]
    (.inl (by simp [inlineBound]))
  -- neither the inner choices nor the variable are among what was laid out before
  have kept : ∀ i ∈ nodesOf (one :: two :: more), g₂.content? i = g.content? i := by
    intro i hi
    rw [first] at hi
    have other : i ≠ v := fun here => supply.apart (here ▸ List.mem_of_mem_take hi)
    have apart := List.disjoint_take_drop supply.nodup (Nat.le_refl (spread ctors)) hi
    exact (w.others i other).trans (leaves₁.content apart)
  have nodes_eq : (nodesOf (one :: two :: more) ++ (nodes.drop (spread ctors)).reverse).Perm nodes := by
    rw [first]
    have reversed := (List.reverse_perm (nodes.drop (spread ctors))).append_left
      (nodes.take (spread ctors))
    rwa [List.take_append_drop] at reversed
  have inner : (nodes.drop (spread ctors)).reverse.length = more.length := by
    rw [List.length_reverse, rest]
  have encodes : g₂.Encodes v id ((one :: two :: more).map Prod.fst)
      (List.range' (m.nextId + fieldCount ctors) (nodes.drop (spread ctors)).reverse.length).reverse
      (nodes.drop (spread ctors)).reverse := by
    rw [inner]
    refine .several w.same (chain.congr fun i hi => w.others i ?_)
    rintro rfl
    exact supply.apart (dropped i (List.mem_reverse.mp hi))
  have filled := Filled.built
    ((leaves₂.mono fun _ hi => .inl hi).trans (w.leaves.mono fun _ hi => .inr hi))
    (by rw [inner, count]; rfl) encodes (laid.congr kept) nodes_eq
  rw [inner] at filled
  exact ⟨_, _, below, _, nested, written, filled⟩

theorem fillGenerator_filled (id : VarId) (supply : Supply m v ctors nodes) (listed : Listed m ctors)
    (some_ : ctors ≠ []) : Filled m v id ctors nodes (fillGenerator v id ctors nodes m) := by
  have built := buildAlternatives_assembled ctors nodes m supply.sound listed supply.nodup supply.lt
    (by rw [supply.size, generatorSize, spread]; omega)
  unfold fillGenerator
  generalize laidOut : buildAlternatives ctors nodes m = result at built
  cases built with
  | refused mem unfit leaves =>
    rw [bind_error laidOut]
    exact .refused mem unfit leaves
  | made leaves laid first =>
    next g made =>
    rw [bind_ok laidOut]
    rcases made with _ | ⟨one, _ | ⟨two, more⟩⟩
    · exact absurd (List.length_eq_zero_iff.mp laid.applied.length_eq) some_
    · obtain ⟨m', written, filled⟩ := filled_only id supply leaves laid first
      rw [List.map_cons, List.map_nil]
      dsimp only
      rw [bind_ok written]
      exact filled
    · obtain ⟨m₂, m₃, below, left, nested, written, filled⟩ := filled_several id supply leaves laid first
      rw [List.map_cons, List.map_cons]
      dsimp only
      rw [bind_ok nested]
      dsimp only
      rw [bind_ok written]
      exact filled

/-- What a request has to hand out for a generator. -/
theorem supply_of_grants (grants : m.graph.Grants (some v :: m.rootSet) (generatorSize ctors) nodes g)
    (lt : v < g.capacity) : Supply (m₁.setGraph g) v ctors nodes where
  sound := grants.sound
  nodup := grants.serves.nodup
  size := grants.serves.length
  lt := grants.lt
  above := lt
  apart hi := grants.serves.unreached v hi (.root List.mem_cons_self)

/-- What has been built of the nodes of a request. -/
theorem generated_of (id : VarId) (made : List (NodeId × List NodeId)) (inner : List NodeId)
    (s : m.Spared (some v :: m.rootSet) m₁)
    (grants : m.graph.Grants (some v :: m.rootSet) (generatorSize ctors) nodes m₁.graph)
    (run : allocateBeside v (generatorSize ctors) m = .ok nodes m₁) (sig : m.signature.Sound)
    (listed : Listed m ctors) (leaves : m₁.graph.Leaves (fun i => i ∈ nodes ∨ i = v) g)
    (count : inner.length = ctors.length - 2)
    (encodes : g.Encodes v id (made.map Prod.fst)
      (List.range' (m.nextId + fieldCount ctors) inner.length).reverse inner)
    (laid : g.Laid m.signature ctors made (List.range' m.nextId (fieldCount ctors)))
    (perm : (nodesOf made ++ inner).Perm nodes) :
    Generated m v id ctors (m₁.drawn g (fieldCount ctors + inner.length)) made
      (List.range' m.nextId (fieldCount ctors))
      (List.range' (m.nextId + fieldCount ctors) inner.length).reverse inner := by
  have size : (nodesOf made ++ inner).length = generatorSize ctors :=
    perm.length_eq.trans grants.serves.length
  have apart : (nodesOf made ++ inner).Nodup := perm.nodup_iff.mpr grants.serves.nodup
  have few : inner.length ≤ g.capacity := by
    have sub : inner ⊆ List.range g.capacity := fun i hi => by
      rw [List.mem_range, leaves.capacity]
      exact grants.lt i (perm.subset (List.mem_append_right _ hi))
    have nodup : inner.Nodup := apart.sublist (List.sublist_append_right _ _)
    simpa using (nodup.subperm sub).length_le
  have all : List.range' m.nextId (fieldCount ctors) ++
      List.range' (m.nextId + fieldCount ctors) inner.length =
      List.range' m.nextId (fieldCount ctors + inner.length) := List.range'_append_1
  have ids := (List.reverse_perm (List.range' (m.nextId + fieldCount ctors) inner.length)).append_left
    (List.range' m.nextId (fieldCount ctors))
  rw [all] at ids
  refine ⟨encodes, laid, ids.nodup_iff.mpr List.nodup_range', fun z => ?_, count, size, apart,
    ⟨nodes, m₁, run, perm, leaves.free⟩, fun i hi => ⟨?_, ?_⟩, ?_, s.leaves leaves ?_ rfl rfl⟩
  · rw [ids.mem_iff, List.mem_range'_1, drawn_nextId, s.nextId]
  · exact grants.serves.unreached i (perm.subset hi)
  · rw [drawn_graph, leaves.free]
    exact grants.unfree i (perm.subset hi)
  · refine ofVar_encodes ?_ encodes (laid_constructs listed laid) few
    exact s.signature.symm ▸ sig
  · rintro i ⟨reached, other⟩
    exact ⟨reached, fun hi => hi.elim (fun hi => grants.serves.unreached i hi reached) other⟩

/-- Narrowing a variable with constructors is a request and what is built of it. -/
theorem instantiate_fills (hv : m.graph.content? v = some (freeContent id (some t)))
    (run : constructorsOf m t = .ok ctors) (some_ : ctors ≠ []) : instantiate v m =
      (allocateBeside v (generatorSize ctors) >>= fillGenerator v id ctors) m := by
  unfold instantiate
  rw [bind_ok (look_ok (TermGraph.aux_content hv)), bind_ok (look_ok (TermGraph.literal_content hv))]
  dsimp only [freeContent, Cargo.literal?, Option.elim]
  rw [bind_ok (look_ok run), if_neg (by simpa using some_)]
  rfl

theorem instantiate_narrowed (sound : m.graph.Sound) (sig : m.signature.Sound)
    (wf : (m.push [some v]).WellFormed) (hv : m.graph.content? v = some (freeContent id type))
    (typed : ∀ t ∈ type, ∃ d, m.signature.types[t]? = some d) :
    Narrowed m v id type (instantiate v m) := by
  have here : m.graph.Reach (some v :: m.rootSet) v := .root List.mem_cons_self
  cases type with
  | none =>
    unfold instantiate
    rw [bind_ok (look_ok (TermGraph.aux_content hv)), bind_ok (look_ok (TermGraph.literal_content hv))]
    exact .suspended
  | some t =>
    obtain ⟨d, hd⟩ := typed t rfl
    obtain ⟨ctors, run, listed, names⟩ := constructorsOf_declared sig hd
    have declares : Declares m t ctors := ⟨⟨d, hd, names⟩, fun p hp => by
      obtain ⟨-, sym, _, _, found, -, arity⟩ := listed p hp
      exact ⟨sym, found, arity⟩⟩
    by_cases some_ : ctors = []
    · subst some_
      unfold instantiate
      rw [bind_ok (look_ok (TermGraph.aux_content hv)), bind_ok (look_ok (TermGraph.literal_content hv))]
      dsimp only [freeContent, Cargo.literal?, Option.elim]
      rw [bind_ok (look_ok run)]
      obtain ⟨g, done, w⟩ := rewriteFail_wrote sound (Graph.content_lt hv)
      refine Eq.subst (bind_ok done).symm (.failure declares w.same w.free ?_)
      refine ⟨fun i hi => w.nodes i hi.2, fun i b hi owned => w.blocks i b hi.2 owned, rfl, rfl⟩
    rw [instantiate_fills hv run some_]
    have requested := allocateBeside_requested wf sound (generatorSize ctors)
    generalize served : allocateBeside v (generatorSize ctors) m = result at requested
    cases requested with
    | refused spared =>
      rw [bind_error served]
      exact .exhausted declares some_ spared.untouched
    | granted spared grants =>
      next nodes m₁ =>
      have supply : Supply m₁ v ctors nodes := supply_of_grants grants
        (Graph.content_lt ((spared.content here).trans hv))
      have listed₁ : Listed m₁ ctors := by
        unfold Listed
        rw [spared.signature]
        exact listed
      have filled := fillGenerator_filled id supply listed₁ some_
      rw [bind_ok served]
      generalize fillGenerator v id ctors nodes m₁ = result at filled
      cases filled with
      | refused mem unfit leaves =>
        rw [spared.pools]
        refine .refused declares mem ?_ (spared.leaves leaves
          (fun i hi => ⟨hi, fun listed => grants.serves.unreached i listed hi⟩) rfl rfl)
        simpa only [Fitting, spared.pools] using unfit
      | built leaves count encodes laid perm =>
        rw [spared.nextId] at encodes laid
        rw [spared.signature] at laid
        exact .generator declares some_ (generated_of id _ _ spared grants served sig listed leaves count
          encodes laid perm)

/-- Nothing is bound to the variable in the frame that is being reduced. -/
def Unbound (m : Machine) (id : VarId) : Prop :=
  ∀ store, m.frontConstraints? = some store → store.boundPairs id m.variableOf = .ok []

theorem bindGenerators_unbound (unbound : Unbound m id) : bindGenerators id m = .ok () m := by
  refine (bind_ok (show (get : Eff Machine) m = .ok m m from rfl)).trans ?_
  cases front : m.frontConstraints? with
  | none => rfl
  | some store => exact (bind_ok (look_ok (unbound store front))).trans rfl

/-- A variable is narrowed to a generator that is read back as it was built, or nothing that is reached
has changed. More than that happens only to a variable with a single constructor, when others are
bound to it: these are narrowed as well. -/
theorem instantiate_round_trips (sound : m.graph.Sound) (sig : m.signature.Sound)
    (wf : (m.push [some v]).WellFormed) (hv : m.graph.content? v = some (freeContent id type))
    (typed : ∀ t ∈ type, ∃ d, m.signature.types[t]? = some d) :
    Narrowed m v id type (instantiate v m) ∧
    (∀ n m', instantiate v m = .ok n m' → (n = 1 → Unbound m' id) → narrow v m = .ok () m') ∧
    ∀ stop m', instantiate v m = .error stop m' → narrow v m = .error stop m' := by
  have own : look (·.aux v) m = .ok id m := look_ok (TermGraph.aux_content hv)
  refine ⟨instantiate_narrowed sound sig wf hv typed, fun n m' done unbound => ?_,
    fun stop m' failed => (bind_ok own).trans (bind_error failed)⟩
  refine (bind_ok own).trans ((bind_ok done).trans ?_)
  by_cases one : n = 1
  · rw [if_pos one]
    exact bindGenerators_unbound (unbound one)
  · rw [if_neg one]
    rfl

/-- A type with three constructors of no, one and three arguments. -/
def shapes : List Operation :=
  [.defineType "Shape" [("Dot", 0), ("Disc", 1), ("Box", 3)], .free (some 7)]

/-- A variable of this type has a generator with one inner choice. -/
theorem instantiate_round_trips_shape : ∃ m m' ctors made vars ids inner,
    Operation.Run (.ofConfig (.fixedPool 16)) m ∧ m.graph.content? 0 = some (freeContent 0 (some 7)) ∧
    instantiate 0 m = .ok 3 m' ∧ Declares m 7 ctors ∧
    Generated m 0 0 ctors m' made vars ids inner ∧ inner.length = 1 := by
  have result : (Operation.script (.ofConfig (.fixedPool 16)) shapes).map (fun m =>
      (m.roots.contains (some 0), m.graph.content? 0, m.signature.types[7]?.isSome,
        (returned? (instantiate 0 m)).map Prod.fst)) =
      some (true, some (freeContent 0 (some 7)), true, some 3) := by
    decide +kernel
  obtain ⟨m, ran, facts⟩ := Option.map_eq_some_iff.mp result
  simp only [Prod.mk.injEq] at facts
  obtain ⟨rooted, free, typed, done⟩ := facts
  have run : Operation.Run (.ofConfig (.fixedPool 16)) m := Operation.Run.start.script ran
  have new : Machine.new (.fixedPool 16) = .ok (.ofConfig (.fixedPool 16)) := rfl
  obtain ⟨ρ, inv⟩ := run.sound new
  have wf := inv.wellFormed.push (i := 0) (Operation.reachable_of_contains rooted)
  have narrowing := (instantiate_round_trips inv.storage inv.signature wf free (by
    rintro _ ⟨⟩
    exact Option.isSome_iff_exists.mp typed)).1
  generalize there : instantiate 0 m = result at narrowing done
  cases narrowing with
  | @generator _ ctors m' made vars ids inner declares filled generated =>
    have three : ctors.length = 3 := by simpa [returned?] using done
    refine ⟨m, m', ctors, made, vars, ids, inner, run, free, three ▸ there, declares, generated, ?_⟩
    rw [generated.count, three]
  | failure => simp [returned?] at done
  | exhausted => simp [returned?] at done
  | refused => simp [returned?] at done

end Reduction

end ChoiceGraph
