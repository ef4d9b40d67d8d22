import ChoiceGraph.Proofs.BreadthFirst
import ChoiceGraph.Proofs.Currying
import ChoiceGraph.Proofs.Expressions

/-! # Shared calls are computed once

A call is overwritten by its result, so all that lead to it find the result from then on. What hangs from a
node may repeat a call many times when it is expanded; for the machine it is one call and one step. -/
namespace ChoiceGraph

/-! ## Several steps later -/

namespace Slice

variable {s : Slice} {n k : Nat}

def spends (s : Slice) (n : Nat) : Slice :=
  { s with remaining := s.remaining.map (· - n), used := s.used + n }

theorem spends_zero : s.spends 0 = s := by
  obtain ⟨_ | _, _, _⟩ := s <;> rfl

theorem spends_spends : (s.spends n).spends k = s.spends (n + k) := by
  obtain ⟨_ | r, u, p⟩ := s <;>
    simp only [spends, Option.map_none, Option.map_some, Nat.sub_sub, Nat.add_assoc]

theorem Affords.spends (h : s.Affords (n + k)) : (s.spends n).Affords k where
  going := h.going
  left steps left := by
    obtain ⟨before, had, rfl⟩ := Option.map_eq_some_iff.mp left
    exact Nat.le_sub_of_add_le' (h.left before had)

end Slice

namespace Machine

variable {m : Machine} {g g' : Graph} {n k : Nat}

/-- The machine with this graph, so many steps later. -/
def after (m : Machine) (n : Nat) (g : Graph) : Machine := { m with graph := g, slice := m.slice.spends n }

theorem after_zero : m.after 0 m.graph = m := by
  rw [after, Slice.spends_zero]

theorem after_setGraph : (m.after n g).setGraph g' = m.after n g' := rfl

theorem after_after : (m.after n g).after k g' = m.after (n + k) g' := by
  simp only [after, Slice.spends_spends]

end Machine

/-! ## What has been computed -/

namespace Graph

variable {g g' g'' : Graph} {done : Finset NodeId} {i j x y x' y' : NodeId} {op : RingOperation} {aux : Nat}
  {e : Expression}

theorem card_union_sdiff (s t done : Finset NodeId) :
    ((s ∪ t) \ done).card = (s \ done).card + (t \ (done ∪ s)).card := by
  have parts : (s ∪ t) \ done = (s \ done) ∪ (t \ (done ∪ s)) := by grind
  rw [parts, Finset.card_union_of_disjoint]
  exact Finset.disjoint_left.mpr fun i first second => by grind

/-- A call that waits is left, besides the calls that are left for its arguments. -/
theorem ExpandsTo.card_below (h : g.ExpandsTo i e) (hc : g.content? i = some (.binary op.symbol aux x y))
    (waits : i ∉ done) :
    (g.callsBelow i \ done).card = ((g.callsBelow x ∪ g.callsBelow y) \ done).card + 1 := by
  rw [callsBelow_call hc, Finset.insert_sdiff_of_notMem _ waits,
    Finset.card_insert_of_notMem fun mem => h.not_below hc (Finset.mem_sdiff.mp mem).1]

/-- Indirections lead to a node that is none. -/
structure Arrives (g : Graph) (i j : NodeId) : Prop where
  leads : g.Leads i j
  ends : ∃ c, g.content? j = some c ∧ c.tag ≠ .forward

theorem ExpandsTo.arrives (h : g.ExpandsTo i e) : ∃ j, g.Arrives i j := by
  cases h with
  | literal leads hv => exact ⟨_, leads, _, hv, nofun⟩
  | call leads hc => exact ⟨_, leads, _, hc, nofun⟩

/-- These calls have been overwritten by their results. The others still have their arguments, or what those
led to. -/
structure Computes (g : Graph) (done : Finset NodeId) (g' : Graph) : Prop where
  sound : g'.Sound
  others : ∀ i c, ¬ g.IsCall i → g.content? i = some c → g'.content? i = some c
  results : ∀ i ∈ done, ∀ e, g.ExpandsTo i e → g'.content? i = some (.int e.value)
  pending : ∀ i, i ∉ done → ∀ op aux x y, g.content? i = some (.binary (RingOperation.symbol op) aux x y) →
    ∃ x' y', g'.content? i = some (.binary op.symbol aux x' y') ∧ g.Leads x x' ∧ g.Leads y y'
  closed : ∀ i ∈ done, g.callsBelow i ⊆ done

namespace Computes

theorem start (sound : g.Sound) : g.Computes ∅ g where
  sound := sound
  others _ _ _ hc := hc
  results _ mem := absurd mem (Finset.notMem_empty _)
  pending _ _ _ _ x y hc := ⟨x, y, hc, .refl x, .refl y⟩
  closed _ mem := absurd mem (Finset.notMem_empty _)

/-- Indirections stay where they are. -/
theorem leads (h : g.Computes done g') (leads : g.Leads i j) : g'.Leads i j := by
  induction leads with
  | refl => exact .refl _
  | step hc _ ih => exact .step (h.others _ _ (fun call => call.not_redirection hc) hc) ih

/-- When all calls below a node have been computed, its value is where the node leads. -/
theorem value (h : g.Computes done g') (expands : g.ExpandsTo i e) (below : g.callsBelow i ⊆ done)
    (arrives : g.Arrives i j) : ∃ aux, g'.content? j = some (.number aux e.value) := by
  obtain ⟨leads, c, hj, tag⟩ := arrives
  cases expands with
  | literal leads' hv =>
    cases Machine.leads_unique leads' leads hv nofun hj tag
    exact ⟨_, h.others j _ (fun call => call.not_number hv) hv⟩
  | call leads' hc left right =>
    cases Machine.leads_unique leads' leads hc nofun hj tag
    rw [callsBelow_leads leads, callsBelow_call hc] at below
    exact ⟨0, h.results j (below (Finset.mem_insert_self _ _)) _ (.call (.refl j) hc left right)⟩

/-- A call that waits may be given what its arguments lead to. -/
theorem relink (h : g.Computes done g') (hc : g.content? i = some (.binary op.symbol aux x y))
    (waits : i ∉ done) (sets : g'.Sets i (.binary op.symbol aux x' y') g'') (left : g.Leads x x')
    (right : g.Leads y y') : g.Computes done g'' where
  sound := sets.sound
  others j c call hj := by
    have apart : j ≠ i := fun here => call (here ▸ ⟨op, aux, x, y, hc⟩)
    exact (sets.others j apart).trans (h.others j c call hj)
  results j mem e expands := by
    have apart : j ≠ i := fun here => waits (here ▸ mem)
    exact (sets.others j apart).trans (h.results j mem e expands)
  pending j away op' aux' p q hj := by
    by_cases here : j = i
    · subst here
      obtain ⟨rfl, rfl, rfl, rfl⟩ := Content.binary_inj (Option.some.inj (hc.symm.trans hj))
      exact ⟨x', y', sets.same, left, right⟩
    · obtain ⟨p', q', held, leads⟩ := h.pending j away op' aux' p q hj
      exact ⟨p', q', (sets.others j here).trans held, leads⟩
  closed := h.closed

/-- A call is overwritten by its result. -/
theorem finish (h : g.Computes done g') (expands : g.ExpandsTo i e)
    (hc : g.content? i = some (.binary op.symbol aux x y)) (below : g.callsBelow x ∪ g.callsBelow y ⊆ done)
    (sets : g'.Sets i (.int e.value) g'') : g.Computes (insert i done) g'' where
  sound := sets.sound
  others j c call hj := by
    have apart : j ≠ i := fun here => call (here ▸ ⟨op, aux, x, y, hc⟩)
    exact (sets.others j apart).trans (h.others j c call hj)
  results j mem e' expands' := by
    by_cases here : j = i
    · subst here
      obtain rfl := expands.unique expands'
      exact sets.same
    · have before := (Finset.mem_insert.mp mem).resolve_left here
      exact (sets.others j here).trans (h.results j before e' expands')
  pending j away op' aux' p q hj := by
    rw [Finset.mem_insert, not_or] at away
    obtain ⟨p', q', held, leads⟩ := h.pending j away.2 op' aux' p q hj
    exact ⟨p', q', (sets.others j away.1).trans held, leads⟩
  closed j mem := by
    rcases Finset.mem_insert.mp mem with rfl | mem
    · rw [callsBelow_call hc]
      exact Finset.insert_subset_insert _ below
    · exact (h.closed j mem).trans (Finset.subset_insert _ _)

end Computes

end Graph

/-! ## Prelude functions under extensions -/

namespace RingOperation

variable {σ : Signature} {op : RingOperation}

theorem found (prelude : Signature.standard.Extends σ) (op : RingOperation) :
    ∃ name, σ.symbol? op.symbol = some (.function name 2 (.arithmetic op.arithmetic)) :=
  op.listed.imp fun _ listed => prelude _ _ listed

theorem linked (prelude : Signature.standard.Extends σ) (op : RingOperation) (aux : Nat) (x y : NodeId) :
    (Content.binary op.symbol aux x y).Linked σ := by
  obtain ⟨name, found⟩ := op.found prelude
  exact ⟨⟨_, found, rfl⟩, rfl⟩

theorem successor {t : TermGraph} {u x y : NodeId} {aux : Nat}
    (prelude : Signature.standard.Extends t.signature)
    (hc : t.graph.content? u = some (.binary op.symbol aux x y)) :
    t.successor u 0 = .ok (some x) ∧ t.successor u 1 = .ok (some y) := by
  obtain ⟨name, found⟩ := op.found prelude
  exact ⟨TermGraph.successor_content hc found rfl rfl, TermGraph.successor_content hc found rfl rfl⟩

end RingOperation

/-- Integers are constructors, and nothing is done to normalize them. -/
theorem Signature.Extends.int {σ : Signature} (prelude : standard.Extends σ) :
    ∃ sym, σ.symbol? Builtin.int = some sym ∧ sym.normal = .none ∧
      σ.tagFor Builtin.int = .ok (.constructor 0) := by
  have found : σ.symbol? Builtin.int = standard.symbol? Builtin.int := prelude _ _ rfl
  refine ⟨_, found, rfl, ?_⟩
  simp only [tagFor, symbol, found]
  rfl

namespace Reduction

open Eff Machine

variable {g g₁ : Graph} {m : Machine} {i j u p q x y : NodeId} {op : RingOperation} {aux F : Nat}
  {e a b : Expression} {done : Finset NodeId} {v w : Int64}

/-! ## Driving an expression -/

/-- Driving a node of an expression to head normal form takes one step for each call below it that has not
been computed yet. It computes all of them and touches nothing else. -/
structure Drives (g : Graph) (done : Finset NodeId) (F : Nat) (i : NodeId) (e : Expression) (m : Machine)
    (j : NodeId) (g' : Graph) : Prop where
  run : headNormalize F i m = .ok j (m.after (g.callsBelow i \ done).card g')
  computes : g.Computes (done ∪ g.callsBelow i) g'
  arrives : g.Arrives i j
  others : ∀ k, k ∉ g.callsBelow i → g'.content? k = m.graph.content? k

/-- Nodes of this expression are driven with that much fuel, whatever has been computed before. -/
def Driven (g : Graph) (F : Nat) (e : Expression) : Prop :=
  ∀ (i : NodeId) (m : Machine) (done : Finset NodeId), Signature.standard.Extends m.signature →
    g.ExpandsTo i e → g.Computes done m.graph → m.slice.Affords (g.callsBelow i \ done).card →
    ∃ j g', Drives g done F i e m j g'

/-- Nothing is left to do for a value. -/
theorem drives_value (computes : g.Computes done m.graph) (expands : g.ExpandsTo i e)
    (below : g.callsBelow i ⊆ done) : ∃ j, Drives g done (F + 1) i e m j m.graph := by
  obtain ⟨j, arrives⟩ := expands.arrives
  obtain ⟨aux, value⟩ := computes.value expands below arrives
  have none : (g.callsBelow i \ done).card = 0 := by
    rw [Finset.sdiff_eq_empty_iff_subset.mpr below, Finset.card_empty]
  refine ⟨j, ?_, ?_, arrives, fun _ _ => rfl⟩
  · rw [none, after_zero]
    exact headNormalize_idle (skip_of_leads (computes.leads arrives.leads) value nofun) value nofun
  · rwa [Finset.union_eq_left.mpr below]

theorem Drives.apart (drives : Drives g done F p a m j g₁) (call : g.IsCall u)
    (outside : u ∉ g.callsBelow p) : j ≠ u := by
  rintro rfl
  rw [Graph.callsBelow_leads drives.arrives.leads] at outside
  exact outside (Graph.mem_callsBelow.mpr ⟨.refl, call⟩)

/-- An argument of a call is driven, and the call is linked to its value. -/
theorem headArg_drives {c : Content} {k : Nat} (drives : Drives g done F p a m j g₁)
    (expands : g.ExpandsTo p a) (reads : m.successor u k = .ok (some p))
    (hu : m.graph.content? u = some c) (linked : c.Linked m.signature) (hk : c.links[k]? = some p)
    (call : g.IsCall u) (outside : u ∉ g.callsBelow p) :
    ∃ g', g₁.Sets u (c.setLink k j) g' ∧
      headArg (reducer F) u k m = .ok (.value j) (m.after (g.callsBelow p \ done).card g') := by
  obtain ⟨aux, value⟩ := drives.computes.value expands Finset.subset_union_right drives.arrives
  let m₁ := m.after (g.callsBelow p \ done).card g₁
  have sound : m₁.graph.Sound := drives.computes.sound
  have hu₁ : m₁.graph.content? u = some c := (drives.others u outside).trans hu
  have hj : m₁.graph.content? j = some (.number aux a.value) := value
  exact headArg_data reads drives.run sound hu₁ linked hk (drives.apart call outside) hj rfl

theorem rewriteInt_writes (prelude : Signature.standard.Extends m.signature) (sound : m.graph.Sound)
    (lt : u < m.graph.capacity) (v : Int64) :
    ∃ g', rewriteInt u v m = .ok () (m.setGraph g') ∧ m.graph.Sets u (.int v) g' := by
  obtain ⟨-, -, -, tag⟩ := prelude.int
  exact (rewriteData_writes sound lt tag 0 (.int v)).sets ((faults_look _).bind fun _ => faults_put u _)

/-- Two numbers are put together. -/
theorem stepArithmetic_numbers {r : Reducer} {m₁ m₂ : Machine} {aux' : Nat} (op : RingOperation)
    (first : headArg r u 0 m = .ok (.value i) m₁) (second : headArg r u 1 m₁ = .ok (.value j) m₂)
    (hi : m₂.graph.content? i = some (.number aux v)) (hj : m₂.graph.content? j = some (.number aux' w)) :
    stepArithmetic r op.arithmetic u m = rewriteInt u (op.wrapped v w) m₂ := by
  have readLeft : m₂.literal? i = .ok (some (.int v)) :=
    TermGraph.literal_content (t := m₂.toTermGraph) hi
  have readRight : m₂.literal? j = .ok (some (.int w)) :=
    TermGraph.literal_content (t := m₂.toTermGraph) hj
  refine (bind_ok first).trans ((bind_ok second).trans ?_)
  refine (bind_ok (look_ok (r := fun m => m.literal? i) readLeft)).trans
    ((bind_ok (look_ok (r := fun m => m.literal? j) readRight)).trans ?_)
  dsimp only
  rw [RingOperation.apply_arithmetic]

/-- The step of a call that waits: both arguments are driven, one after the other, and their values are put
together. What the arguments share is computed with the first of them. -/
theorem stepArithmetic_computes (left : Driven g F a) (right : Driven g F b)
    (prelude : Signature.standard.Extends m.signature) (computes : g.Computes done m.graph)
    (hc : g.content? u = some (.binary op.symbol aux x y)) (waits : u ∉ done) (hx : g.ExpandsTo x a)
    (hy : g.ExpandsTo y b) (affords : m.slice.Affords ((g.callsBelow x ∪ g.callsBelow y) \ done).card) :
    ∃ g', stepArithmetic (reducer F) op.arithmetic u m =
        .ok () (m.after ((g.callsBelow x ∪ g.callsBelow y) \ done).card g') ∧
      g.Computes (done ∪ g.callsBelow u) g' ∧ g'.content? u = some (.int (op.wrapped a.value b.value)) ∧
      ∀ k, k ∉ g.callsBelow u → g'.content? k = m.graph.content? k := by
  have expands : g.ExpandsTo u (.call op a b) := .call (.refl u) hc hx hy
  have call : g.IsCall u := ⟨op, aux, x, y, hc⟩
  have outside := expands.not_below hc
  rw [Finset.notMem_union] at outside
  obtain ⟨p, q, hu, xp, yq⟩ := computes.pending u waits op aux x y hc
  have sameLeft := Graph.callsBelow_leads xp
  have sameRight := Graph.callsBelow_leads yq
  rw [sameLeft, sameRight] at outside
  rw [sameLeft, sameRight, Graph.card_union_sdiff] at affords ⊢
  rw [Graph.callsBelow_call hc, sameLeft, sameRight]
  -- the first argument
  obtain ⟨i, g₁, drives⟩ := left p m done prelude (hx.leads xp) computes (affords.mono (Nat.le_add_right _ _))
  obtain ⟨g₂, sets₂, first⟩ := headArg_drives drives (hx.leads xp) (op.successor prelude hu).1 hu
    (op.linked prelude aux p q) rfl call outside.1
  have computes₂ := drives.computes.relink hc (by grind) sets₂ (xp.trans drives.arrives.leads) yq
  -- the second one, in what the first has left
  let m₂ := m.after (g.callsBelow p \ done).card g₂
  have hu₂ : m₂.graph.content? u = some (.binary op.symbol aux i q) := sets₂.same
  obtain ⟨j, g₃, drives'⟩ := right q m₂ _ prelude (hy.leads yq) computes₂ affords.spends
  obtain ⟨g₄, sets₄, second⟩ := headArg_drives drives' (hy.leads yq)
    (op.successor (t := m₂.toTermGraph) prelude hu₂).2 hu₂ (op.linked prelude aux i q) rfl call outside.2
  have computes₄ := drives'.computes.relink hc (by grind) sets₄ (xp.trans drives.arrives.leads)
    (yq.trans drives'.arrives.leads)
  -- both values are there
  let m₄ := m₂.after (g.callsBelow q \ (done ∪ g.callsBelow p)).card g₄
  obtain ⟨auxᵢ, hi⟩ := computes₄.value (hx.leads xp) (by grind) drives.arrives
  obtain ⟨auxⱼ, hj⟩ := computes₄.value (hy.leads yq) (by grind) drives'.arrives
  obtain ⟨g₅, written, sets₅⟩ := rewriteInt_writes (m := m₄) prelude computes₄.sound
    (Graph.content_lt sets₄.same) (op.wrapped a.value b.value)
  have run := (stepArithmetic_numbers op first second hi hj).trans written
  refine ⟨g₅, run.trans (congrArg _ (after_setGraph.trans after_after)), ?_, sets₅.same, fun k away => ?_⟩
  · have finished := computes₄.finish expands hc (by rw [sameLeft, sameRight]; grind) sets₅
    rwa [Finset.union_assoc, ← Finset.union_insert] at finished
  · rw [Finset.mem_insert, Finset.mem_union, not_or, not_or] at away
    calc g₅.content? k = g₃.content? k := (sets₅.others k away.1).trans (sets₄.others k away.1)
      _ = g₁.content? k := (drives'.others k away.2.2).trans (sets₂.others k away.1)
      _ = m.graph.content? k := drives.others k away.2.1

/-- A call that waits is driven by its step, and is its own value then. -/
theorem driven_call (left : Driven g F a) (right : Driven g F b) (enough : 0 < F) :
    Driven g (F + 1) (.call op a b) := by
  intro i m done prelude expands computes affords
  cases expands with
  | @call _ u x y aux op _ _ leads hc hx hy =>
    have sameBelow := Graph.callsBelow_leads leads
    by_cases finished : u ∈ done
    · obtain ⟨j, drives⟩ := drives_value (F := F) computes (.call leads hc hx hy)
        (sameBelow ▸ computes.closed u finished)
      exact ⟨j, _, drives⟩
    · obtain ⟨p, q, hu, -, -⟩ := computes.pending u finished op aux x y hc
      obtain ⟨name, found⟩ := op.found prelude
      have counted := (Graph.ExpandsTo.call (.refl u) hc hx hy).card_below hc finished
      rw [← sameBelow] at counted
      rw [counted] at affords
      have called := headNormalize_call (F := F) affords.not_over
        (skip_of_leads (computes.leads leads) hu nofun) hu rfl found rfl
      obtain ⟨g', step, computes', hu', others⟩ := stepArithmetic_computes (m := m.after 1 m.graph) left right
        prelude computes hc finished hx hy affords.spend
      obtain ⟨F, rfl⟩ := Nat.exists_eq_add_one.mpr enough
      have idle {n : Nat} : headNormalize (F + 1) u ((m.after 1 m.graph).after n g') =
          .ok u ((m.after 1 m.graph).after n g') :=
        headNormalize_idle (m := (m.after 1 m.graph).after n g') (TermGraph.skip_self hu' nofun) hu' nofun
      refine ⟨u, g', ?_, sameBelow ▸ computes', ⟨leads, _, hc, nofun⟩, sameBelow ▸ others⟩
      rw [counted, Nat.add_comm (Finset.card _) 1, ← after_after]
      exact called.trans ((bind_ok step).trans idle)

theorem driven (g : Graph) (e : Expression) : ∀ F, e.height < F → Driven g F e := by
  induction e with
  | literal v =>
    intro F enough i m done _ expands computes _
    obtain ⟨F, rfl⟩ := Nat.exists_eq_add_one.mpr enough
    have none : g.callsBelow i = ∅ := by
      cases expands with
      | literal leads hv => rw [Graph.callsBelow_leads leads, Graph.callsBelow_number hv]
    obtain ⟨j, drives⟩ := drives_value (F := F) computes expands (none ▸ Finset.empty_subset done)
    exact ⟨j, _, drives⟩
  | call op a b left right =>
    intro F enough
    obtain ⟨F, rfl⟩ := Nat.exists_eq_add_one.mpr (Nat.zero_lt_of_lt enough)
    have higher : max a.height b.height < F := Nat.lt_of_succ_lt_succ enough
    exact driven_call (left F ((le_max_left _ _).trans_lt higher))
      (right F ((le_max_right _ _).trans_lt higher)) (Nat.zero_lt_of_lt higher)

/-! ## Normalizing an expression -/

/-- A call is normalized in one step for each call that can be reached from it, itself included, and two
more: one to begin with, and one for the literal that it has become. -/
theorem normalize_expression (prelude : Signature.standard.Extends m.signature) (sound : m.graph.Sound)
    (expands : m.graph.ExpandsTo u e) (hc : m.graph.content? u = some (.binary op.symbol aux x y))
    (affords : m.slice.Affords ((m.graph.callsBelow u).card + 2)) (enough : e.height < F) :
    ∃ g', normalize (F + 1) u m = .ok () (m.after ((m.graph.callsBelow u).card + 2) g') ∧
      m.graph.Computes (m.graph.callsBelow u) g' ∧
      ∀ k, k ∉ m.graph.callsBelow u → g'.content? k = m.graph.content? k := by
  obtain ⟨name, found⟩ := op.found prelude
  let c := (m.graph.callsBelow u).card
  let m₁ := m.after 1 m.graph
  have affords₁ : m₁.slice.Affords (c + 1) := affords.spend
  obtain ⟨j, g', drives⟩ := driven m.graph e F enough u m₁ ∅ prelude expands (.start sound)
    (affords₁.mono (by rw [Finset.sdiff_empty]; exact Nat.le_succ _))
  obtain ⟨driven, computes, ⟨leads, d, hj, tag⟩, others⟩ := drives
  cases leads_unique (.refl u) leads hc nofun hj tag
  rw [Finset.sdiff_empty] at driven
  rw [Finset.empty_union] at computes
  let m₂ := m₁.after c g'
  have affords₂ : m₂.slice.Affords 1 := affords₁.spends
  have result : m₂.graph.content? u = some (.int e.value) :=
    computes.results u (Graph.mem_callsBelow.mpr ⟨.refl, op, aux, x, y, hc⟩) e expands
  have read : m₂.tag u = .ok (.constructor 0) := TermGraph.tag_content (t := m₂.toTermGraph) result
  -- nothing is done about the literal, but that is a step too
  have still : normalize F u m₂ = .ok () (m₂.after 1 g') := by
    obtain ⟨F, rfl⟩ := Nat.exists_eq_add_one.mpr (Nat.zero_lt_of_lt enough)
    obtain ⟨sym, listed, normal, -⟩ := prelude.int
    have symbol : (m₂.after 1 g').symbol u = .ok sym :=
      TermGraph.symbol_content (t := (m₂.after 1 g').toTermGraph) result listed
    rw [normalize_paid affords₂.not_over]
    refine (bind_ok (look_ok (r := fun m => m.symbol u) symbol)).trans ?_
    rw [normal]
    rfl
  refine ⟨g', ?_, computes, others⟩
  have sum : m.after (c + 2) g' = m₂.after 1 g' := by
    rw [after_after, after_after, Nat.add_left_comm]
  rw [show (m.graph.callsBelow u).card = c from rfl, sum]
  exact (normalize_called affords.not_over hc found rfl).trans ((bind_ok driven).trans
    ((bind_ok (look_ok (r := fun m => m.tag u) read)).trans still))

end Reduction

theorem TermGraph.intValue_number {t : TermGraph} {i : NodeId} {aux : Nat} {v : Int64}
    (h : t.graph.content? i = some (.number aux v)) : t.intValue? i = .ok (some v) := by
  have skip : t.skip i = .ok i := skip_self h nofun
  simp only [intValue?, skip, literal_content h, bind, Except.bind]
  rfl

namespace Schedule

open Eff Reduction

variable {σ : Type} {m m' : Machine} {root : NodeId} {fuel : Nat}

/-- A node that is normalized to a constructor within one slice is the one value of its search. -/
theorem evaluate_constructor {visit : Visitor σ} {s s' : σ} {flow : Flow} {d : Content} {index : Nat}
    (limit : m.config.stepLimit = none)
    (run : Reduction.normalize fuel root { enter (some root) m with slice := .ofSteps m.config.sliceSteps } =
      .ok () m')
    (search : m'.computations = (enter (some root) m).computations) (hd : m'.graph.content? root = some d)
    (tag : d.tag = .constructor index) (visited : visit m' root s = .ok (s', flow)) (enough : 2 ≤ fuel) :
    m.evaluate fuel visit root s = ⟨s', .ok
      { solutions := 1, steps := m'.slice.used, collections := m'.collections - m.collections }
      { m' with roots := m'.roots.tail, computations := m.computations, slice := m.slice }⟩ := by
  obtain ⟨turns, rfl⟩ : ∃ n, fuel = n + 2 := ⟨fuel - 2, by omega⟩
  let c : Computation := .start (some root) m.config.timeAllotment
  have read : m'.tag root = .ok (.constructor index) :=
    (TermGraph.tag_content (t := m'.toTermGraph) hd).trans (congrArg Except.ok tag)
  have turned : turn (Reduction.normalize (turns + 2)) {} (enter (some root) m) =
      .ok ({ solutions := 1, steps := m'.slice.used }, .value root) m' :=
    (turn_entered limit run).trans (bind_ok (look_ok (r := fun m => m.tag root) read))
  have dropped : m'.mapInnermost Computation.dropFront =
      { m' with computations := c.dropFront :: m.computations } := by
    unfold Machine.mapInnermost
    rw [search]
    rfl
  have idle : ({ m' with computations := c.dropFront :: m.computations } : Machine).front? = none := rfl
  unfold Machine.evaluate Schedule.search takeTurns
  rw [turned]
  simp only [visited]
  cases flow with
  | more =>
    unfold takeTurns
    simp only [dropped, turn_idle idle]
    rfl
  | enough =>
    simp only [dropped]
    rfl

/-- Each shared call is computed once. A call of `+`, `-` or `*` from which only such calls, literals and
indirections can be reached, without a circle, has one value: the result of the expression that it expands
to. That takes one step for each call that can be reached, however often the expression repeats it, and two
more. Every one of these calls is then a literal, its own result, and nothing else has changed. -/
theorem shared_calls_once (prelude : Signature.standard.Extends m.signature) (sound : m.graph.Sound)
    (formula : m.graph.Formula root) (call : m.graph.IsCall root) (unlimited : m.config.stepLimit = none)
    (slice : (m.graph.callsBelow root).card + 2 ≤ m.config.sliceSteps)
    (enough : (m.graph.callsBelow root).card + 2 ≤ fuel) :
    ∃ m' e v, m.graph.ExpandsTo root e ∧ v.toInt ≡ e.exact [ZMOD 2 ^ 64] ∧ m'.intValue? root = .ok (some v) ∧
      (∀ {σ : Type} (visit : Visitor σ) (s s' : σ) (flow : Flow), visit m' root s = .ok (s', flow) →
        m.evaluate fuel visit root s =
          ⟨s', .ok { solutions := 1, steps := (m.graph.callsBelow root).card + 2 } (m.setGraph m'.graph)⟩) ∧
      (∀ i ∈ m.graph.callsBelow root, ∃ e v, m.graph.ExpandsTo i e ∧ m'.graph.content? i = some (.int v) ∧
        v.toInt ≡ e.exact [ZMOD 2 ^ 64]) ∧
      ∀ i, i ∉ m.graph.callsBelow root → m'.graph.content? i = m.graph.content? i := by
  obtain ⟨e, expands⟩ := formula.exists_expansion
  obtain ⟨op, aux, x, y, hc⟩ := id call
  obtain ⟨F, rfl⟩ : ∃ F, fuel = F + 1 := ⟨fuel - 1, by omega⟩
  let m₀ : Machine := { enter (some root) m with slice := .ofSteps m.config.sliceSteps }
  have affords : m₀.slice.Affords ((m.graph.callsBelow root).card + 2) :=
    ⟨rfl, fun _ left => Option.mem_some_iff.mp left ▸ slice⟩
  have high : e.height < F := by have := expands.height_le; omega
  obtain ⟨g', run, computes, others⟩ := normalize_expression (m := m₀) prelude sound expands hc affords high
  have results (i : NodeId) (mem : i ∈ m.graph.callsBelow root) : ∃ e, m.graph.ExpandsTo i e ∧
      g'.content? i = some (.int e.value) := by
    obtain ⟨e, here, -⟩ := expands.of_path (Graph.mem_callsBelow.mp mem).1
    exact ⟨e, here, computes.results i mem e here⟩
  have result : g'.content? root = some (.int e.value) :=
    computes.results root (Graph.mem_callsBelow.mpr ⟨.refl, call⟩) e expands
  refine ⟨m₀.after ((m.graph.callsBelow root).card + 2) g', e, e.value, expands, e.value_modEq,
    TermGraph.intValue_number (show g'.content? root = some (.number 0 e.value) from result), ?_,
    fun i mem => ?_, others⟩
  · intro σ visit s s' flow visited
    have used (n : Nat) : (m₀.after n g').slice.used = n := Nat.zero_add n
    have collections (n : Nat) : (m₀.after n g').collections - m.collections = 0 := Nat.sub_self _
    rw [evaluate_constructor unlimited run rfl result rfl visited (by omega), used, collections]
    rfl
  · obtain ⟨e, here, held⟩ := results i mem
    exact ⟨e, e.value, here, held, e.value_modEq⟩

/-- With `s` for `3037000500 * 3037000500`, which does not fit into 64 bits, the four calls of
`(s + s) * (s + s) - s` take four steps and two more. The second summand is an indirection to the first. -/
theorem shared_calls_once_squares : ∃ m m' v, Operation.Run (.ofConfig (.fixedPool 16)) m ∧
    m.evaluate 6 integers 5 [] = ⟨[v], .ok { solutions := 1, steps := 6 } m'⟩ ∧
    ∃ s, s = 3037000500 * 3037000500 ∧ v.toInt ≡ (s + s) * (s + s) - s [ZMOD 2 ^ 64] := by
  let p := Prelude.standard
  let ops : List Operation := [.int 3037000500, .make p.mul [0, 0], .forward 1, .make p.add [1, 2],
    .make p.mul [3, 3], .make p.sub [4, 1]]
  let contents : List Content := [.int 3037000500, .binary p.mul 0 0 0, .indirection 1, .binary p.add 0 1 2,
    .binary p.mul 0 3 3, .binary p.sub 0 4 1]
  have result : (Operation.script (.ofConfig (.fixedPool 16)) ops).map (fun m =>
      ((List.range 6).map m.graph.content?, m.config.sliceSteps, m.config.stepLimit)) =
      some (contents.map some, 10000, none) := by decide +kernel
  obtain ⟨m, ran, facts⟩ := Option.map_eq_some_iff.mp result
  simp only [Prod.mk.injEq] at facts
  obtain ⟨stored, slice, unlimited⟩ := facts
  have holds (i : Nat) (c : Content) (hc : contents[i]? = some c) : m.graph.content? i = some c := by
    have read := congrArg (fun l => l[i]?) stored
    have lt : i < 6 := (List.getElem?_eq_some_iff.mp hc).1
    rw [List.getElem?_map, List.getElem?_map, List.getElem?_range lt, hc] at read
    exact Option.some.inj read
  have h₁ := holds 1 (.binary RingOperation.mul.symbol 0 0 0) rfl
  have h₃ := holds 3 (.binary RingOperation.add.symbol 0 1 2) rfl
  have h₄ := holds 4 (.binary RingOperation.mul.symbol 0 3 3) rfl
  have h₅ := holds 5 (.binary RingOperation.sub.symbol 0 4 1) rfl
  have e₀ : m.graph.ExpandsTo 0 _ := .literal (.refl 0) (holds 0 (.number 0 3037000500) rfl)
  have e₁ := Graph.ExpandsTo.call (.refl 1) h₁ e₀ e₀
  have e₃ := Graph.ExpandsTo.call (.refl 3) h₃ e₁ (e₁.back (.step (holds 2 _ rfl) (.refl 1)))
  have e₅ := Graph.ExpandsTo.call (.refl 5) h₅ (.call (.refl 4) h₄ e₃ e₃) e₁
  have calls : m.graph.callsBelow 5 = {5, 4, 3, 1} := by
    rw [Graph.callsBelow_call h₅, Graph.callsBelow_call h₄, Graph.callsBelow_call h₃,
      Graph.callsBelow_redirection (holds 2 (.redirection Builtin.forward 0 1) rfl), Graph.callsBelow_call h₁,
      Graph.callsBelow_number (holds 0 (.number 0 3037000500) rfl)]
    rfl
  have run : Operation.Run (.ofConfig (.fixedPool 16)) m := Operation.Run.start.script ran
  have new : Machine.new (.fixedPool 16) = .ok (.ofConfig (.fixedPool 16)) := rfl
  obtain ⟨ρ, inv⟩ := run.sound new
  have four : (m.graph.callsBelow 5).card = 4 := by rw [calls]; rfl
  have enough : (m.graph.callsBelow 5).card + 2 ≤ 6 := by rw [four]
  obtain ⟨m', e, v, expands, result, value, evaluated, -⟩ := shared_calls_once inv.signature.extends_standard
    inv.storage (Graph.formula_iff.mpr ⟨_, e₅⟩) ⟨_, _, _, _, h₅⟩ unlimited (by rw [four, slice]; decide)
    enough
  rw [four] at evaluated
  have seen : integers m' 5 [] = .ok ([v], .more) := by
    simp only [integers, value, bind, Except.bind]
    rfl
  obtain rfl := expands.unique e₅
  exact ⟨m, _, v, run, evaluated integers [] [v] .more seen, _, rfl, result⟩

end Schedule

end ChoiceGraph
