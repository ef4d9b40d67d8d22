import ChoiceGraph.Proofs.Agreement
import ChoiceGraph.Proofs.NestedSearches
import Mathlib.Data.Set.Card

/-! # Exhaustion

No operation makes the pool larger than its limit, whatever becomes of the graph. A request for nodes
is served from the free list, from what a collection frees, or from what the pool may still grow, in
this order. So it is refused if and only if the nodes that the root set reaches and the requested ones
exceed the limit together. -/
namespace ChoiceGraph

namespace Machine

variable {m m' : Machine} {i : NodeId} {n : Nat}

/-! ## The limit of a machine -/

/-- The configuration is the same, and the pool has kept to its limit. -/
structure Limited (m m' : Machine) : Prop where
  config : m'.config = m.config
  graph : m.graph.Within m'.graph

theorem limited_of_same (config : m'.config = m.config) (graph : m'.graph = m.graph) :
    m.Limited m' :=
  ⟨config, Graph.within_of_same (by rw [graph]) (by rw [graph]) (by rw [graph])⟩

theorem mapInnermost_limited (m : Machine) (f : Computation → Computation) :
    m.Limited (m.mapInnermost f) :=
  limited_of_same (mapInnermost_config m f) (congrArg TermGraph.graph (mapInnermost_same m f))

/-- A collection is charged to a frame, and to nothing else that a request depends on. -/
theorem chargeCollection_same (m : Machine) : (Eff.chargeCollection m).graph = m.graph ∧
    (Eff.chargeCollection m).config = m.config ∧
    (Eff.chargeCollection m).rootSet = m.rootSet := by
  unfold Eff.chargeCollection
  cases front : m.front? with
  | none => exact ⟨rfl, rfl, rfl⟩
  | some f =>
    obtain ⟨c, hc, hf⟩ := Option.bind_eq_some_iff.mp front
    obtain ⟨outer, hc⟩ := List.head?_eq_some_iff.mp hc
    obtain ⟨rest, hq⟩ := List.head?_eq_some_iff.mp hf
    let charged : Machine := m.mapInnermost fun c =>
      c.putFrame 0 { f with allotment := f.allotment - 1 }
    have roots : charged.rootSet = m.rootSet := by
      simp only [charged, rootSet, mapInnermost, hc, List.flatMap_cons, Computation.putFront_roots hq]
    have same : charged.graph = m.graph ∧ charged.config = m.config ∧ charged.rootSet = m.rootSet :=
      ⟨congrArg TermGraph.graph (mapInnermost_same m _), mapInnermost_config m _, roots⟩
    dsimp only
    split
    · exact same
    · exact same

instance : IsPreorder Machine Limited where
  refl _ := limited_of_same rfl rfl
  trans _ _ _ h k := ⟨k.config.trans h.config, h.graph.trans k.graph⟩

instance : Inward Limited where
  innermost m f := mapInnermost_limited m f
  resolved _ _ _ _ _ := limited_of_same rfl rfl
  sliced _ _ := limited_of_same rfl rfl

instance : Permissive Limited where
  graph _ _ within := ⟨rfl, within⟩
  roots _ _ := limited_of_same rfl rfl
  nextId _ _ := limited_of_same rfl rfl
  spent _ _ := limited_of_same rfl rfl
  collected m g within := by
    have swept : m.Limited { m.setGraph g with collections := m.collections + 1 } := ⟨rfl, within⟩
    obtain ⟨graph, config, -⟩ :=
      chargeCollection_same { m.setGraph g with collections := m.collections + 1 }
    exact trans_of Limited swept (limited_of_same config graph)
  constrained m _ := mapInnermost_limited m _

instance : Schedule.Nests Limited where
  searched h turns root s := Schedule.gather_around h turns root s
    fun _ _ limited => ⟨limited.config, limited.graph⟩

/-- The pool is not larger than the configuration allows. -/
structure Bounded (m : Machine) : Prop where
  limit : m.graph.maxNodes = m.config.maxNodes
  capacity : m.graph.capacity ≤ m.config.maxNodes

theorem Bounded.limited (h : m.Bounded) (l : m.Limited m') : m'.Bounded where
  limit := by rw [l.graph.limit, l.config, h.limit]
  capacity := by
    have within := l.graph.capacity
    rw [h.limit, Nat.max_eq_right h.capacity] at within
    rw [l.config]
    exact within

theorem new_bounded {config : Config} (new : Machine.new config = .ok m) : m.Bounded := by
  unfold Machine.new at new
  split at new
  · cases new
  · next valid =>
    cases new
    refine ⟨rfl, ?_⟩
    have fits : config.initialNodes ≤ config.maxNodes := by
      by_contra exceeds
      unfold Config.fault? at valid
      rw [if_pos (Nat.lt_of_not_le exceeds)] at valid
      split at valid
      · cases valid
      · split at valid <;> cases valid
    simpa [ofConfig, Graph.ofConfig, Graph.extend, Graph.capacity] using fits

end Machine

namespace Operation

open Eff Machine Reduction

variable {m m' start : Machine} {α : Type}

instance : Keeping Limited where
  evaluated fuel _ i s _ := Schedule.search_around (reducer_moves Limited fuel).normal fuel (some i) s
    fun _ limited => ⟨limited.config, limited.graph⟩
  defined _ _ := limited_of_same rfl rfl

/-- There are blocks for every number of links below the bound on arities. -/
theorem Run.pools {config : Config} (run : Run start m) (new : Machine.new config = .ok start) :
    m.config.arityBound = m.graph.pools.size := by
  have kept : start.Limited m := run.moves
  have first : start.config.arityBound = start.graph.pools.size := by
    rw [ofConfig_of_new new]
    show config.arityBound = ((Array.range config.arityBound).map BlockPool.empty).size
    rw [Array.size_map, Array.size_range]
  rw [kept.config, kept.graph.pools, first]

theorem Run.bounded {config : Config} (run : Run start m) (new : Machine.new config = .ok start) :
    m.Bounded :=
  (new_bounded new).limited run.moves

end Operation

/-- A search visits only machines that keep to the limit. -/
theorem Schedule.Visits.bounded {m m' : Machine} {root : NodeId} {fuel : Nat} {st : Stats}
    {o : Outcome} (h : Visits (Reduction.normalize fuel) (Schedule.enter (some root) m) st o m')
    (bounded : m.Bounded) : m'.Bounded := by
  induction h with
  | enter => exact ⟨bounded.limit, bounded.capacity⟩
  | turn _ run ih =>
    exact ih.limited
      ((turn_moves (Reduction.reducer_moves Machine.Limited fuel).normal _).ok run)
  | drop _ ih => exact ih.limited (Machine.mapInnermost_limited _ _)

/-! ## Requests -/

namespace Graph

variable {g g' : Graph} {roots : List Link} {n : Nat}

theorem reached_finite (closed : g.Closed roots) : {i | g.Reach roots i}.Finite :=
  (Set.finite_lt_nat g.capacity).subset fun i hi => by
    obtain ⟨ls, stored⟩ := closed i hi
    exact lt_of_stored stored

/-- What is reached and what is free has room in the pool. -/
theorem reached_add_free_le (closed : g.Closed roots) (nodup : g.free.Nodup)
    (free : ∀ i ∈ g.free, i < g.capacity ∧ ¬ g.Reach roots i) :
    {i | g.Reach roots i}.ncard + g.free.length ≤ g.capacity := by
  have apart : Disjoint {i | g.Reach roots i} (g.free.toFinset : Set NodeId) :=
    Set.disjoint_left.mpr fun i hi hf => (free i (by simpa using hf)).2 hi
  have inside : {i | g.Reach roots i} ∪ (g.free.toFinset : Set NodeId) ⊆
      (Finset.range g.capacity : Set NodeId) := by
    rintro i (hi | hf)
    · obtain ⟨ls, stored⟩ := closed i hi
      simpa using lt_of_stored stored
    · simpa using (free i (by simpa using hf)).1
  have counted := Set.ncard_le_ncard inside (Finset.finite_toSet _)
  rwa [Set.ncard_union_eq apart (reached_finite closed) (Finset.finite_toSet _),
    Set.ncard_coe_finset, Set.ncard_coe_finset, Finset.card_range,
    List.toFinset_card_of_nodup nodup] at counted

/-- After a collection there is nothing else in the pool. -/
theorem Collected.reached_add_free (c : g.Collected roots g') (closed : g.Closed roots) :
    {i | g.Reach roots i}.ncard + g'.free.length = g.capacity := by
  have parts : {i | g.Reach roots i} ∪ (g'.free.toFinset : Set NodeId) =
      (Finset.range g.capacity : Set NodeId) := by
    ext i
    have lt : g.Reach roots i → i < g.capacity := fun hi => by
      obtain ⟨ls, stored⟩ := closed i hi
      exact lt_of_stored stored
    simp only [Set.mem_union, Set.mem_ofPred_eq, List.coe_toFinset, Finset.coe_range, Set.mem_Iio,
      c.free]
    tauto
  have apart : Disjoint {i | g.Reach roots i} (g'.free.toFinset : Set NodeId) :=
    Set.disjoint_left.mpr fun i hi hf => ((c.free i).mp (by simpa using hf)).2 hi
  have counted := congrArg Set.ncard parts
  rwa [Set.ncard_union_eq apart (reached_finite closed) (Finset.finite_toSet _),
    Set.ncard_coe_finset, Set.ncard_coe_finset, Finset.card_range,
    List.toFinset_card_of_nodup (c.sorted.imp Nat.ne_of_lt)] at counted

/-- Slots were handed out that nothing reaches. -/
structure Serves (g : Graph) (roots : List Link) (n : Nat) (ids : List NodeId) (g' : Graph) :
    Prop where
  length : ids.length = n
  nodup : ids.Nodup
  unreached : ∀ i ∈ ids, ¬ g.Reach roots i
  blank : ∀ i ∈ ids, g'.nodes[i]? = some .placeholder
  intact : g.Intact roots g'

theorem afterTake_serves (nodup : g.free.Nodup)
    (free : ∀ i ∈ g.free, i < g.capacity ∧ ¬ g.Reach roots i) (enough : g.hasFree n = true) :
    g.Serves roots n (g.free.take n) (g.afterTake n) := by
  have node := afterTake_node (n := n) fun j hj => (free j hj).1
  refine ⟨?_, nodup.sublist (List.take_sublist n _),
    fun i hi => (free i (List.mem_of_mem_take hi)).2, fun i hi => (node i).trans (if_pos hi),
    fun i hi => (node i).trans (if_neg fun hf => (free i (List.mem_of_mem_take hf)).2 hi),
    fun _ _ _ _ => rfl⟩
  rw [List.length_take]
  exact Nat.min_eq_left (hasFree_iff.mp enough)

theorem Serves.after {g₀ : Graph} {ids : List NodeId} (h : g.Serves roots n ids g')
    (c : g₀.Intact roots g) : g₀.Serves roots n ids g' where
  length := h.length
  nodup := h.nodup
  unreached i hi reached := h.unreached i hi (c.reach_iff.mpr reached)
  blank := h.blank
  intact := c.trans h.intact

theorem extend_intact (closed : g.Closed roots) (n : Nat) : g.Intact roots (g.extend n) where
  node i hi := by
    obtain ⟨ls, stored⟩ := closed i hi
    exact Array.getElem?_append_left (lt_of_stored stored)
  block _ _ _ _ := rfl

/-- What was reached is as it was, and none of it is free. -/
structure Stocks (g : Graph) (roots : List Link) (g' : Graph) : Prop where
  sound : g'.Sound
  intact : g.Intact roots g'
  grown : g.capacity ≤ g'.capacity
  pools : g'.pools.size = g.pools.size
  unreached : ∀ i ∈ g'.free, ¬ g.Reach roots i

theorem Collected.stocks (c : g.Collected roots g') (h : g.Sound) : g.Stocks roots g' :=
  ⟨c.storage h, c.intact, c.capacity.ge, c.pools, fun i hi => ((c.free i).mp hi).2⟩

theorem Stocks.extend (s : g.Stocks roots g') (closed : g.Closed roots) (n : Nat) :
    g.Stocks roots (g'.extend n) where
  sound := (extend_grown s.sound).sound
  intact := s.intact.trans (extend_intact (s.intact.closed closed) n)
  grown := s.grown.trans (extend_grown s.sound).capacity
  pools := s.pools
  unreached i hi reached := by
    rcases List.mem_append.mp hi with new | old
    · obtain ⟨ls, stored⟩ := s.intact.closed closed i (s.intact.reach_iff.mpr reached)
      exact Nat.lt_irrefl _ (Nat.lt_of_lt_of_le (lt_of_stored stored) (List.mem_range'_1.mp new).1)
    · exact s.unreached i old reached

theorem Stocks.serves (s : g.Stocks roots g') (enough : g'.hasFree n = true) :
    g.Serves roots n (g'.free.take n) (g'.afterTake n) :=
  (afterTake_serves s.sound.free_nodup (fun i hi =>
    ⟨s.sound.free_lt i hi, fun reached => s.unreached i hi (s.intact.reach_iff.mp reached)⟩)
      enough).after s.intact

/-- A pool grows by as much as is missing, or cannot. -/
theorem grow_cases (g : Graph) (n : Nat) (few : g.free.length < n) :
    (∃ added, g.grow? n = some (g.extend added) ∧ n ≤ added + g.free.length ∧
      g.capacity + added ≤ g.maxNodes) ∨
    (g.grow? n = none ∧ g.maxNodes < g.capacity + (n - g.free.length)) := by
  unfold grow?
  dsimp only
  split
  · exact .inr ⟨rfl, by omega⟩
  · exact .inl ⟨_, rfl, by omega, by omega⟩

end Graph

namespace Machine

variable {m m' : Machine}

theorem WellFormed.closed (wf : m.WellFormed) : m.graph.Closed m.rootSet := by
  intro i hi
  obtain ⟨n, sym, ls, node, -, -, stores, -, -⟩ := (wf i hi).stored
  refine ⟨ls, ?_⟩
  unfold Graph.storedSuccessors Graph.node
  rw [node]
  show m.graph.storedLinks n = _
  unfold Graph.storedLinks
  cases stores with
  | none h => rw [h]; rfl
  | one a h => rw [h]; rfl
  | two a b h => rw [h]; rfl
  | block b ls h bound length block used alone => simp only [h, Graph.block, block]
  | literal l h held => rw [h]; rfl

theorem WellFormed.stocks (wf : m.WellFormed) (sound : m.graph.Sound) :
    m.graph.Stocks m.rootSet m.graph :=
  ⟨sound, ⟨fun _ _ => rfl, fun _ _ _ _ => rfl⟩, le_rfl, rfl, fun i hi reached => (wf i reached).unfree hi⟩

/-- A request leaves what is reached and the root set alone, and the pool keeps to its limit. -/
structure Preserves (m m' : Machine) : Prop where
  intact : m.graph.Intact m.rootSet m'.graph
  roots : m'.rootSet = m.rootSet
  capacity : m'.graph.capacity ≤ m.config.maxNodes

end Machine

namespace Eff

open Machine

variable {m : Machine}

/-- The machine after a collection that has left this graph. -/
def collectedTo (m : Machine) (g : Graph) : Machine :=
  chargeCollection { m.setGraph g with collections := m.collections + 1 }

/-- What a request comes to, given what a collection leaves. -/
theorem allocate_eq {k n : Nat} {g : Graph} (collected : m.graph.collect m.rootSet = .ok (k, g)) :
    allocate n m =
      if m.graph.hasFree n then .ok (m.graph.free.take n) (m.setGraph (m.graph.afterTake n))
      else if g.hasFree n then .ok (g.free.take n) ((collectedTo m g).setGraph (g.afterTake n))
      else match g.grow? n with
        | none => .error (.fatal (.exhausted n g.liveCount g.capacity)) (collectedTo m g)
        | some g' =>
          if g'.hasFree n then .ok (g'.free.take n) ((collectedTo m g).setGraph (g'.afterTake n))
          else .error (.fatal (.exhausted n g'.liveCount g'.capacity))
            ((collectedTo m g).setGraph g') := by
  have graph : (collectedTo m g).graph = g := (chargeCollection_same _).1
  have take : ∀ m : Machine, take? n m = if m.graph.hasFree n then
      .ok (some (m.graph.free.take n)) (m.setGraph (m.graph.afterTake n)) else .ok none m :=
    fun m => rfl
  have collects : collect m = .ok k (collectedTo m g) := by
    unfold collect
    rw [collected]
    rfl
  by_cases first : m.graph.hasFree n
  · rw [if_pos first]
    exact bind_ok ((take m).trans (if_pos first))
  · rw [if_neg first]
    refine (bind_ok ((take m).trans (if_neg first))).trans ((bind_ok collects).trans ?_)
    have second := take (collectedTo m g)
    rw [graph] at second
    by_cases enough : g.hasFree n
    · rw [if_pos enough]
      exact bind_ok (second.trans (if_pos enough))
    · rw [if_neg enough]
      refine (bind_ok (second.trans (if_neg enough))).trans ?_
      cases grown : g.grow? n with
      | none =>
        have run : grow? n (collectedTo m g) = .ok false (collectedTo m g) := by
          unfold grow?
          rw [graph, grown]
        refine (bind_ok run).trans ?_
        show EStateM.Result.error (Stop.fatal (.exhausted n (collectedTo m g).graph.liveCount
          (collectedTo m g).graph.capacity)) (collectedTo m g) = _
        rw [graph]
      | some g' =>
        have run : grow? n (collectedTo m g) = .ok true ((collectedTo m g).setGraph g') := by
          unfold grow?
          rw [graph, grown]
        have third := take ((collectedTo m g).setGraph g')
        refine (bind_ok run).trans ?_
        dsimp only
        by_cases enough' : g'.hasFree n
        · rw [if_pos enough']
          exact bind_ok (third.trans (if_pos enough'))
        · rw [if_neg enough']
          exact bind_ok (third.trans (if_neg enough'))

/-- Either there is room and the request is served, or there is none and it is refused. -/
theorem allocate_cases (wf : m.WellFormed) (storage : m.graph.Sound) (bounded : m.Bounded) (n : Nat) :
    ({i | m.Reachable i}.ncard + n ≤ m.config.maxNodes ∧ ∃ ids m', allocate n m = .ok ids m' ∧
      m.graph.Serves m.rootSet n ids m'.graph ∧ m.Preserves m') ∨
    (m.config.maxNodes < {i | m.Reachable i}.ncard + n ∧ ∃ live capacity m',
      allocate n m = .error (.fatal (.exhausted n live capacity)) m' ∧ m.Preserves m') := by
  have closed := wf.closed
  obtain ⟨g, collected, c⟩ := Graph.collect_exact storage.tenancy closed
  have run := allocate_eq (n := n) collected
  have limit := bounded.capacity
  have roots : (collectedTo m g).rootSet = m.rootSet := (chargeCollection_same _).2.2
  have stocks := wf.stocks storage
  have swept := c.stocks storage
  have reached := c.reached_add_free closed
  by_cases first : m.graph.hasFree n
  · rw [if_pos first] at run
    have unreached : ∀ i ∈ m.graph.free, i < m.graph.capacity ∧ ¬ m.graph.Reach m.rootSet i :=
      fun i hi => ⟨storage.free_lt i hi, stocks.unreached i hi⟩
    have room := Graph.reached_add_free_le closed storage.free_nodup unreached
    have enough := Graph.hasFree_iff.mp first
    have serves := stocks.serves first
    refine .inl ⟨?_, _, _, run, serves, serves.intact, rfl, ?_⟩
    · show {i | m.graph.Reach m.rootSet i}.ncard + n ≤ _
      omega
    · exact (m.graph.afterTake_capacity n).le.trans limit
  · rw [if_neg first] at run
    by_cases second : g.hasFree n
    · rw [if_pos second] at run
      have enough := Graph.hasFree_iff.mp second
      have serves := swept.serves second
      refine .inl ⟨?_, _, _, run, serves, serves.intact, roots, ?_⟩
      · show {i | m.graph.Reach m.rootSet i}.ncard + n ≤ _
        omega
      · exact ((g.afterTake_capacity n).trans c.capacity).le.trans limit
    · rw [if_neg second] at run
      have few : g.free.length < n := by
        by_contra enough
        exact second (Graph.hasFree_iff.mpr (Nat.le_of_not_lt enough))
      have capacity : g.capacity = m.graph.capacity := c.capacity
      have max : g.maxNodes = m.config.maxNodes := c.max.trans bounded.limit
      rcases g.grow_cases n few with ⟨added, grown, enough, fits⟩ | ⟨grown, small⟩
      · have third : (g.extend added).hasFree n := by
          apply Graph.hasFree_iff.mpr
          simpa [Graph.extend] using enough
        simp only [grown, if_pos third] at run
        have size : (g.extend added).capacity = g.capacity + added := by
          simp only [Graph.capacity, Graph.extend, Array.size_append, Array.size_replicate]
        have serves := (swept.extend closed added).serves third
        refine .inl ⟨?_, _, _, run, serves, serves.intact, roots, ?_⟩
        · show {i | m.graph.Reach m.rootSet i}.ncard + n ≤ _
          omega
        · rw [Machine.setGraph, Graph.afterTake_capacity, size]
          omega
      · simp only [grown] at run
        have graph : (collectedTo m g).graph = g := (chargeCollection_same _).1
        refine .inr ⟨?_, _, _, _, run, graph.symm ▸ c.intact, roots, ?_⟩
        · show _ < {i | m.graph.Reach m.rootSet i}.ncard + n
          omega
        · rw [graph, capacity]
          exact limit

/-- Exhaustion is reported if and only if what is reached and what is requested exceed the limit. -/
theorem allocate_spec (wf : m.WellFormed) (storage : m.graph.Sound) (bounded : m.Bounded) (n : Nat) :
    ((∃ live capacity m', allocate n m = .error (.fatal (.exhausted n live capacity)) m') ↔
      m.config.maxNodes < {i | m.Reachable i}.ncard + n) ∧
    ((∃ ids m', allocate n m = .ok ids m') ↔
      {i | m.Reachable i}.ncard + n ≤ m.config.maxNodes) ∧
    (∀ ids m', allocate n m = .ok ids m' → ids.length = n ∧ ids.Nodup ∧
      (∀ i ∈ ids, ¬ m.Reachable i ∧ m'.graph.nodes[i]? = some .placeholder) ∧ m.Preserves m') ∧
    (∀ stop m', allocate n m = .error stop m' → m.Preserves m') := by
  rcases allocate_cases wf storage bounded n with
    ⟨room, ids, m', run, serves, keeps⟩ | ⟨full, live, capacity, m', run, keeps⟩
  · refine ⟨⟨fun ⟨_, _, _, run'⟩ => ?_, fun full => ?_⟩, ⟨fun _ => room, fun _ => ⟨_, _, run⟩⟩,
      fun ids' m'' run' => ?_, fun stop m'' run' => ?_⟩
    · cases run.symm.trans run'
    · omega
    · cases run.symm.trans run'
      exact ⟨serves.length, serves.nodup, fun i hi => ⟨serves.unreached i hi, serves.blank i hi⟩, keeps⟩
    · cases run.symm.trans run'
  · refine ⟨⟨fun _ => full, fun _ => ⟨_, _, _, run⟩⟩, ⟨fun ⟨_, _, run'⟩ => ?_, fun room => ?_⟩,
      fun ids' m'' run' => ?_, fun stop m'' run' => ?_⟩
    · cases run.symm.trans run'
    · omega
    · cases run.symm.trans run'
    · cases run.symm.trans run'
      exact keeps

/-- One literal in a pool of two slots: one more node is served, two more are refused. -/
theorem allocate_spec_literal : ∃ m, Operation.Run (.ofConfig (.fixedPool 2)) m ∧
    m.WellFormed ∧ m.graph.Sound ∧ m.Bounded ∧ (∃ ids m', allocate 1 m = .ok ids m') ∧
    ∃ live capacity m', allocate 2 m = .error (.fatal (.exhausted 2 live capacity)) m' := by
  let facts : Machine → Bool := fun m => decide (m.rootSet = [some 0] ∧
    (m.graph.storedSuccessors 0).toOption = some [] ∧ m.config.maxNodes = 2)
  have result : (Operation.script (.ofConfig (.fixedPool 2)) [.int 7]).map facts = some true := by
    decide +kernel
  obtain ⟨m, ran, facts⟩ := Option.map_eq_some_iff.mp result
  obtain ⟨roots, stored, limit⟩ := of_decide_eq_true facts
  have run : Operation.Run (.ofConfig (.fixedPool 2)) m := Operation.Run.start.script ran
  have new : Machine.new (.fixedPool 2) = .ok (.ofConfig (.fixedPool 2)) := rfl
  obtain ⟨ρ, inv⟩ := run.sound new
  have only : {i | m.Reachable i} = {0} := by
    ext i
    constructor
    · intro hi
      induction hi with
      | root hi =>
        rw [roots] at hi
        simpa using hi
      | step _ edge ih =>
        obtain ⟨ls, links, hj⟩ := edge
        cases ih
        rw [links] at stored
        cases stored
        exact absurd hj List.not_mem_nil
    · rintro rfl
      exact .root (by rw [roots]; exact List.mem_singleton.mpr rfl)
  have count : {i | m.Reachable i}.ncard = 1 := by rw [only, Set.ncard_singleton]
  refine ⟨m, run, inv.wellFormed, inv.storage, run.bounded new, ?_, ?_⟩
  · exact (allocate_spec inv.wellFormed inv.storage (run.bounded new) 1).2.1.mpr (by omega)
  · exact (allocate_spec inv.wellFormed inv.storage (run.bounded new) 2).1.mpr (by omega)

end Eff

end ChoiceGraph
