import ChoiceGraph.Proofs.Balance
import ChoiceGraph.Proofs.Exhaustion
import ChoiceGraph.Proofs.Footprint

/-! # Rewriting, down to the blocks

A write gives a node its content and gives back the block the node had. What other nodes store is not
touched, nor are their blocks. A request for nodes hands out slots that nothing reaches, or is refused;
what is reached is as it was either way, and the blocks of what is not may have been given back. -/
namespace ChoiceGraph

namespace Graph

variable {S S' : NodeId → Prop} {g g' g'' : Graph} {i j : NodeId} {b : BlockId} {c : Content}
  {roots : List Link} {n : Nat}

/-! ## What a write leaves alone -/

/-- Only nodes of `S` were written: any other node is the same, and so is its block. -/
structure Leaves (S : NodeId → Prop) (g g' : Graph) : Prop where
  sound : g'.Sound
  free : g'.free = g.free
  capacity : g'.capacity = g.capacity
  pools : g'.pools.size = g.pools.size
  nodes : ∀ j, ¬ S j → g'.nodes[j]? = g.nodes[j]?
  blocks : ∀ j b, ¬ S j → g.Owns j b → g'.block? b = g.block? b

namespace Leaves

theorem refl (h : g.Sound) : g.Leaves S g := ⟨h, rfl, rfl, rfl, fun _ _ => rfl, fun _ _ _ _ => rfl⟩

theorem owns (h : g.Leaves S g') (out : ¬ S j) : g'.Owns j b ↔ g.Owns j b := by
  unfold Owns
  rw [h.nodes j out]

theorem trans (h : g.Leaves S g') (k : g'.Leaves S g'') : g.Leaves S g'' where
  sound := k.sound
  free := k.free.trans h.free
  capacity := k.capacity.trans h.capacity
  pools := k.pools.trans h.pools
  nodes j out := (k.nodes j out).trans (h.nodes j out)
  blocks j b out owned := (k.blocks j b out ((h.owns out).mpr owned)).trans (h.blocks j b out owned)

theorem mono (h : g.Leaves S g') (sub : ∀ i, S i → S' i) : g.Leaves S' g' :=
  { h with
    nodes := fun j out => h.nodes j fun hj => out (sub j hj)
    blocks := fun j b out => h.blocks j b fun hj => out (sub j hj) }

theorem content (h : g.Leaves S g') (out : ¬ S j) : g'.content? j = g.content? j :=
  content_congr (h.nodes j out) fun b owned => h.blocks j b out owned

end Leaves

/-- Node `i` has taken on a content, and its old block was given back. -/
structure Wrote (g : Graph) (i : NodeId) (c : Content) (g' : Graph) : Prop extends Sets g i c g' where
  nodes : ∀ j, j ≠ i → g'.nodes[j]? = g.nodes[j]?
  blocks : ∀ j b, j ≠ i → g.Owns j b → g'.block? b = g.block? b
  released : ∀ b, g.Owns i b → ¬ g'.InUse b

theorem Wrote.leaves (w : g.Wrote i c g') : g.Leaves (Only i) g' :=
  ⟨w.sound, w.free, w.capacity, w.pools, w.nodes, w.blocks⟩

/-- More than two links stand in a block of the node's own. -/
theorem owns_of_content (hc : g.content? i = some c) (many : inlineBound ≤ c.links.length) :
    ∃ b, g.Owns i b ∧ b.arity = c.links.length ∧ g.block? b = some (c.links.map some) := by
  obtain ⟨slots, node, cargo⟩ := content_eq_some.mp hc
  cases slots with
  | pooled b =>
    obtain ⟨ls, links, block, -, length⟩ := cargo_pooled.mp cargo
    have same : c.links = ls := by rw [Content.links, links]; rfl
    rw [same]
    exact ⟨b, ⟨_, node, rfl⟩, length.symm, block⟩
  | data l =>
    have none : c.links = [] := by rw [Content.links, ← Option.some.inj cargo]; rfl
    simp [none, inlineBound] at many
  | inline x y =>
    have few : c.links.length ≤ 2 := by
      rw [Content.links]
      rcases x with _ | x <;> rcases y with _ | y <;> simp only [cargo?] at cargo <;>
        first | cases cargo | (rw [← Option.some.inj cargo]; simp [Cargo.successors])
    simp only [inlineBound] at many
    omega

/-! ## What a request hands out -/

/-- Slots of the pool that nothing reaches were handed out, and are not free any more. -/
structure Grants (g : Graph) (roots : List Link) (n : Nat) (ids : List NodeId) (g' : Graph) : Prop where
  serves : g.Serves roots n ids g'
  sound : g'.Sound
  grown : g.capacity ≤ g'.capacity
  pools : g'.pools.size = g.pools.size
  lt : ∀ i ∈ ids, i < g'.capacity
  unfree : ∀ i ∈ ids, i ∉ g'.free

theorem Stocks.take (s : g.Stocks roots g') (enough : g'.hasFree n = true) :
    g.Grants roots n (g'.free.take n) (g'.afterTake n) where
  serves := s.serves enough
  sound := (afterTake_taken s.sound).sound
  grown := s.grown.trans (g'.afterTake_capacity n).ge
  pools := s.pools
  lt _ hi := (g'.afterTake_capacity n).symm ▸ s.sound.free_lt _ (List.mem_of_mem_take hi)
  unfree _ hi back := List.disjoint_take_drop s.sound.free_nodup (Nat.le_refl n) hi back

end Graph

/-! ## Writes -/

namespace Eff

open Machine

variable {m m' : Machine} {i : NodeId} {c : Content} {n : Node} {cargo : Cargo}

theorem put_released (h : m.graph.Sound) (run : put i n m = .ok () m') :
    (∀ j, j ≠ i → m'.graph.nodes[j]? = m.graph.nodes[j]?) ∧
      (∀ j b, j ≠ i → m.graph.Owns j b → m'.graph.block? b = m.graph.block? b) ∧
      ∀ b, m.graph.Owns i b → ¬ m'.graph.InUse b := by
  have other : ∀ {g : Graph}, g.nodes = m.graph.nodes → ∀ j, j ≠ i →
      (g.setNode i n).nodes[j]? = m.graph.nodes[j]? := by
    intro g nodes j hj
    rw [← nodes]
    exact Array.getElem?_setIfInBounds_ne (Ne.symm hj)
  unfold put at run
  cases node : m.graph.node i with
  | error e => simp only [node] at run; cases run
  | ok old =>
    have slot : m.graph.nodes[i]? = some old := by
      unfold Graph.node at node
      split at node
      · next found =>
        cases node
        exact found
      · cases node
    have owned : ∀ b, m.graph.Owns i b → old.slots = .pooled b := by
      rintro b ⟨n', found, slots⟩
      cases slot.symm.trans found
      exact slots
    cases hs : old.slots with
    | inline x y =>
      simp only [node, hs] at run
      cases run
      exact ⟨other rfl, fun _ _ _ _ => rfl, fun b hb => nomatch hs.symm.trans (owned b hb)⟩
    | data l =>
      simp only [node, hs] at run
      cases run
      exact ⟨other rfl, fun _ _ _ _ => rfl, fun b hb => nomatch hs.symm.trans (owned b hb)⟩
    | pooled b =>
      have here : m.graph.Owns i b := ⟨old, slot, hs⟩
      obtain ⟨g, released, r⟩ := Graph.releaseBlock_releases (h.in_use i b here)
      simp only [node, hs, released] at run
      cases run
      refine ⟨other r.nodes, fun j b' hj hb' => ?_, fun b' hb' => ?_⟩
      · exact (r.others b' fun same => hj (h.alone j i b (same ▸ hb') here)).2
      · obtain rfl : b = b' := by
          cases hs.symm.trans (owned b' hb')
          rfl
        exact r.freed

theorem put_wrote (h : m.graph.Sound) (lt : i < m.graph.capacity)
    (block : ∀ b, n.slots = .pooled b → m.graph.InUse b ∧ ∀ j, ¬ m.graph.Owns j b)
    (stored : m.graph.cargo? n.slots = some cargo) :
    ∃ g', put i n m = .ok () (m.setGraph g') ∧
      m.graph.Wrote i ⟨n.tag, n.symbol, n.aux, cargo⟩ g' := by
  obtain ⟨g', run, sets⟩ := put_sets h lt block stored
  obtain ⟨nodes, blocks, released⟩ := put_released h run
  exact ⟨g', run, { sets with nodes := nodes, blocks := blocks, released := released }⟩

/-- A node without a block of its own. -/
theorem put_unpooled (h : m.graph.Sound) (lt : i < m.graph.capacity)
    (unpooled : ∀ b, n.slots ≠ .pooled b) (stored : m.graph.cargo? n.slots = some cargo) :
    ∃ g', put i n m = .ok () (m.setGraph g') ∧
      m.graph.Wrote i ⟨n.tag, n.symbol, n.aux, cargo⟩ g' :=
  put_wrote h lt (fun b hb => absurd hb (unpooled b)) stored

theorem rewriteFree_wrote (h : m.graph.Sound) (lt : i < m.graph.capacity) (id : Nat) :
    ∃ g', rewriteFree i id none m = .ok () (m.setGraph g') ∧
      m.graph.Wrote i (freeContent id none) g' :=
  put_unpooled h lt nofun rfl

theorem rewriteFail_wrote (h : m.graph.Sound) (lt : i < m.graph.capacity) :
    ∃ g', rewriteFail i m = .ok () (m.setGraph g') ∧ m.graph.Wrote i .blank g' :=
  put_unpooled (n := .placeholder) h lt nofun rfl

theorem rewriteForward_wrote (h : m.graph.Sound) (lt : i < m.graph.capacity) (j : NodeId) :
    ∃ g', rewriteForward i (some j) m = .ok () (m.setGraph g') ∧
      m.graph.Wrote i ⟨.forward, Builtin.forward, 0, .links [j]⟩ g' :=
  put_unpooled h lt nofun rfl

/-- There is a place for so many links: in the node, or in a pool for blocks of their number. -/
def Fitting (m : Machine) (n : Nat) : Prop := n < inlineBound ∨ n < m.graph.pools.size

theorem storeLinks_stored (h : m.graph.Sound) (ls : List NodeId) (fits : Fitting m ls.length) :
    ∃ slots g', storeLinks (ls.map some) m = .ok slots (m.setGraph g') ∧
      m.graph.Recycles g' (fun _ => True) ∧
      (∀ b, slots = .pooled b → g'.InUse b ∧ ∀ j, ¬ g'.Owns j b) ∧
      g'.cargo? slots = some (.links ls) := by
  rcases storeLinks_recycles h (ls.map some) with ⟨slots, g', run, r, block, -, cargo⟩ | ⟨err, failed⟩
  · exact ⟨slots, g', run, r, block, cargo ls rfl⟩
  · exfalso
    rcases ls with _ | ⟨x, _ | ⟨y, _ | ⟨z, ls⟩⟩⟩
    · cases failed
    · cases failed
    · cases failed
    · have many : inlineBound ≤ ((x :: y :: z :: ls).map some).length := by
        simp only [List.map_cons, List.length_cons, inlineBound]
        omega
      have room : ((x :: y :: z :: ls).map some).length < m.graph.pools.size := by
        rw [List.length_map] at many ⊢
        exact fits.resolve_left (Nat.not_lt.mpr many)
      obtain ⟨k, g, allocated, -⟩ := Graph.allocBlock_recycles h.pools many room
      simp only [storeLinks, List.map_cons] at failed allocated
      rw [allocated] at failed
      dsimp only at failed
      split at failed <;> cases failed

theorem rewrite_wrote (h : m.graph.Sound) (lt : i < m.graph.capacity) (tag : Tag) (symbol : SymbolId)
    (aux : Nat) (ls : List NodeId) (fits : Fitting m ls.length) :
    ∃ g', rewrite i tag symbol aux (ls.map some) m = .ok () (m.setGraph g') ∧
      m.graph.Wrote i ⟨tag, symbol, aux, .links ls⟩ g' := by
  obtain ⟨slots, g, stored, r, block, cargo⟩ := storeLinks_stored h ls fits
  have size : g.capacity = m.graph.capacity := congrArg Array.size r.nodes
  obtain ⟨g', run, w⟩ := put_wrote (m := m.setGraph g) (n := ⟨tag, symbol, aux, slots⟩) (r.sound h)
    (size.symm ▸ lt) block cargo
  refine ⟨g', (bind_ok stored).trans run, ⟨⟨w.sound, w.free.trans r.free, w.capacity.trans size,
    w.grow.trans r.grow, w.max.trans r.max, w.pools.trans r.size, w.same, fun j hj => ?_⟩,
    fun j hj => ?_, fun j b hj owned => ?_, fun b owned => ?_⟩⟩
  · exact (w.others j hj).trans (r.content h fun _ _ => trivial)
  · rw [w.nodes j hj]
    exact congrArg (·[j]?) r.nodes
  · exact (w.blocks j b hj (r.owns.mpr owned)).trans (r.kept b trivial (h.in_use j b owned)).2
  · exact w.released b (r.owns.mpr owned)

/-- Links for which there is no pool are refused, before anything is written. -/
theorem rewrite_refused (tag : Tag) (symbol : SymbolId) (aux : Nat) (links : List Link)
    (unfit : ¬ Fitting m links.length) : rewrite i tag symbol aux links m =
      .error (.fatal (.arityOutOfRange links.length m.graph.pools.size)) m := by
  obtain ⟨many, none⟩ := not_or.mp unfit
  refine bind_error ?_
  have refused : m.graph.allocBlock links.length =
      .error (.arityOutOfRange links.length m.graph.pools.size) := by
    unfold Graph.allocBlock
    rw [if_neg many, Array.getElem?_eq_none (Nat.le_of_not_lt none)]
  rcases links with _ | ⟨x, _ | ⟨y, _ | ⟨z, links⟩⟩⟩
  · simp [inlineBound] at many
  · simp [inlineBound] at many
  · simp [inlineBound] at many
  · simp only [storeLinks]
    rw [refused]

end Eff

/-! ## Requests -/

namespace Machine

variable {m m' m₁ : Machine} {roots : List Link} {S T : NodeId → Prop}

/-- The nodes of `S` and their blocks are as they were, and so are the roots. -/
structure Untouched (m : Machine) (S : NodeId → Prop) (m' : Machine) : Prop where
  nodes : ∀ i, S i → m'.graph.nodes[i]? = m.graph.nodes[i]?
  blocks : ∀ i b, S i → m.graph.Owns i b → m'.graph.block? b = m.graph.block? b
  roots : m'.roots = m.roots
  rootSet : m'.rootSet = m.rootSet

/-- What the roots reach is as it was, and what a collection does not account for is the same. -/
structure Spared (m : Machine) (roots : List Link) (m' : Machine) : Prop where
  intact : m.graph.Intact roots m'.graph
  sound : m'.graph.Sound
  grown : m.graph.capacity ≤ m'.graph.capacity
  pools : m'.graph.pools.size = m.graph.pools.size
  signature : m'.signature = m.signature
  config : m'.config = m.config
  roots : m'.roots = m.roots
  rootSet : m'.rootSet = m.rootSet
  nextId : m'.nextId = m.nextId

theorem Spared.untouched (s : m.Spared roots m') : m.Untouched (m.graph.Reach roots) m' :=
  ⟨s.intact.node, s.intact.block, s.roots, s.rootSet⟩

theorem Spared.owns (s : m.Spared roots m₁) {i : NodeId} {b : BlockId} (hi : m.graph.Reach roots i)
    (owned : m.graph.Owns i b) : m₁.graph.Owns i b := by
  obtain ⟨n, node, slots⟩ := owned
  exact ⟨n, (s.intact.node i hi).trans node, slots⟩

/-- Writing to nodes that nothing reached, after a request. -/
theorem Spared.leaves (s : m.Spared roots m₁) (l : m₁.graph.Leaves S m'.graph)
    (out : ∀ i, T i → m.graph.Reach roots i ∧ ¬ S i) (same : m'.roots = m₁.roots)
    (set : m'.rootSet = m₁.rootSet) : m.Untouched T m' where
  nodes i hi := (l.nodes i (out i hi).2).trans (s.intact.node i (out i hi).1)
  blocks i b hi owned := (l.blocks i b (out i hi).2 (s.owns (out i hi).1 owned)).trans
    (s.intact.block i b (out i hi).1 owned)
  roots := same.trans s.roots
  rootSet := set.trans s.rootSet

theorem chargeCollection_only (m : Machine) : ∃ computations slice,
    Eff.chargeCollection m = { m with computations := computations, slice := slice } := by
  unfold Eff.chargeCollection
  split
  · exact ⟨_, _, rfl⟩
  · unfold mapInnermost
    dsimp only
    split <;> split <;> exact ⟨_, _, rfl⟩

theorem spared_collected {g g' : Graph} (s : m.graph.Intact roots g')
    (sound : g'.Sound) (grown : m.graph.capacity ≤ g'.capacity)
    (pools : g'.pools.size = m.graph.pools.size) :
    m.Spared roots ((Eff.collectedTo m g).setGraph g') := by
  have rootSet : (Eff.collectedTo m g).rootSet = m.rootSet := (chargeCollection_same _).2.2
  obtain ⟨computations, slice, same⟩ :=
    chargeCollection_only { m.setGraph g with collections := m.collections + 1 }
  rw [Eff.collectedTo, same] at rootSet ⊢
  exact ⟨s, sound, grown, pools, rfl, rfl, rfl, rootSet, rfl⟩

end Machine

namespace Eff

open Machine

variable {m m' : Machine} {n : Nat} {roots : List Link}

/-- The request hands out nodes, or is refused because the pool is exhausted. -/
inductive Requested (m : Machine) (roots : List Link) (n : Nat) :
    EStateM.Result Stop Machine (List NodeId) → Prop
  | granted {ids : List NodeId} {m' : Machine} (spared : m.Spared roots m')
      (grants : m.graph.Grants roots n ids m'.graph) : Requested m roots n (.ok ids m')
  | refused {live capacity : Nat} {m' : Machine} (spared : m.Spared roots m') :
      Requested m roots n (.error (.fatal (.exhausted n live capacity)) m')

theorem allocate_requested (wf : m.WellFormed) (sound : m.graph.Sound) (n : Nat) :
    Requested m m.rootSet n (allocate n m) := by
  have closed := wf.closed
  obtain ⟨g, collected, c⟩ := Graph.collect_exact sound.tenancy closed
  have stocks := wf.stocks sound
  have swept := c.stocks sound
  have served : ∀ {g' : Graph}, m.graph.Grants m.rootSet n (g'.free.take n) (g'.afterTake n) →
      Requested m m.rootSet n (.ok (g'.free.take n) ((collectedTo m g).setGraph (g'.afterTake n))) :=
    fun grants => .granted (spared_collected grants.serves.intact grants.sound grants.grown grants.pools) grants
  rw [allocate_eq collected]
  by_cases first : m.graph.hasFree n
  · rw [if_pos first]
    have grants := stocks.take first
    exact .granted ⟨grants.serves.intact, grants.sound, grants.grown, grants.pools, rfl, rfl, rfl, rfl, rfl⟩ grants
  rw [if_neg first]
  by_cases second : g.hasFree n
  · rw [if_pos second]
    exact served (swept.take second)
  rw [if_neg second]
  cases grown : g.grow? n with
  | none =>
    have here : (collectedTo m g).setGraph g = collectedTo m g := by
      obtain ⟨computations, slice, same⟩ :=
        chargeCollection_only { m.setGraph g with collections := m.collections + 1 }
      rw [collectedTo, same]
      rfl
    exact .refused (here ▸ spared_collected swept.intact swept.sound swept.grown swept.pools)
  | some g' =>
    obtain ⟨added, rfl⟩ : ∃ added, g' = g.extend added := by
      unfold Graph.grow? at grown
      dsimp only at grown
      split at grown
      · cases grown
      · cases grown
        exact ⟨_, rfl⟩
    have stocks' := swept.extend closed added
    dsimp only
    by_cases third : (g.extend added).hasFree n
    · rw [if_pos third]
      exact served (stocks'.take third)
    · rw [if_neg third]
      exact .refused (spared_collected stocks'.intact stocks'.sound stocks'.grown stocks'.pools)

/-- While a request is made, the node that is being worked on is a root as well. -/
theorem allocateBeside_requested {root : NodeId} (wf : (m.push [some root]).WellFormed)
    (sound : m.graph.Sound) (n : Nat) :
    Requested m (some root :: m.rootSet) n (Reduction.allocateBeside root n m) := by
  have requested := allocate_requested wf sound n
  have pushed : (m.push [some root]).rootSet = some root :: m.rootSet := rfl
  rw [pushed] at requested
  have popped : ∀ {m' : Machine}, (m.push [some root]).Spared (some root :: m.rootSet) m' →
      m.Spared (some root :: m.rootSet) (m'.pop 1) := by
    intro m' s
    have roots : m'.roots = some root :: m.roots := s.roots
    have rootSet : m'.roots ++ m'.computations.flatMap Computation.roots =
        (some root :: m.roots) ++ m.computations.flatMap Computation.roots := s.rootSet
    rw [roots] at rootSet
    refine ⟨s.intact, s.sound, s.grown, s.pools, s.signature, s.config, ?_, ?_, s.nextId⟩
    · rw [pop, roots]
      rfl
    · rw [Machine.rootSet, pop, roots, Machine.rootSet, ← List.append_cancel_left rootSet]
      rfl
  unfold Reduction.allocateBeside withRoots
  rw [show { m with roots := [some root].reverse ++ m.roots } = m.push [some root] from rfl]
  generalize allocate n (m.push [some root]) = result at requested ⊢
  cases requested with
  | granted spared grants => exact .granted (popped spared) grants
  | refused spared => exact .refused (popped spared)

end Eff

end ChoiceGraph
