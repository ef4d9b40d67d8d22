import ChoiceGraph.Proofs.Effects
import ChoiceGraph.Proofs.Laws
import Mathlib.Order.Defs.Unbundled

/-! # Relations that effects keep to

Some relations between machines are kept by every primitive change that a step makes: to the graph,
to the root stack, to the next identifier, to the slice, and to the front frame. Whatever is
assembled from such changes keeps to them too, however it ends. This asks nothing of the graph,
which may be ill formed; of a change to it, this says only that the pool keeps to its limit. -/
namespace ChoiceGraph

/-! ## The limits of the pools -/

namespace Graph

variable {g g' g'' : Graph} {b : BlockId} {n : Nat}

/-- The limit of the pool is the same, and the pool has not grown past it. There are blocks for the same
numbers of links. -/
structure Within (g g' : Graph) : Prop where
  limit : g'.maxNodes = g.maxNodes
  capacity : g'.capacity ≤ max g.capacity g.maxNodes
  pools : g'.pools.size = g.pools.size

theorem Within.trans (h : g.Within g') (k : g'.Within g'') : g.Within g'' where
  limit := k.limit.trans h.limit
  capacity := by
    have := h.capacity
    have := k.capacity
    have := h.limit
    omega
  pools := k.pools.trans h.pools

theorem within_of_same (limit : g'.maxNodes = g.maxNodes) (nodes : g'.capacity = g.capacity)
    (pools : g'.pools.size = g.pools.size) : g.Within g' :=
  ⟨limit, nodes.le.trans (Nat.le_max_left _ _), pools⟩

/-- A pool of blocks in the place of another. -/
theorem modifyPool_within (g : Graph) (arity : Nat) (p : BlockPool) : g.Within (g.modifyPool arity p) :=
  within_of_same rfl rfl Array.size_setIfInBounds

theorem setNode_within (g : Graph) (i : NodeId) (n : Node) : g.Within (g.setNode i n) :=
  within_of_same rfl Array.size_setIfInBounds rfl

theorem afterTake_within (g : Graph) (n : Nat) : g.Within (g.afterTake n) :=
  within_of_same rfl (g.afterTake_capacity n) rfl

theorem grow_within (grown : g.grow? n = some g') : g.Within g' := by
  unfold grow? at grown
  dsimp only at grown
  split at grown
  · cases grown
  · cases grown
    refine ⟨rfl, ?_, rfl⟩
    simp only [Graph.capacity, extend, Array.size_append, Array.size_replicate]
    omega

theorem allocBlock_within (run : g.allocBlock n = .ok (b, g')) : g.Within g' := by
  unfold allocBlock at run
  split at run
  · cases run
  · split at run
    · cases run
    · cases run
      exact modifyPool_within _ _ _

theorem releaseBlock_within (run : g.releaseBlock? b = some g') : g.Within g' := by
  obtain ⟨p, -, run⟩ := Option.bind_eq_some_iff.mp run
  obtain ⟨p', -, run⟩ := Option.bind_eq_some_iff.mp run
  cases run
  exact modifyPool_within _ _ _

theorem writeBlock_within {links : List Link} (run : g.writeBlock? b links = some g') :
    g.Within g' := by
  obtain ⟨p, -, run⟩ := Option.bind_eq_some_iff.mp run
  obtain ⟨p', -, run⟩ := Option.bind_eq_some_iff.mp run
  cases run
  exact modifyPool_within _ _ _

theorem reclaim_within {i : NodeId} (run : g.reclaim i = .ok g') : g.Within g' := by
  have blanked : ∀ g₁ : Graph, g.Within g₁ →
      g.Within { g₁.setNode i .placeholder with free := i :: g₁.free } :=
    fun g₁ h => (h.trans (setNode_within g₁ i .placeholder)).trans (within_of_same rfl rfl rfl)
  unfold reclaim at run
  cases node : g.node i with
  | error e =>
    rw [node] at run
    cases run
  | ok n =>
    simp only [node, bind, Except.bind] at run
    cases hs : n.slots with
    | inline a b =>
      rw [hs] at run
      cases run
      exact blanked g (within_of_same rfl rfl rfl)
    | data l =>
      rw [hs] at run
      cases run
      exact blanked g (within_of_same rfl rfl rfl)
    | pooled b =>
      simp only [hs] at run
      cases released : g.releaseBlock? b with
      | none =>
        rw [released] at run
        cases run
      | some g₁ =>
        rw [released] at run
        cases run
        exact blanked g₁ (releaseBlock_within released)

theorem sweepBelow_within (marks : Array Bool) : ∀ (n : Nat) (g : Graph),
    sweepBelow marks n g = .ok g' → g.Within g' := by
  intro n
  induction n with
  | zero =>
    intro g run
    cases run
    exact within_of_same rfl rfl rfl
  | succ n ih =>
    intro g run
    unfold sweepBelow at run
    split at run
    · exact ih g run
    · cases reclaimed : g.reclaim n with
      | error e =>
        rw [reclaimed] at run
        cases run
      | ok g₁ =>
        rw [reclaimed] at run
        exact (reclaim_within reclaimed).trans (ih g₁ run)

theorem collect_within {roots : List Link} {r : Nat × Graph} (run : g.collect roots = .ok r) :
    g.Within r.2 := by
  unfold collect at run
  cases marking : g.marked roots with
  | error e =>
    rw [marking] at run
    cases run
  | ok marks =>
    simp only [marking, bind, Except.bind] at run
    cases sweeping : sweepBelow marks g.capacity { g with free := [] } with
    | error e =>
      rw [sweeping] at run
      cases run
    | ok g₁ =>
      rw [sweeping] at run
      cases run
      have emptied : g.Within { g with free := [] } := within_of_same rfl rfl rfl
      exact emptied.trans (sweepBelow_within marks g.capacity _ sweeping)

end Graph

/-- Every primitive change of a machine keeps to the relation, and so does an effect around which
roots are pushed and popped again. -/
class Machine.Bracketing (R : Machine → Machine → Prop) : Prop extends IsPreorder Machine R where
  graph : ∀ m g, m.graph.Within g → R m (m.setGraph g)
  rooted : ∀ (m : Machine) (links : List Link) (m' : Machine),
    R { m with roots := links.reverse ++ m.roots } m' →
    R m { m' with roots := m'.roots.drop links.length }
  nextId : ∀ m id, R m { m with nextId := id }
  spent : ∀ m, m.slice.isOver = false → R m { m with slice := m.slice.spend }
  collected : ∀ m g, m.graph.Within g →
    R m (Eff.chargeCollection { m.setGraph g with collections := m.collections + 1 })
  constrained : ∀ m update, R m (m.mapInnermost fun c => c.updateConstraints 0 update)

/-- Every primitive change of a machine keeps to the relation. -/
class Machine.Permissive (R : Machine → Machine → Prop) : Prop extends IsPreorder Machine R where
  graph : ∀ m g, m.graph.Within g → R m (m.setGraph g)
  roots : ∀ m links, R m { m with roots := links }
  nextId : ∀ m id, R m { m with nextId := id }
  spent : ∀ m, m.slice.isOver = false → R m { m with slice := m.slice.spend }
  collected : ∀ m g, m.graph.Within g →
    R m (Eff.chargeCollection { m.setGraph g with collections := m.collections + 1 })
  constrained : ∀ m update, R m (m.mapInnermost fun c => c.updateConstraints 0 update)

instance (R : Machine → Machine → Prop) [Machine.Permissive R] : Machine.Bracketing R where
  graph := Machine.Permissive.graph
  rooted m _ m' h := by
    have pushed := trans_of R (Machine.Permissive.roots m _) h
    exact trans_of R pushed (Machine.Permissive.roots m' _)
  nextId := Machine.Permissive.nextId
  spent := Machine.Permissive.spent
  collected := Machine.Permissive.collected
  constrained := Machine.Permissive.constrained

namespace Eff

open Machine

variable {α β : Type} {R S : Machine → Machine → Prop} {e : Eff α} {f : α → Eff β} {m : Machine}

/-! ## Runs that return -/

theorem bind_eq_ok {b : β} {m' : Machine} (run : (e >>= f) m = .ok b m') :
    ∃ a m₁, e m = .ok a m₁ ∧ f a m₁ = .ok b m' := by
  cases first : e m with
  | ok a m₁ => exact ⟨a, m₁, rfl, (bind_ok first).symm.trans run⟩
  | error stop m₁ => cases (bind_error first).symm.trans run

theorem look_eq_ok {r : Machine → Except Fault α} {a : α} {m' : Machine}
    (run : look r m = .ok a m') : r m = .ok a ∧ m' = m := by
  unfold look at run
  cases read : r m with
  | ok b =>
    rw [read] at run
    cases run
    exact ⟨rfl, rfl⟩
  | error e =>
    rw [read] at run
    cases run

/-- What a read returns goes on with the same machine. -/
theorem look_bind_eq_ok {r : Machine → Except Fault α} {b : β} {m' : Machine}
    (run : (look r >>= f) m = .ok b m') : ∃ a, r m = .ok a ∧ f a m = .ok b m' := by
  obtain ⟨a, m₁, read, rest⟩ := bind_eq_ok run
  obtain ⟨value, rfl⟩ := look_eq_ok read
  exact ⟨a, value, rest⟩

/-! ## Effects and relations between machines -/

/-- However it ends, the effect leads to a machine that is related to the one it started on. -/
def Moves (R : Machine → Machine → Prop) (e : Eff α) : Prop :=
  ∀ m, match e m with
    | .ok _ m' => R m m'
    | .error _ m' => R m m'

theorem Moves.ok {a : α} {m' : Machine} (h : e.Moves R) (run : e m = .ok a m') : R m m' := by
  have moved := h m
  rwa [run] at moved

theorem Moves.error {stop : Stop} {m' : Machine} (h : e.Moves R) (run : e m = .error stop m') :
    R m m' := by
  have moved := h m
  rwa [run] at moved

theorem Moves.mono (h : e.Moves R) (le : ∀ m m', R m m' → S m m') : e.Moves S := by
  intro m
  cases run : e m with
  | ok a m' => exact le m m' (h.ok run)
  | error stop m' => exact le m m' (h.error run)

section Preorder

variable [IsPreorder Machine R]

theorem moves_pure (a : α) : (pure a : Eff α).Moves R := fun m => refl_of R m

theorem moves_throw (stop : Stop) : (throw stop : Eff α).Moves R := fun m => refl_of R m

theorem moves_get : (get : Eff Machine).Moves R := fun m => refl_of R m

theorem moves_look (r : Machine → Except Fault α) : (look r).Moves R := by
  intro m
  unfold look
  cases r m with
  | ok a => exact refl_of R m
  | error e => exact refl_of R m

theorem Moves.bind (h : e.Moves R) (hf : ∀ a, (f a).Moves R) : (e >>= f).Moves R := by
  intro m
  cases run : e m with
  | ok a m' =>
    rw [bind_ok run]
    cases run' : f a m' with
    | ok b m'' => exact trans_of R (h.ok run) ((hf a).ok run')
    | error stop m'' => exact trans_of R (h.ok run) ((hf a).error run')
  | error stop m' =>
    rw [bind_error run]
    exact h.error run

end Preorder

/-! ## The heap -/

section Bracketing

variable [Bracketing R]

theorem withRoots_moves {links : List Link} (h : e.Moves R) : (withRoots links e).Moves R := by
  intro m
  unfold withRoots
  cases run : e { m with roots := links.reverse ++ m.roots } with
  | ok a m' => exact Bracketing.rooted m links m' (h.ok run)
  | error stop m' => exact Bracketing.rooted m links m' (h.error run)

theorem freshId_moves : freshId.Moves R := fun m => Bracketing.nextId m _

theorem collect_moves : collect.Moves R := by
  intro m
  unfold collect
  cases run : m.graph.collect m.rootSet with
  | error e => exact refl_of R m
  | ok r => exact Bracketing.collected m r.2 (Graph.collect_within run)

theorem take_moves (n : Nat) : (take? n).Moves R := by
  intro m
  unfold take?
  by_cases free : m.graph.hasFree n
  · rw [if_pos free]
    exact Bracketing.graph m _ (m.graph.afterTake_within n)
  · rw [if_neg free]
    exact refl_of R m

theorem grow_moves (n : Nat) : (grow? n).Moves R := by
  intro m
  unfold grow?
  cases grown : m.graph.grow? n with
  | some g => exact Bracketing.graph m g (Graph.grow_within grown)
  | none => exact refl_of R m

theorem exhausted_moves (n : Nat) : (exhausted n : Eff α).Moves R := fun m => refl_of R m

theorem put_moves (i : NodeId) (n : Node) : (put i n).Moves R := by
  intro m
  unfold put
  cases m.graph.node i with
  | error e => exact refl_of R m
  | ok old =>
    dsimp only
    cases old.slots with
    | inline a b => exact Bracketing.graph m _ (Graph.setNode_within _ _ _)
    | data l => exact Bracketing.graph m _ (Graph.setNode_within _ _ _)
    | pooled b =>
      dsimp only
      cases released : m.graph.releaseBlock? b with
      | none => exact refl_of R m
      | some g =>
        exact Bracketing.graph m _
          ((Graph.releaseBlock_within released).trans (Graph.setNode_within _ _ _))

theorem storeLinks_moves (links : List Link) : (storeLinks links).Moves R := by
  intro m
  rcases links with _ | ⟨a, _ | ⟨b, _ | ⟨c, rest⟩⟩⟩
  · exact refl_of R m
  · exact refl_of R m
  · exact refl_of R m
  · simp only [storeLinks]
    cases allocated : m.graph.allocBlock (a :: b :: c :: rest).length with
    | error e => exact refl_of R m
    | ok r =>
      obtain ⟨block, g⟩ := r
      dsimp only
      cases written : g.writeBlock? block (a :: b :: c :: rest) with
      | none => exact refl_of R m
      | some g =>
        exact Bracketing.graph m g
          ((Graph.allocBlock_within allocated).trans (Graph.writeBlock_within written))

theorem setSuccessor_moves (i : NodeId) (k : Nat) (target : Link) :
    (setSuccessor i k target).Moves R := by
  intro m
  unfold setSuccessor
  cases m.toTermGraph.successor i k with
  | error e => exact refl_of R m
  | ok _ =>
    cases m.graph.node i with
    | error e => exact refl_of R m
    | ok n =>
      dsimp only
      cases n.slots with
      | inline a b => exact Bracketing.graph m _ (Graph.setNode_within _ _ _)
      | data l => exact refl_of R m
      | pooled b =>
        dsimp only
        cases m.graph.block? b with
        | none => exact refl_of R m
        | some links =>
          dsimp only
          cases written : m.graph.writeBlock? b (links.set k target) with
          | none => exact refl_of R m
          | some g => exact Bracketing.graph m _ (Graph.writeBlock_within written)

theorem constrain_moves (update : ConstraintStore → ConstraintStore) :
    (modify fun m => m.mapInnermost fun c => c.updateConstraints 0 update : Eff Unit).Moves R :=
  fun m => Bracketing.constrained m update

theorem tick_moves : Reduction.tick.Moves R := by
  intro m
  unfold Reduction.tick
  by_cases spent : m.slice.isOver = true
  · simp only [if_pos spent]
    exact refl_of R m
  · simp only [if_neg spent]
    exact Bracketing.spent m (Bool.eq_false_iff.mpr spent)

/-- To lead to related machines is a law. -/
def moving (R : Machine → Machine → Prop) [Bracketing R] : Law where
  Holds e := e.Moves R
  returns := moves_pure
  throws := moves_throw
  sequence := Moves.bind
  reads _ := moves_look _
  gets _ h := moves_get.bind h
  roots _ h := withRoots_moves h
  freshId := freshId_moves
  collect := collect_moves
  take := take_moves
  grow := grow_moves
  exhausted := exhausted_moves
  put := put_moves
  storeLinks := storeLinks_moves
  setSuccessor := setSuccessor_moves
  constrain := constrain_moves
  tick := tick_moves

theorem Abides.moves (h : e.Abides (moving R)) : e.Moves R := h

theorem Moves.abides (h : e.Moves R) : e.Abides (moving R) := h

theorem allocate_moves (n : Nat) : (allocate n).Moves R := (allocate_abides n).moves

theorem makeData_moves (symbol : SymbolId) (aux : Nat) (literal : Literal) :
    (makeData symbol aux literal).Moves R := (makeData_abides symbol aux literal).moves

theorem makeFree_moves (type : Option TypeId) : (makeFree type).Moves R := (makeFree_abides type).moves

theorem make_moves (symbol : SymbolId) (links : List Link) : (make symbol links).Moves R :=
  (make_abides symbol links).moves

theorem makeChoice_moves (left right : Link) : (makeChoice left right).Moves R :=
  (makeChoice_abides left right).moves

theorem makeFunctionValue_moves (symbol : SymbolId) : (makeFunctionValue symbol).Moves R :=
  (makeFunctionValue_abides symbol).moves

end Bracketing

end Eff

namespace Reduction

open Eff Machine

variable {R : Machine → Machine → Prop} [Bracketing R] {r : Reducer} {root : NodeId} {k : Nat}

/-- The reductions of other nodes keep to the relation. -/
structure Reducer.Moves (R : Machine → Machine → Prop) (r : Reducer) : Prop where
  normal : ∀ i, (r.normal i).Moves R
  head : ∀ i, (r.head i).Moves R

theorem Reducer.Moves.abides (hr : r.Moves R) : r.Abides (moving R) := ⟨hr.normal, hr.head⟩

theorem Reducer.Abides.moves (hr : r.Abides (moving R)) : r.Moves R := ⟨hr.normal, hr.head⟩

theorem pullTab_moves (root : NodeId) (k : Nat) : (pullTab root k).Moves R := (pullTab_abides root k).moves

theorem bindVars_moves (x y : NodeId) (isLazy : Bool) : (bindVars x y isLazy).Moves R :=
  (bindVars_abides x y isLazy).moves

theorem bindGenerators_moves (var : VarId) : (bindGenerators var).Moves R :=
  (bindGenerators_abides var).moves

theorem narrow_moves (var : NodeId) : (narrow var).Moves R := (narrow_abides var).moves

theorem settle_moves (root : NodeId) (k : Nat) (arg : NodeId) : (settle root k arg).Moves R :=
  (settle_abides root k arg).moves

theorem settleArg_moves (root : NodeId) (k : Nat) (arg : NodeId) : (settleArg root k arg).Moves R :=
  (settleArg_abides root k arg).moves

theorem takeArg_moves (root : NodeId) (k : Nat) (link : Link) (arg : NodeId) :
    (takeArg root k link arg).Moves R := (takeArg_abides root k link arg).moves

theorem headArg_moves (hr : r.Moves R) (root : NodeId) (k : Nat) : (headArg r root k).Moves R :=
  (headArg_abides hr.abides root k).moves

theorem normalArg_moves (hr : r.Moves R) (root : NodeId) (k : Nat) : (normalArg r root k).Moves R :=
  (normalArg_abides hr.abides root k).moves

theorem succeed_moves (root : NodeId) : (succeed root).Moves R := (succeed_abides root).moves

end Reduction

end ChoiceGraph
