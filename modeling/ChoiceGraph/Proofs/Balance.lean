import ChoiceGraph.Machine.Run
import ChoiceGraph.Proofs.NestedSearches

/-! # Balanced stacks

What is called on a machine may push roots and start searches, and may be broken off in the middle:
by a visitor, at the end of a slice, at a variable, or because the pool is exhausted. However it ends,
the root stack and the searches under way are left as they were found. The front frame alone may have
lost allotment and gained constraints. This asks nothing of the graph. -/
namespace ChoiceGraph

namespace Machine

/-- The same roots, the same queues with the same decisions, and the same outer searches. -/
structure Balanced (m m' : Machine) : Prop where
  roots : m'.roots = m.roots
  searches : m.Undisturbed m'

/-- The same roots and outer searches; the innermost search may have gone on. -/
structure Enclosed (m m' : Machine) : Prop where
  roots : m'.roots = m.roots
  outer : m.Inside m'

variable {m m' : Machine}

instance : IsPreorder Machine Balanced where
  refl m := ⟨rfl, refl_of Undisturbed m⟩
  trans _ _ _ h k := ⟨k.roots.trans h.roots, trans_of Undisturbed h.searches k.searches⟩

instance : IsPreorder Machine Enclosed where
  refl m := ⟨rfl, refl_of Inside m⟩
  trans _ _ _ h k := ⟨k.roots.trans h.roots, trans_of Inside h.outer k.outer⟩

theorem Balanced.enclosed (h : m.Balanced m') : m.Enclosed m' := ⟨h.roots, h.searches.inside⟩

theorem balanced_of_same (roots : m'.roots = m.roots) (same : m'.computations = m.computations) :
    m.Balanced m' :=
  ⟨roots, undisturbed_of_same same⟩

theorem mapInnermost_roots (m : Machine) (f : Computation → Computation) :
    (m.mapInnermost f).roots = m.roots := by
  unfold mapInnermost
  split <;> rfl

theorem chargeCollection_roots (m : Machine) : (Eff.chargeCollection m).roots = m.roots := by
  unfold Eff.chargeCollection
  split
  · rfl
  · next f _ =>
    dsimp only
    split <;> exact mapInnermost_roots m _

/-- What was pushed around an effect that leaves the roots alone is what is popped. -/
theorem Balanced.popped {links : List Link}
    (h : Balanced { m with roots := links.reverse ++ m.roots } m') :
    m.Balanced { m' with roots := m'.roots.drop links.length } := by
  refine ⟨?_, ?_⟩
  · have pushed : m'.roots = links.reverse ++ m.roots := h.roots
    have length : links.length = links.reverse.length := List.length_reverse.symm
    show m'.roots.drop links.length = m.roots
    rw [pushed, length, List.drop_left]
  · have under : m.Undisturbed { m with roots := links.reverse ++ m.roots } :=
      undisturbed_of_same rfl
    have later : m'.Undisturbed { m' with roots := m'.roots.drop links.length } :=
      undisturbed_of_same rfl
    exact trans_of Undisturbed (trans_of Undisturbed under h.searches) later

instance : Bracketing Balanced where
  graph _ _ _ := balanced_of_same rfl rfl
  rooted _ _ _ h := h.popped
  nextId _ _ := balanced_of_same rfl rfl
  spent _ _ := balanced_of_same rfl rfl
  collected m g within := ⟨chargeCollection_roots _, Permissive.collected m g within⟩
  constrained m update := ⟨mapInnermost_roots m _, Permissive.constrained m update⟩

instance : Inward Enclosed where
  innermost m f := ⟨mapInnermost_roots m f, mapInnermost_inside f⟩
  resolved m c c' outer h := ⟨rfl, Inward.resolved m c c' outer h⟩
  sliced m slice := ⟨rfl, Inward.sliced m slice⟩

end Machine

namespace Schedule

open Machine

variable {m m' : Machine} {root : Link}

/-- Entering a search pushes one root and one queue, and leaving it takes them away again. -/
theorem leave_restores (h : (enter root m).Enclosed m') :
    (leave m.slice m').roots = m.roots ∧ (leave m.slice m').computations = m.computations ∧
      (leave m.slice m').slice = m.slice := by
  have roots : m'.roots = root :: m.roots := h.roots
  have outer : m'.computations.tail = m.computations := h.outer.trans List.tail_cons
  refine ⟨?_, outer, rfl⟩
  show m'.roots.tail = m.roots
  rw [roots, List.tail_cons]

instance : Encloses Balanced where
  searched h turns root s := by
    refine gather_around (fun i => (h i).mono fun _ _ balanced => balanced.enclosed) turns root s ?_
    intro m m' enclosed
    obtain ⟨roots, searches, -⟩ := leave_restores enclosed
    exact balanced_of_same roots searches

end Schedule

/-! ## Calls -/

/-- What may be called on a machine, with the arguments. A list of roots, a front frame, and a slice
that is used up in part are allowed to be there already. -/
inductive Call : Type 1 where
  | evaluate {σ : Type} (fuel : Nat) (visit : Schedule.Visitor σ) (root : NodeId) (s : σ)
  | values (fuel : Nat) (root : NodeId)
  | normalize (fuel : Nat) (i : NodeId)
  | headNormalize (fuel : Nat) (i : NodeId)
  | pullTab (root : NodeId) (k : Nat)
  | pullBind (root : NodeId) (k : Nat)
  | narrow (var : NodeId)
  | headArg (fuel : Nat) (root : NodeId) (k : Nat)
  | normalArg (fuel : Nat) (root : NodeId) (k : Nat)
  | allocate (n : Nat)
  | make (symbol : SymbolId) (links : List Link)
  | choice (left right : Link)
  | int (v : Int64)
  | float (v : Double)
  | char (v : Char)
  | fail
  | forward (next : Link)
  | free (type : Option TypeId)
  | functionValue (symbol : SymbolId)

namespace Call

open Eff Machine Reduction

/-- The machine that is left by a result, whatever it is. -/
def final {ε α : Type} : EStateM.Result ε Machine α → Machine
  | .ok _ m => m
  | .error _ m => m

/-- The machine that a call leaves, however it ends. -/
def leaves (m : Machine) : Call → Machine
  | evaluate fuel visit root s => final (m.evaluate fuel visit root s).ending
  | values fuel root => final (Machine.values fuel root m)
  | normalize fuel i => final (Machine.normalize fuel i m)
  | headNormalize fuel i => final (Machine.headNormalize fuel i m)
  | pullTab root k => final (Reduction.pullTab root k m)
  | pullBind root k => final (Reduction.pullBind root k m)
  | narrow var => final (Reduction.narrow var m)
  | headArg fuel root k => final (Reduction.headArg (reducer fuel) root k m)
  | normalArg fuel root k => final (Reduction.normalArg (reducer fuel) root k m)
  | allocate n => final (Eff.allocate n m)
  | make symbol links => final (Eff.make symbol links m)
  | choice left right => final (makeChoice left right m)
  | int v => final (makeInt v m)
  | float v => final (makeFloat v m)
  | char v => final (makeChar v m)
  | fail => final (makeFail m)
  | forward next => final (makeForward next m)
  | free type => final (makeFree type m)
  | functionValue symbol => final (makeFunctionValue symbol m)

/-- Calls that run a search of their own. -/
def Searches : Call → Prop
  | evaluate .. => True
  | values .. => True
  | _ => False

variable {R : Machine → Machine → Prop} {α : Type} {e : Eff α} {m : Machine}

theorem final_of_moves (h : e.Moves R) : R m (final (e m)) := by
  cases run : e m with
  | ok a m' => exact h.ok run
  | error stop m' => exact h.error run

theorem final_of_found {σ : Type} {found : Schedule.Found σ} (h : found.Moves R m) :
    R m (final found.ending) := by
  unfold Schedule.Found.Moves at h
  cases ended : found.ending with
  | ok st m' =>
    rw [ended] at h
    exact h
  | error stop m' =>
    rw [ended] at h
    exact h

/-- The roots, the searches and the slice are the same. -/
def Restored (m m' : Machine) : Prop :=
  m'.roots = m.roots ∧ m'.computations = m.computations ∧ m'.slice = m.slice

theorem Restored.balanced {m' : Machine} (h : Restored m m') : m.Balanced m' :=
  balanced_of_same h.1 h.2.1

/-- The reductions of a search keep to its queue, so that leaving it restores what was there. -/
theorem normal_enclosed (fuel : Nat) (i : NodeId) :
    (Reduction.normalize fuel i).Moves Enclosed :=
  ((reducer_moves Balanced fuel).normal i).mono fun _ _ balanced => balanced.enclosed

theorem evaluate_restores {σ : Type} (fuel : Nat) (visit : Schedule.Visitor σ) (root : NodeId)
    (s : σ) : Restored m (final (m.evaluate fuel visit root s).ending) :=
  final_of_found (Schedule.search_around (normal_enclosed fuel) fuel (some root) s fun _ enclosed =>
    Schedule.leave_restores enclosed)

theorem values_restores (fuel : Nat) (root : NodeId) :
    Restored m (final (Machine.values fuel root m)) := by
  let visit : Schedule.Visitor (List String) := fun m i texts => do
    return (texts ++ [← m.showTerm i], .more)
  have searched : (Schedule.gather (Reduction.normalize fuel) fuel visit (some root) []).Moves
      Restored :=
    Schedule.gather_around (normal_enclosed fuel) fuel (some root) [] fun _ _ enclosed =>
      Schedule.leave_restores enclosed
  have found : Machine.values fuel root m =
      (Schedule.gather (Reduction.normalize fuel) fuel visit (some root) [] >>= fun r => pure r.1) m :=
    rfl
  rw [found]
  cases run : Schedule.gather (Reduction.normalize fuel) fuel visit (some root) [] m with
  | ok r m' =>
    rw [bind_ok run]
    exact searched.ok run
  | error stop m' =>
    rw [bind_error run]
    exact searched.error run

theorem pullBind_moves [Bracketing R] (root : NodeId) (k : Nat) :
    (Reduction.pullBind root k).Moves R :=
  (moves_look _).bind fun _ => (moves_look _).bind fun var =>
    (pullTab_moves root k).bind fun _ => bindGenerators_moves var

/-- No call that runs on a queue disturbs it, nor the roots. -/
theorem leaves_balanced (m : Machine) (call : Call) : m.Balanced (call.leaves m) := by
  have reduces := fun fuel => reducer_moves Balanced fuel
  cases call with
  | evaluate fuel visit root s => exact (evaluate_restores fuel visit root s).balanced
  | values fuel root => exact (values_restores fuel root).balanced
  | normalize fuel i => exact final_of_moves (withRoots_moves ((reduces fuel).normal i))
  | headNormalize fuel i => exact final_of_moves (withRoots_moves ((reduces fuel).head i))
  | pullTab root k => exact final_of_moves (pullTab_moves root k)
  | pullBind root k => exact final_of_moves (pullBind_moves root k)
  | narrow var => exact final_of_moves (narrow_moves var)
  | headArg fuel root k => exact final_of_moves (headArg_moves (reduces fuel) root k)
  | normalArg fuel root k => exact final_of_moves (normalArg_moves (reduces fuel) root k)
  | allocate n => exact final_of_moves (allocate_moves n)
  | make symbol links => exact final_of_moves (make_moves symbol links)
  | choice left right => exact final_of_moves (makeChoice_moves left right)
  | int v => exact final_of_moves (makeData_moves _ _ _)
  | float v => exact final_of_moves (makeData_moves _ _ _)
  | char v => exact final_of_moves (makeData_moves _ _ _)
  | fail => exact final_of_moves (make_moves _ _)
  | forward next => exact final_of_moves (make_moves _ _)
  | free type => exact final_of_moves (makeFree_moves type)
  | functionValue symbol => exact final_of_moves (makeFunctionValue_moves symbol)

end Call

namespace Machine

variable {m m' : Machine}

/-- As many frames wait in each search, the outermost one last. -/
theorem Balanced.lengths (h : m.Balanced m') :
    m'.computations.map (·.queue.length) = m.computations.map (·.queue.length) := by
  cases h.searches with
  | idle before after => rw [before, after]
  | @inner c c' outer before after same =>
    have waiting := congrArg List.length same.waiting
    have front := congrArg Option.isSome same.front
    have length : c'.queue.length = c.queue.length := by
      cases hq : c.queue <;> cases hq' : c'.queue <;> simp_all
    rw [before, after, List.map_cons, List.map_cons, length]

theorem pendingFrames_eq (m : Machine) :
    m.pendingFrames = (m.computations.map (·.queue.length)).sum := by
  unfold pendingFrames
  induction m.computations with
  | nil => rfl
  | cons c rest ih => rw [List.foldr_cons, List.map_cons, List.sum_cons, ih]

end Machine

/-- However a call ends, the root stack is the one it found, and as many searches are under way with
as many frames in each. A search of its own leaves the other searches and the slice as they were. -/
theorem Call.leaves_stacks (m : Machine) (call : Call) :
    (call.leaves m).roots = m.roots ∧
    (call.leaves m).computations.length = m.computations.length ∧
    (call.leaves m).computations.map (·.queue.length) = m.computations.map (·.queue.length) ∧
    (call.leaves m).pendingFrames = m.pendingFrames ∧
    (call.Searches →
      (call.leaves m).computations = m.computations ∧ (call.leaves m).slice = m.slice) := by
  have balanced := leaves_balanced m call
  have lengths := balanced.lengths
  refine ⟨balanced.roots, ?_, lengths, ?_, ?_⟩
  · simpa using congrArg List.length lengths
  · rw [Machine.pendingFrames_eq, Machine.pendingFrames_eq, lengths]
  · intro searches
    cases call with
    | evaluate fuel visit root s => exact (evaluate_restores fuel visit root s).2
    | values fuel root => exact (values_restores fuel root).2
    | _ => exact searches.elim

end ChoiceGraph
