import ChoiceGraph.Proofs.Moves

/-! # Isolation of the queue

A reduction cannot reach the frames that wait, nor the decisions of any frame. This asks nothing of
the graph, which may be ill formed, and holds however the reduction ends. A search that a reduction
runs inside works on a queue of its own, which is gone when the search ends. -/
namespace ChoiceGraph

/-- The queue and its decisions are the same. The front frame may have lost allotment, gained
constraints, or moved to another node. -/
structure Computation.Undisturbed (c c' : Computation) : Prop where
  fingerprints : c'.fingerprints = c.fingerprints
  front : c'.queue.head?.map Frame.fingerprint = c.queue.head?.map Frame.fingerprint
  waiting : c'.queue.tail = c.queue.tail

theorem Computation.Undisturbed.refl (c : Computation) : c.Undisturbed c := ⟨rfl, rfl, rfl⟩

/-- Putting another frame with the same decisions in front. -/
theorem Computation.undisturbed_of_front {c c' : Computation} {f f' : Frame} {rest : List Frame}
    (before : c.queue = f :: rest) (after : c'.queue = f' :: rest)
    (same : f'.fingerprint = f.fingerprint) (cells : c'.fingerprints = c.fingerprints) :
    c.Undisturbed c' := by
  refine ⟨cells, ?_, ?_⟩
  · rw [before, after, List.head?_cons, List.head?_cons, Option.map_some, Option.map_some, same]
  · rw [before, after, List.tail_cons, List.tail_cons]

/-- The constraints of the front frame are in a cell apart from the fingerprints. -/
theorem Computation.updateConstraints_undisturbed (c : Computation) (update : ConstraintStore → ConstraintStore) :
    c.Undisturbed (c.updateConstraints 0 update) := by
  cases hq : c.queue with
  | nil =>
    have result : c.updateConstraints 0 update = c := by simp [Computation.updateConstraints, hq]
    rw [result]
    exact .refl c
  | cons f rest =>
    have result : c.updateConstraints 0 update =
        { c with
          queue := { f with constraints := (c.stores.write f.constraints update).1 } :: rest
          stores := (c.stores.write f.constraints update).2 } := by
      simp [Computation.updateConstraints, Computation.writeConstraints, Computation.putFrame, hq]
    rw [result]
    exact Computation.undisturbed_of_front hq rfl rfl rfl

namespace Machine

/-- The innermost search is undisturbed, and the ones outside are the same. -/
inductive Undisturbed (m m' : Machine) : Prop where
  | idle (before : m.computations = []) (after : m'.computations = [])
  | inner {c c' : Computation} {outer : List Computation} (before : m.computations = c :: outer)
    (after : m'.computations = c' :: outer) (same : c.Undisturbed c')

/-- The searches outside the innermost one are the same. -/
def Inside (m m' : Machine) : Prop := m'.computations.tail = m.computations.tail

variable {m m' : Machine}

theorem undisturbed_of_same (h : m'.computations = m.computations) : m.Undisturbed m' := by
  cases hc : m.computations with
  | nil => exact .idle hc (h.trans hc)
  | cons c outer => exact .inner hc (h.trans hc) (.refl c)

instance : IsPreorder Machine Undisturbed where
  refl _ := undisturbed_of_same rfl
  trans := by
    intro m m' m'' h k
    cases h with
    | idle before after =>
      cases k with
      | idle _ after' => exact .idle before after'
      | inner before' => cases after.symm.trans before'
    | inner before after same =>
      cases k with
      | idle before' => cases after.symm.trans before'
      | inner before' after' same' =>
        cases after.symm.trans before'
        exact .inner before after' ⟨same'.fingerprints.trans same.fingerprints,
          same'.front.trans same.front, same'.waiting.trans same.waiting⟩

instance : IsPreorder Machine Inside where
  refl _ := rfl
  trans _ _ _ h k := k.trans h

theorem Undisturbed.inside (h : m.Undisturbed m') : m.Inside m' := by
  cases h with
  | idle before after => rw [Inside, before, after]
  | inner before after => rw [Inside, before, after, List.tail_cons, List.tail_cons]

theorem mapInnermost_inside (f : Computation → Computation) : m.Inside (m.mapInnermost f) := by
  unfold mapInnermost Inside
  split
  · rfl
  · next hc => rw [hc, List.tail_cons, List.tail_cons]

theorem mapInnermost_undisturbed {f : Computation → Computation}
    (h : ∀ c : Computation, c.Undisturbed (f c)) : m.Undisturbed (m.mapInnermost f) := by
  unfold mapInnermost
  split
  · exact undisturbed_of_same rfl
  · next c outer hc => exact .inner hc rfl (h c)

theorem chargeCollection_undisturbed : m.Undisturbed (Eff.chargeCollection m) := by
  unfold Eff.chargeCollection
  split
  · exact refl_of _ m
  · next f front =>
    obtain ⟨c, hc, hf⟩ := Option.bind_eq_some_iff.mp front
    obtain ⟨outer, hc⟩ := List.head?_eq_some_iff.mp hc
    obtain ⟨rest, hq⟩ := List.head?_eq_some_iff.mp hf
    let charged : Frame := { f with allotment := f.allotment - 1 }
    have front : (c.putFrame 0 charged).queue = charged :: rest := by
      simp only [Computation.putFrame, hq, List.set_cons_zero]
    have paid : m.Undisturbed (m.mapInnermost fun c => c.putFrame 0 charged) := by
      unfold mapInnermost
      rw [hc]
      exact .inner hc rfl (Computation.undisturbed_of_front hq front rfl rfl)
    dsimp only
    split
    · have stopped : ∀ m : Machine, m.Undisturbed { m with slice := { m.slice with preempt := true } } :=
        fun m => undisturbed_of_same rfl
      exact trans_of _ paid (stopped _)
    · exact paid

instance : Permissive Undisturbed where
  graph _ _ _ := undisturbed_of_same rfl
  roots _ _ := undisturbed_of_same rfl
  nextId _ _ := undisturbed_of_same rfl
  spent _ _ := undisturbed_of_same rfl
  collected m g _ := by
    have swept : m.Undisturbed { m.setGraph g with collections := m.collections + 1 } :=
      undisturbed_of_same rfl
    exact trans_of _ swept chargeCollection_undisturbed
  constrained _ update :=
    mapInnermost_undisturbed fun c => c.updateConstraints_undisturbed update

end Machine

/-- The effect disturbs no queue. -/
abbrev Eff.Isolated {α : Type} (e : Eff α) : Prop := e.Moves Machine.Undisturbed

end ChoiceGraph
