import ChoiceGraph.Proofs.Passing
import ChoiceGraph.Proofs.Resolving
import ChoiceGraph.Proofs.Ties

/-! # Tasks of a search

What counts of a queued frame for what a search finds is the node that it looks at, what it has decided,
and what it has bound. The scheduler drops a task, sends it to the back, lets it go on at another node, or
splits it in two at a choice. -/
namespace ChoiceGraph

/-- The node of a frame, and its view. -/
structure Task where
  node : Link
  view : View

namespace Fingerprint

/-- Where nothing is bound, a choice is decided by itself. -/
theorem decide_unbound {bound : ConstraintStore} (f : Fingerprint) (id : ChoiceId) (unbound : bound = .empty) :
    f.decide bound id = (f.get? id).elim .undecided .taken := by
  subst unbound
  have alone : ConstraintStore.empty.equivalents id = [] := List.eq_nil_iff_forall_not_mem.mpr fun y hy => by
    obtain ⟨other, path⟩ := ConstraintStore.mem_equivalents.mp hy
    obtain same | ⟨z, tied, -⟩ := Relation.ReflTransGen.cases_head path
    · exact other same.symm
    · exact absurd tied List.not_mem_nil
  unfold decide
  rw [alone, List.filterMap_cons, List.filterMap_nil]
  cases f.get? id with
  | none => rfl
  | some side => cases side <;> rfl

end Fingerprint

namespace Computation

variable {c c' : Computation} {f : Frame} {rest : List Frame} {t : Task} {ts : List Task} {id : ChoiceId}
  {allotment : Nat}

def task (c : Computation) (f : Frame) : Task := ⟨f.node, c.view f⟩

def tasks (c : Computation) : List Task := c.queue.map c.task

theorem tasks_views : c.tasks.map Task.view = c.views := by
  rw [tasks, List.map_map]
  rfl

theorem tasks_nodes : c.tasks.map Task.node = c.queue.map Frame.node := by
  rw [tasks, List.map_map]
  rfl

/-- Tasks are nodes and views. -/
theorem tasks_eq (nodes : c.queue.map Frame.node = ts.map Task.node) (views : c.views = ts.map Task.view) :
    c.tasks = ts := by
  rw [← tasks_nodes] at nodes
  rw [← tasks_views] at views
  have length : c.tasks.length = ts.length := by
    rw [← List.length_map (f := Task.node), nodes, List.length_map]
  refine List.ext_getElem length fun k lt lt' => ?_
  have node := (List.getElem_of_eq nodes (by rwa [List.length_map]))
  have view := (List.getElem_of_eq views (by rwa [List.length_map]))
  rw [List.getElem_map, List.getElem_map] at node view
  generalize c.tasks[k] = a at node view
  generalize ts[k] = b at node view
  obtain ⟨_, _⟩ := a
  obtain ⟨_, _⟩ := b
  cases node
  cases view
  rfl

theorem tasks_cons (ht : c.tasks = t :: ts) : ∃ f rest, c.queue = f :: rest ∧ c.task f = t ∧
    rest.map c.task = ts := by
  cases hq : c.queue with
  | nil =>
    rw [tasks, hq] at ht
    cases ht
  | cons f rest =>
    rw [tasks, hq, List.map_cons] at ht
    obtain ⟨first, others⟩ := List.cons.inj ht
    exact ⟨f, rest, rfl, first, others⟩

/-- What is gained in front is gained on the same node. -/
theorem Extends.tasks (h : c.Extends c') (views : c'.views = c.views) : c'.tasks = c.tasks := by
  refine tasks_eq ?_ (views.trans tasks_views.symm)
  have front := h.front
  have tail := h.rest
  rw [tasks_nodes]
  cases hq : c.queue with
  | nil =>
    rw [hq, List.head?_nil, Option.map_none, Option.map_eq_none_iff, List.head?_eq_none_iff] at front
    rw [front]
  | cons f rest =>
    cases hq' : c'.queue with
    | nil =>
      rw [hq, hq'] at front
      cases front
    | cons f' rest' =>
      rw [hq, hq'] at front tail
      simp only [List.head?_cons, Option.map_some, Option.some.injEq, Prod.mk.injEq] at front
      rw [List.tail_cons, List.tail_cons] at tail
      rw [List.map_cons, List.map_cons, front.1, tail]

theorem Counted.dropFront_tasks (h : c.Counted) : c.dropFront.tasks = c.tasks.tail := by
  refine tasks_eq ?_ ?_
  · rw [List.map_tail, tasks_nodes, ← List.map_tail]
    unfold dropFront
    split
    · next hq => rw [hq, List.tail_nil]
    · next f rest hq =>
      rw [hq, List.tail_cons]
      rfl
  · rw [h.dropFront_views, List.map_tail, tasks_views]

theorem requeue_tasks (ht : c.tasks = t :: ts) (suspended : Bool) :
    (c.requeue allotment suspended).tasks = ts ++ [t] := by
  obtain ⟨f, rest, hq, rfl, rfl⟩ := tasks_cons ht
  refine tasks_eq ?_ ?_
  · simp only [requeue, putFrame, hq, List.set_cons_zero, rotate, List.map_append, List.map_cons, List.map_nil,
      List.map_map]
    rfl
  · rw [requeue_views hq, List.map_append, List.map_map]
    rfl

theorem setFront_tasks (hq : c.queue = f :: rest) (node : Link) (suspended : Bool) :
    ({ c with queue := { f with node := node, suspended := suspended } :: rest } : Computation).tasks =
      ⟨node, c.view f⟩ :: rest.map c.task := by
  refine tasks_eq ?_ ?_
  · rw [List.map_cons, List.map_cons, List.map_map]
    rfl
  · rw [setFront_views hq, views_cons hq, List.map_cons, List.map_map]
    rfl

/-- A choice that is decided is followed. -/
theorem resolve_taken (ht : c.tasks = t :: ts) (left right : Link) (allotment : Nat) {side : Side}
    (taken : t.view.decided.decide t.view.bound id = .taken side) :
    (c.resolve id left right allotment).1 = .followed ∧
      (c.resolve id left right allotment).2.tasks = ⟨side.pick left right, t.view⟩ :: ts := by
  obtain ⟨f, rest, hq, rfl, rfl⟩ := tasks_cons ht
  have decision : (c.fingerprintOf f).decide (c.constraintsOf f) id = .taken side := taken
  simp only [resolve, hq, decision]
  exact ⟨trivial, setFront_tasks hq _ _⟩

/-- A choice that is not decided is decided both ways. -/
theorem Counted.resolve_undecided (h : c.Counted) (ht : c.tasks = t :: ts) (left right : Link) (allotment : Nat)
    (undecided : t.view.decided.decide t.view.bound id = .undecided) :
    (c.resolve id left right allotment).1 = .forked ∧
      (c.resolve id left right allotment).2.tasks =
        ts ++ [⟨left, t.view.decided.set id .left, t.view.bound⟩,
          ⟨right, t.view.decided.set id .right, t.view.bound⟩] := by
  obtain ⟨f, rest, hq, rfl, rfl⟩ := tasks_cons ht
  have decision : (c.fingerprintOf f).decide (c.constraintsOf f) id = .undecided := undecided
  refine ⟨by simp only [resolve, hq, decision], tasks_eq ?_ ?_⟩
  · simp only [resolve, hq, decision, pushBack, writeFingerprint, fork, List.map_append, List.map_cons,
      List.map_nil, List.map_map, List.append_assoc, List.cons_append, List.nil_append]
    rfl
  · rw [h.forked_views hq left right allotment decision, List.map_append, List.map_map]
    rfl

end Computation

namespace Machine

variable {m m' : Machine} {c : Computation} {outer : List Computation} {t : Task} {ts : List Task}

/-- The tasks of the innermost search. -/
def tasks (m : Machine) : List Task := (m.computations.head?.map Computation.tasks).getD []

theorem tasks_inner (hc : m.computations = c :: outer) : m.tasks = c.tasks := by
  rw [tasks, hc, List.head?_cons, Option.map_some, Option.getD_some]

theorem inner_of_tasks (ht : m.tasks = t :: ts) : ∃ c outer, m.computations = c :: outer ∧ c.tasks = t :: ts := by
  cases hc : m.computations with
  | nil =>
    rw [tasks, hc] at ht
    cases ht
  | cons c outer => exact ⟨c, outer, rfl, (tasks_inner hc).symm.trans ht⟩

theorem mapInnermost_tasks {change : Computation → Computation} (hc : m.computations = c :: outer) :
    (m.mapInnermost change).tasks = (change c).tasks := by
  have inner : (m.mapInnermost change).computations = change c :: outer := by rw [mapInnermost, hc]
  exact tasks_inner inner

theorem tasks_decisions (m : Machine) : m.decisions = m.tasks.map fun t => t.view.decided := by
  cases hc : m.computations with
  | nil =>
    simp only [decisions, entries, tasks, hc, List.head?_nil, Option.map_none, Option.getD_none, List.map_nil]
  | cons c outer =>
    rw [decisions, entries_inner hc, tasks_inner hc, Computation.entries, Computation.tasks, List.map_map,
      List.map_map]
    rfl

theorem tasks_views (m : Machine) : m.tasks.map Task.view = m.views := by
  cases hc : m.computations with
  | nil => simp only [tasks, views, hc, List.head?_nil, Option.map_none, Option.getD_none, List.map_nil]
  | cons c outer => rw [tasks_inner hc, views_cons hc, Computation.tasks_views]

theorem tasks_front {f : Frame} (front : m.front? = some f) :
    ∃ v ts, m.tasks = ⟨f.node, v⟩ :: ts := by
  obtain ⟨c, outer, rest, hc, hq⟩ := front_cases front
  refine ⟨c.view f, rest.map c.task, ?_⟩
  rw [tasks_inner hc, Computation.tasks, hq, List.map_cons]
  rfl

theorem tasks_idle (front : m.front? = none) : m.tasks = [] := by
  have none := entries_empty front
  have nodes := congrArg List.length (tasks_decisions m)
  rw [decisions, none, List.map_nil, List.length_map, List.length_nil] at nodes
  exact List.length_eq_zero_iff.mp nodes.symm

/-- A reduction that binds nothing leaves the tasks alone. -/
theorem SearchExtends.tasks (h : SearchExtends m.computations m'.computations) (views : m'.views = m.views) :
    m'.tasks = m.tasks := by
  cases hc : m.computations with
  | nil =>
    rw [hc] at h
    cases hc' : m'.computations with
    | nil => rw [Machine.tasks, Machine.tasks, hc, hc']
    | cons c' outer' =>
      rw [hc'] at h
      cases h
  | cons c outer =>
    rw [hc] at h
    cases hc' : m'.computations with
    | nil =>
      rw [hc'] at h
      cases h
    | cons c' outer' =>
      rw [hc'] at h
      rw [views_cons hc, views_cons hc'] at views
      rw [tasks_inner hc, tasks_inner hc']
      cases h with
      | inner h => exact h.tasks views

end Machine

end ChoiceGraph
