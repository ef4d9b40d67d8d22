import ChoiceGraph.Proofs.Charges
import ChoiceGraph.Proofs.Determinacy
import ChoiceGraph.Proofs.Resumption

/-! # Searches that are preempted

A search sends a frame whose slice is over to the back of the queue and starts its node again from
the root later on. If the node has a value outside of a search, the search comes to that value, and
to no other, if and only if each slice lasts for one change of the graph: every change brings the node
nearer to its value, and there are only so many of them, while a slice without a change is repeated
for ever. -/
namespace ChoiceGraph

namespace Machine

variable {m m' : Machine} {ρ ρ' : Rank} {root i j : NodeId} {s : Scope}

/-- The search under way has a single frame, at this node. -/
def Alone (m : Machine) (i : NodeId) : Prop :=
  ∃ c f outer, m.computations = c :: outer ∧ c.queue = [f] ∧ f.node = some i

theorem Alone.live (h : m.Alone i) : m.Live [] i := by
  obtain ⟨c, f, outer, searches, queue, node⟩ := h
  refine live_search (searches ▸ List.mem_cons_self) (Computation.mem_roots.mpr ⟨f, ?_, .inl node⟩)
  rw [queue]
  exact List.mem_cons_self

theorem Alone.front (h : m.Alone i) : ∃ f, m.front? = some f ∧ f.node = some i := by
  obtain ⟨c, f, outer, searches, queue, node⟩ := h
  refine ⟨f, ?_, node⟩
  rw [front?, searches, List.head?_cons, Option.bind_some, Computation.front?, queue]
  rfl

theorem Alone.evolves (h : m.Alone i) (ev : m.Evolves s ρ m' [] ρ') : m'.Alone i := by
  obtain ⟨c, f, outer, searches, queue, node⟩ := h
  have extends_ := ev.search
  rw [searches] at extends_
  generalize later : m'.computations = searches' at extends_
  cases extends_ with
  | @inner _ c' _ ext =>
    have rest := ext.rest
    have front := ext.front
    rw [queue] at rest front
    cases queue' : c'.queue with
    | nil =>
      rw [queue'] at front
      cases front
    | cons f' frames =>
      rw [queue'] at rest front
      cases rest
      have same := Option.some.inj front
      exact ⟨c', f', outer, later, queue', (congrArg Prod.fst same).trans node⟩

/-- The front frame goes on, in its place or at the back; there is no other. -/
theorem Alone.mapInnermost {f : Computation → Computation} (h : m.Alone i)
    (single : ∀ c frame, c.queue = [frame] → ∃ frame', (f c).queue = [frame'] ∧
      (frame.node = some i → frame'.node = some j)) : (m.mapInnermost f).Alone j := by
  obtain ⟨c, frame, outer, searches, queue, node⟩ := h
  obtain ⟨frame', queue', node'⟩ := single c frame queue
  refine ⟨f c, frame', outer, ?_, queue', node' node⟩
  rw [Machine.mapInnermost, searches]

theorem Alone.requeue (h : m.Alone i) (allotment : Nat) (suspended : Bool) :
    (m.mapInnermost fun c => c.requeue allotment suspended).Alone i := by
  refine h.mapInnermost fun c frame queue => ⟨{ frame with allotment, suspended }, ?_, id⟩
  simp only [Computation.requeue, queue, Computation.putFrame, List.set_cons_zero,
    Computation.rotate, List.nil_append]

theorem Alone.dropFront (h : m.Alone i) :
    (m.mapInnermost Computation.dropFront).front? = none := by
  obtain ⟨c, frame, outer, searches, queue, -⟩ := h
  simp only [Machine.mapInnermost, searches, front?, List.head?_cons, Option.bind_some,
    Computation.dropFront, queue, Computation.front?, Computation.release, List.head?_nil]

end Machine

namespace Schedule

open Eff Machine Reduction

variable {m m' : Machine} {ρ : Rank} {root i j : NodeId} {st : Stats} {F n : Nat} {t t' : TermGraph}

/-- The turn ends with its slice and has changed nothing else. -/
def Idles (normal : NodeId → Eff Unit) (st : Stats) (m : Machine) : Prop :=
  ∃ st' o m', turn normal st m = .ok (st', o) m' ∧ st.preemptions < st'.preemptions ∧
    m.OnlySpends m'

/-- Gathers every value, with the graph that it was found in. -/
def keeper : Visitor (List (NodeId × TermGraph)) :=
  fun m i found => .ok (found ++ [(i, m.toTermGraph)], .more)

theorem reduceFront_done {normal : NodeId → Eff Unit}
    (run : catching (normal i) m = .ok .done m') : reduceFront normal (some i) st m =
      dispatch m'.depthBound i { st with steps := st.steps + m'.slice.used } m' :=
  (bind_ok (look_ok (a := i) rfl)).trans (bind_ok run)

/-- The first turn of a search without a step limit whose node is normalized within one slice. -/
theorem turn_entered {normal : NodeId → Eff Unit} (limit : m.config.stepLimit = none)
    (run : normal root { enter (some root) m with slice := .ofSteps m.config.sliceSteps } = .ok () m') :
    turn normal {} (enter (some root) m) = dispatch m'.depthBound root { steps := m'.slice.used } m' := by
  have slice : nextSlice? (enter (some root) m).config {} = some m.config.sliceSteps := by
    show nextSlice? m.config {} = _
    rw [nextSlice?, limit]
  have caught : catching (normal root) { enter (some root) m with slice := .ofSteps m.config.sliceSteps } =
      .ok .done m' := by
    unfold catching
    rw [run]
  have turned : turn normal {} (enter (some root) m) =
      dispatch m'.depthBound root { steps := 0 + m'.slice.used } m' :=
    (turn_front rfl slice).trans (reduceFront_done caught)
  rwa [Nat.zero_add] at turned

theorem reduceFront_preempted {normal : NodeId → Eff Unit}
    (run : catching (normal i) m = .ok .preempted m') : reduceFront normal (some i) st m =
      .ok ({ st with steps := st.steps + m'.slice.used, preemptions := st.preemptions + 1 }, .again)
        (m'.mapInnermost fun c => c.requeue m'.config.timeAllotment false) :=
  (bind_ok (look_ok (a := i) rfl)).trans (bind_ok run)

theorem reduceFront_suspended {normal : NodeId → Eff Unit}
    (run : catching (normal i) m = .ok .suspended m') : reduceFront normal (some i) st m =
      suspendFront { st with steps := st.steps + m'.slice.used } m' :=
  (bind_ok (look_ok (a := i) rfl)).trans (bind_ok run)

theorem reduceFront_stopped {normal : NodeId → Eff Unit} {stop : Stop}
    (run : catching (normal i) m = .error stop m') :
    reduceFront normal (some i) st m = .error stop m' :=
  (bind_ok (look_ok (a := i) rfl)).trans (bind_error run)

/-- A turn that idles leaves a machine whose next turn idles. -/
theorem Idles.again {normal : NodeId → Eff Unit} (unlimited : m.config.stepLimit = none)
    (h : Idles normal st m) (st₂ : Stats) : ∃ st' m', turn normal st₂ m = .ok (st', .again) m' ∧
      m'.config.stepLimit = none ∧ Idles normal st' m' := by
  obtain ⟨st₁, o, m₁, run, preempted, idle⟩ := h
  have sliced : ∀ m : Machine, m.config.stepLimit = none → ∀ st : Stats,
      nextSlice? m.config st = some m.config.sliceSteps := by
    intro m unlimited st
    rw [nextSlice?, unlimited]
  rcases turn_cases normal st m with ⟨-, stop⟩ | stop | ⟨f, steps, front, slice, turned⟩
  · cases stop.symm.trans run
    exact absurd preempted (lt_irrefl _)
  · cases stop.symm.trans run
    exact absurd preempted (lt_irrefl _)
  cases (sliced m unlimited st).symm.trans slice
  obtain ⟨i, ending, m₂, node, reduced, -, -, ⟨rfl, -, rfl, requeued⟩ | ⟨-, same⟩⟩ :=
    reduceFront_charges (turned.symm.trans run)
  · -- whatever the statistics are, the frame is preempted in the same way
    have repeats : ∀ st : Stats, ∃ st', st.preemptions < st'.preemptions ∧
        ∀ m₀ : Machine, m.OnlySpends m₀ → turn normal st m₀ = .ok (st', .again) m₁ := by
      refine fun st => ⟨{ st with steps := st.steps + m₂.slice.used, preemptions := st.preemptions + 1 },
        Nat.lt_succ_self st.preemptions, fun m₀ spent => ?_⟩
      have front₀ : m₀.front? = some f := by
        rw [spent]
        exact front
      have unlimited₀ : m₀.config.stepLimit = none := by
        rw [spent]
        exact unlimited
      have start : { m₀ with slice := .ofSteps m₀.config.sliceSteps } =
          { m with slice := .ofSteps m.config.sliceSteps } := by rw [spent]
      rw [turn_front front₀ (sliced m₀ unlimited₀ st), start, node, requeued]
      exact reduceFront_preempted reduced
    obtain ⟨st', -, again⟩ := repeats st₂
    obtain ⟨st'', more, again'⟩ := repeats st'
    have unlimited₁ : m₁.config.stepLimit = none := by
      rw [idle]
      exact unlimited
    exact ⟨st', m₁, again m (.refl m), unlimited₁, st'', .again, m₁, again' m₁ idle, more, .refl m₁⟩
  · omega

/-- A search that comes to an idle turn does not end. -/
theorem Idles.endless {σ : Type} {normal : NodeId → Eff Unit} {visit : Visitor σ} (turns : Nat) :
    ∀ {st : Stats} {m : Machine} (s : σ), m.config.stepLimit = none → Idles normal st m →
      ∃ m', takeTurns normal visit turns st s m = ⟨s, .error .outOfFuel m'⟩ := by
  induction turns with
  | zero => exact fun s _ _ => ⟨_, rfl⟩
  | succ turns ih =>
    intro st m s unlimited h
    obtain ⟨st', m', run, unlimited', h'⟩ := h.again unlimited st
    obtain ⟨m'', rest⟩ := ih s unlimited' h'
    refine ⟨m'', ?_⟩
    unfold takeTurns
    rw [run]
    exact rest

theorem Visits.config {start : Machine} {st : Stats} {o : Outcome}
    (visits : Visits (Reduction.normalize F) start st o m) : m.config = start.config := by
  induction visits with
  | enter => rfl
  | turn _ run ih => exact (turn_charges (reducer_heeds F) run).2.trans ih
  | drop _ ih => exact (mapInnermost_config _ _).trans ih

/-- A search that ends goes on from each of the states that it visits until it ends. -/
theorem Visits.ends {normal : NodeId → Eff Unit} {start : Machine} {turns : Nat} {st : Stats}
    {o : Outcome} {found : List (NodeId × TermGraph)}
    (visits : Visits normal start st o m) {all : List (NodeId × TermGraph)} {last : Stats}
    {end_ : Machine} (ends : takeTurns normal keeper turns {} found start = ⟨all, .ok last end_⟩) :
    ∃ turns found, match o with
      | .again => takeTurns normal keeper turns st found m = ⟨all, .ok last end_⟩
      | .value _ => takeTurns normal keeper turns st found (m.mapInnermost Computation.dropFront) =
          ⟨all, .ok last end_⟩
      | .over => True := by
  induction visits with
  | enter => exact ⟨turns, found, ends⟩
  | @turn _ _ o _ _ _ run ih =>
    obtain ⟨turns, found, rest⟩ := ih
    cases turns with
    | zero => cases congrArg Found.ending rest
    | succ turns =>
      unfold takeTurns at rest
      rw [run] at rest
      cases o with
      | again => exact ⟨turns, found, rest⟩
      | value i => exact ⟨turns, _, rest⟩
      | «over» => exact ⟨turns, found, trivial⟩
  | drop _ ih => exact ih

end Schedule

end ChoiceGraph
