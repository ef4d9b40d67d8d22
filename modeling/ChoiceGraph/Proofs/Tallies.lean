import ChoiceGraph.Proofs.Decisions
import ChoiceGraph.Proofs.Partition

/-! # Tallies of a search

A fork adds one frame to the queue. A frame leaves it with a value, a failure or a violation, and each
is counted, so the counts say how many frames are queued. Only a search that flounders drops frames
together. Nothing is asked of the graph or of the configuration. -/
namespace ChoiceGraph

namespace Computation

variable {c : Computation} {f : Frame} {rest : List Frame}

theorem dropFront_length (c : Computation) : c.dropFront.queue.length = c.queue.length - 1 := by
  unfold dropFront
  split
  · next none => rw [none, List.length_nil]
  · next f rest queue => rw [queue, List.length_cons, Nat.add_sub_cancel, release]

theorem requeue_length (c : Computation) (allotment : Nat) (suspended : Bool) :
    (c.requeue allotment suspended).queue.length = c.queue.length := by
  unfold Computation.requeue
  split
  · rfl
  · next f rest queue =>
    simp only [putFrame, queue, List.set_cons_zero, rotate, List.length_append, List.length_cons,
      List.length_nil]

/-- A resolved choice drops the frame, keeps it, or leaves two, and counts which. -/
theorem resolve_length (front : c.queue = f :: rest) (id : ChoiceId) (left right : Link) (allotment : Nat)
    (st : Stats) : (c.resolve id left right allotment).2.queue.length +
      ((c.resolve id left right allotment).1.counts st).finished + st.forks =
        c.queue.length + st.finished + ((c.resolve id left right allotment).1.counts st).forks := by
  cases decision : (c.fingerprintOf f).decide (c.constraintsOf f) id with
  | conflict =>
    have dropped := c.dropFront_length
    simp only [resolve, front, decision, Resolution.counts, Stats.finished, dropped, List.length_cons]
    omega
  | taken side =>
    simp only [resolve, front, decision, Resolution.counts, List.length_cons]
  | undecided =>
    simp only [resolve, front, decision, Resolution.counts, Stats.finished, pushBack, writeFingerprint,
      fork, List.length_append, List.length_cons, List.length_nil]
    omega

end Computation

namespace Machine

variable {m m' : Machine} {f : Frame}

theorem queue_of_none (front : m.front? = none) : m.queue = [] := by
  rw [← entries_frames, entries_empty front, List.map_nil]

theorem mapInnermost_length (m : Machine) {change : Computation → Computation} (count : Nat → Nat)
    (zero : count 0 = 0) (step : ∀ c : Computation, (change c).queue.length = count c.queue.length) :
    (m.mapInnermost change).queue.length = count m.queue.length := by
  cases search : m.computations with
  | nil => simp only [mapInnermost, queue, search, List.head?_nil, Option.map_none, Option.getD_none,
      List.length_nil, zero]
  | cons c outer => simp only [mapInnermost, queue, search, List.head?_cons, Option.map_some,
      Option.getD_some, step]

theorem Undisturbed.front?_some (h : m.Undisturbed m') (front : m.front? = some f) :
    ∃ f', m'.front? = some f' := by
  obtain ⟨f', rest, -, after⟩ := h.queue_cases front
  cases none : m'.front? with
  | some g => exact ⟨g, rfl⟩
  | none => cases (queue_of_none none).symm.trans after

theorem Undisturbed.queue_length (h : m.Undisturbed m') (front : m.front? = some f) :
    m'.queue.length = m.queue.length ∧ m'.queue.tail = m.queue.tail := by
  obtain ⟨f', rest, before, after⟩ := h.queue_cases front
  rw [before, after]
  exact ⟨rfl, rfl⟩

end Machine

namespace Schedule

open Eff Machine

variable {normal : NodeId → Eff Unit} {m m' : Machine} {st st' : Stats} {o : Outcome} {f : Frame}
  {r : Stats × Outcome}

/-! ## One turn -/

/-- What has become of the queue and of the counts after a turn that leaves frames to go on with. A frame
that a value was found for is counted, but still queued. -/
inductive Tallied (m : Machine) (st : Stats) : Stats × Outcome → Machine → Prop
  | goesOn {st' : Stats} {m' : Machine} (solutions : st'.solutions = st.solutions)
    (queued : m'.queue.length + st'.finished + st.forks = m.queue.length + st.finished + st'.forks)
    (floundered : st'.floundered = st.floundered) : Tallied m st (st', .again) m'
  | value {st' : Stats} {i : NodeId} {m' : Machine} (solutions : st'.solutions = st.solutions + 1)
    (queued : m'.queue.length = m.queue.length) (some_ : 0 < m.queue.length)
    (finished : st'.finished = st.finished) (forks : st'.forks = st.forks)
    (floundered : st'.floundered = st.floundered) : Tallied m st (st', .value i) m'

/-- Every frame is given up and counted as such. -/
structure GaveUp (m : Machine) (st : Stats) (r : Stats × Outcome) : Prop where
  ended : r.2 = .over
  solutions : r.1.solutions = st.solutions
  finished : r.1.finished = st.finished
  forks : r.1.forks = st.forks
  floundered : r.1.floundered = st.floundered + m.queue.length

/-- Only the number of frames before the turn and their counts matter. -/
theorem Tallied.earlier {m₀ : Machine} {st₀ : Stats} (h : Tallied m st r m')
    (same : m.queue.length = m₀.queue.length) (counts : st = { st₀ with steps := st.steps }) :
    Tallied m₀ st₀ r m' := by
  rw [counts] at h
  cases h with
  | goesOn solutions queued floundered => exact .goesOn solutions (by rw [← same]; exact queued) floundered
  | value solutions queued some_ finished forks floundered =>
    exact .value solutions (queued.trans same) (same ▸ some_) finished forks floundered

theorem queue_length_pos (front : m.front? = some f) : 0 < m.queue.length := by
  obtain ⟨c, outer, rest, search, queue⟩ := front_cases front
  simp only [Machine.queue, search, List.head?_cons, Option.map_some, Option.getD_some, queue]
  exact Nat.succ_pos _

theorem fork_tallied {i : NodeId} (front : m.front? = some f) (run : fork i st m = .ok st' m') :
    Tallied m st (st', .again) m' := by
  obtain ⟨c, outer, rest, search, queue⟩ := front_cases front
  have whole := run
  obtain ⟨id, aux, run⟩ := look_bind_eq_ok run
  obtain ⟨left, first, run⟩ := look_bind_eq_ok run
  obtain ⟨right, second, -⟩ := look_bind_eq_ok run
  cases (fork_resolved search aux first second).symm.trans whole
  have length := c.resolve_length queue id left right m.config.timeAllotment st
  refine .goesOn ?_ ?_ ?_
  · cases (c.resolve id left right m.config.timeAllotment).1 <;> rfl
  · simpa only [Machine.queue, search, List.head?_cons, Option.map_some, Option.getD_some] using length
  · cases (c.resolve id left right m.config.timeAllotment).1 <;> rfl

/-- A frame that is dropped is counted among those that have finished. -/
theorem dropFront_tallied (front : m.front? = some f) (solutions : st'.solutions = st.solutions)
    (finished : st'.finished = st.finished + 1) (forks : st'.forks = st.forks)
    (floundered : st'.floundered = st.floundered) :
    Tallied m st (st', .again) (m.mapInnermost Computation.dropFront) := by
  have some_ := queue_length_pos front
  have shorter := m.mapInnermost_length (· - 1) rfl Computation.dropFront_length
  exact .goesOn solutions (by omega) floundered

theorem requeue_tallied (suspended : Bool) (solutions : st'.solutions = st.solutions)
    (finished : st'.finished = st.finished) (forks : st'.forks = st.forks)
    (floundered : st'.floundered = st.floundered) : Tallied m st (st', .again)
      (m.mapInnermost fun c => c.requeue m.config.timeAllotment suspended) := by
  have same := m.mapInnermost_length id rfl
    fun c => c.requeue_length m.config.timeAllotment suspended
  exact .goesOn solutions (by simp only [id] at same; omega) floundered

theorem dispatch_tallied (bound : Nat) (i : NodeId) (front : m.front? = some f)
    (run : dispatch bound i st m = .ok r m') : Tallied m st r m' := by
  induction bound generalizing m f i with
  | zero => cases run
  | succ bound ih =>
    obtain ⟨tag, -, run⟩ := look_bind_eq_ok run
    cases tag with
    | failure =>
      cases run
      exact dropFront_tallied front rfl (by simp only [Stats.finished]; omega) rfl rfl
    | operation =>
      cases run
      exact dropFront_tallied front rfl (by simp only [Stats.finished]; omega) rfl rfl
    | forward =>
      obtain ⟨next, -, run⟩ := look_bind_eq_ok run
      obtain ⟨_, m₁, moved, run⟩ := bind_eq_ok run
      obtain ⟨j, -, run⟩ := look_bind_eq_ok run
      have same := setFrontNode_undisturbed next moved
      obtain ⟨f₁, front₁⟩ := same.front?_some front
      exact (ih j front₁ run).earlier (same.queue_length front).1 rfl
    | choice =>
      obtain ⟨st', m₁, forked, run⟩ := bind_eq_ok run
      cases run
      exact fork_tallied front forked
    | constructor _ =>
      cases run
      exact .value rfl rfl (queue_length_pos front) rfl rfl rfl
    | free =>
      cases run
      exact .value rfl rfl (queue_length_pos front) rfl rfl rfl
    | unassigned _ => cases run

/-- The reduction of the node suspends, and all frames behind the front one wait already. -/
structure Halts (normal : NodeId → Eff Unit) (l : Link) (m : Machine) : Prop where
  suspends : ∃ i v m', l = some i ∧ normal i m = .error (.suspended v) m'
  waiting : ∀ g ∈ m.queue.tail, g.suspended = true

/-- The search is to give up in this turn. -/
def Stalls (normal : NodeId → Eff Unit) (st : Stats) (m : Machine) : Prop :=
  ∃ f steps, m.front? = some f ∧ nextSlice? m.config st = some steps ∧
    Halts normal f.node { m with slice := .ofSteps steps }

theorem reduceFront_tallied (isolated : ∀ i, (normal i).Isolated) {l : Link} (front : m.front? = some f)
    (run : reduceFront normal l st m = .ok r m') :
    (Tallied m st r m' ∧ ¬ Halts normal l m) ∨ (GaveUp m st r ∧ Halts normal l m) := by
  obtain ⟨i, target, run⟩ := look_bind_eq_ok run
  obtain ⟨ending, m₁, reduced, run⟩ := bind_eq_ok run
  have same : m.Undisturbed m₁ := (catching_moves (isolated i)).ok reduced
  obtain ⟨_, m₂, read, run⟩ := bind_eq_ok run
  cases read
  obtain ⟨f₁, front₁⟩ := same.front?_some front
  obtain ⟨length, tail⟩ := same.queue_length front
  have node : l = some i := by
    cases l with
    | none => cases target
    | some j =>
      cases target
      rfl
  have suspended_ : Halts normal l m → ending = .suspended := by
    rintro ⟨⟨j, v, m₂, rfl, stopped⟩, -⟩
    cases node
    cases (catching_of_suspended stopped).symm.trans reduced
    rfl
  cases ending with
  | done => exact .inl ⟨(dispatch_tallied _ i front₁ run).earlier length rfl, fun h => nomatch suspended_ h⟩
  | preempted =>
    cases run
    have tallied := @requeue_tallied m₁ st { st with
      steps := st.steps + m₁.slice.used, preemptions := st.preemptions + 1 } false rfl rfl rfl rfl
    exact .inl ⟨tallied.earlier length rfl, fun h => nomatch suspended_ h⟩
  | suspended =>
    rcases suspendFront_cases front₁ run with ⟨rfl, rfl, g, hg, moving⟩ | ⟨rfl, -, waiting⟩
    · refine .inl ⟨(requeue_tallied true rfl rfl rfl rfl).earlier length rfl, fun halts => ?_⟩
      rw [tail] at hg
      cases moving.symm.trans (halts.waiting g hg)
    · obtain ⟨v, stopped⟩ := catching_suspended reduced
      rw [tail] at waiting
      exact .inr ⟨⟨rfl, rfl, rfl, rfl, congrArg (st.floundered + ·) length⟩,
        ⟨i, v, m₁, node, stopped⟩, waiting⟩

/-- A turn has no frame to reduce, no step left for it, gives up, or leaves a tally. -/
inductive TurnTally (normal : NodeId → Eff Unit) (st : Stats) (m : Machine) : Stats × Outcome → Machine → Prop
  | idle (empty : m.queue = []) (going : ¬ Stalls normal st m) : TurnTally normal st m (st, .over) m
  | limit (going : ¬ Stalls normal st m) : TurnTally normal st m ({ st with stepLimitHit := true }, .over) m
  | tallied {r : Stats × Outcome} {m' : Machine} (tallied : Tallied m st r m')
    (going : ¬ Stalls normal st m) : TurnTally normal st m r m'
  | gaveUp {r : Stats × Outcome} {m' : Machine} (gave : GaveUp m st r) (stalls : Stalls normal st m) :
    TurnTally normal st m r m'

theorem turn_tally (isolated : ∀ i, (normal i).Isolated) (run : turn normal st m = .ok r m') :
    TurnTally normal st m r m' := by
  cases front : m.front? with
  | none =>
    cases (turn_idle front st).symm.trans run
    refine .idle (queue_of_none front) ?_
    rintro ⟨f, steps, some_, -⟩
    cases front.symm.trans some_
  | some f =>
    cases slice : nextSlice? m.config st with
    | none =>
      cases (turn_limit front slice).symm.trans run
      refine .limit ?_
      rintro ⟨g, steps, -, some_, -⟩
      cases slice.symm.trans some_
    | some steps =>
      have reduced := (turn_front front slice).symm.trans run
      rcases reduceFront_tallied isolated (m := { m with slice := .ofSteps steps }) front reduced with
        ⟨tallied, going⟩ | ⟨gave, halts⟩
      · refine .tallied (tallied.earlier rfl rfl) ?_
        rintro ⟨g, k, first, allowed, halts⟩
        cases front.symm.trans first
        cases slice.symm.trans allowed
        exact going halts
      · exact .gaveUp ⟨gave.ended, gave.solutions, gave.finished, gave.forks, gave.floundered⟩
          ⟨f, steps, front, slice, halts⟩

/-! ## Whole searches -/

/-- Frames that are counted as solutions but still queued. -/
def Outcome.held : Outcome → Nat
  | .value _ => 1
  | _ => 0

/-- The frames that are queued and those that have left are one more than the forks. -/
structure Balances (st : Stats) (o : Outcome) (frames : Nat) : Prop where
  balance : frames + st.solutions + st.finished = 1 + st.forks + o.held
  holds : o.held ≤ frames
  floundered : st.floundered = 0

theorem Visits.balances (isolated : ∀ i, (normal i).Isolated) {root : Link} {start : Machine}
    (h : Visits normal (Schedule.enter root start) st o m) (going : o ≠ .over) :
    Balances st o m.queue.length := by
  induction h with
  | enter => exact ⟨rfl, Nat.zero_le _, rfl⟩
  | @turn st st' o m m' _ run ih =>
    obtain ⟨balance, -, none⟩ := ih nofun
    cases turn_tally isolated run with
    | idle | limit => exact absurd rfl going
    | gaveUp gave => exact absurd gave.ended going
    | tallied tallied =>
      cases tallied with
      | goesOn solutions queued floundered =>
        refine ⟨?_, Nat.zero_le _, floundered.trans none⟩
        simp only [Outcome.held] at balance ⊢
        omega
      | value solutions queued some_ finished forks floundered =>
        refine ⟨?_, ?_, floundered.trans none⟩
        · simp only [Outcome.held] at balance ⊢
          omega
        · rw [queued]
          exact some_
  | @drop st i m _ ih =>
    obtain ⟨balance, holds, none⟩ := ih nofun
    have shorter := m.mapInnermost_length (· - 1) rfl Computation.dropFront_length
    refine ⟨?_, Nat.zero_le _, none⟩
    simp only [Outcome.held] at balance holds ⊢
    omega

variable {σ : Type} {visit : Visitor σ} {start : Machine}

/-- The visitor also writes down what its calls have answered. -/
def logging (visit : Visitor σ) : Visitor (σ × List Flow) := fun m i (s, log) => do
  let (s, flow) ← visit m i s
  return ((s, log ++ [flow]), flow)

/-- How a search has ended: its last turn left nothing to be done, or its visitor had seen enough. -/
inductive Ended (normal : NodeId → Eff Unit) (start : Machine) (log : List Flow) (last : Stats) :
    Machine → Prop
  | turn {st : Stats} {m m' : Machine} (visits : Visits normal start st .again m)
    (run : Schedule.turn normal st m = .ok (last, .over) m') (more : .enough ∉ log) :
    Ended normal start log last m'
  | broken {i : NodeId} {m m' : Machine} (visits : Visits normal start last (.value i) m)
    (enough : .enough ∈ log) : Ended normal start log last m'

/-- The log changes nothing else. It has one entry for each solution, and says how the search ended. -/
structure Logged (normal : NodeId → Eff Unit) (start : Machine) (found : Found σ)
    (logged : Found (σ × List Flow)) : Prop where
  gathered : logged.gathered.1 = found.gathered
  ending : logged.ending = found.ending
  counted : ∀ last m', found.ending = .ok last m' → logged.gathered.2.length = last.solutions
  ended : ∀ last m', found.ending = .ok last m' → Ended normal start logged.gathered.2 last m'

theorem Logged.stopped (s : σ) (log : List Flow) (stop : Stop) (m : Machine) :
    Logged normal start ⟨s, .error stop m⟩ ⟨(s, log), .error stop m⟩ := by
  refine ⟨rfl, rfl, fun last m' same => ?_, fun last m' same => ?_⟩
  · cases same
  · cases same

theorem takeTurns_logged (isolated : ∀ i, (normal i).Isolated) (turns : Nat) :
    ∀ (st : Stats) (s : σ) (log : List Flow) (m : Machine), Visits normal start st .again m →
      log.length = st.solutions → .enough ∉ log →
      Logged normal start (takeTurns normal visit turns st s m)
        (takeTurns normal (logging visit) turns st (s, log) m) := by
  induction turns with
  | zero => exact fun _ s log m _ _ _ => .stopped s log .outOfFuel m
  | succ turns ih =>
    intro st s log m visits counted more
    unfold takeTurns
    cases run : turn normal st m with
    | error stop m₁ => exact .stopped s log stop m₁
    | ok r m₁ =>
      obtain ⟨st₁, o⟩ := r
      have next := visits.turn run
      have tally := turn_tally isolated run
      cases o with
      | «over» =>
        have same : st₁.solutions = st.solutions := by
          cases tally with
          | idle | limit => rfl
          | gaveUp gave => exact gave.solutions
          | tallied tallied => cases tallied
        refine ⟨rfl, rfl, fun last m' same' => ?_, fun last m' same' => ?_⟩
        · cases same'
          exact counted.trans same.symm
        · cases same'
          exact .turn visits run more
      | again =>
        have same : st₁.solutions = st.solutions := by
          cases tally with
          | tallied tallied => cases tallied with | goesOn solutions => exact solutions
          | gaveUp gave => cases gave.ended
        exact ih st₁ s log m₁ next (counted.trans same.symm) more
      | value i =>
        have same : st₁.solutions = st.solutions + 1 := by
          cases tally with
          | tallied tallied => cases tallied with | value solutions => exact solutions
          | gaveUp gave => cases gave.ended
        dsimp only [logging]
        cases seen : visit m₁ i s with
        | error e => exact .stopped s log _ m₁
        | ok answer =>
          obtain ⟨s₁, flow⟩ := answer
          have longer : (log ++ [flow]).length = st₁.solutions := by
            rw [List.length_append, List.length_singleton, counted, same]
          cases flow with
          | more =>
            have still : Flow.enough ∉ log ++ [.more] := fun h => by
              rcases List.mem_append.mp h with h | h
              · exact more h
              · cases List.mem_singleton.mp h
            exact ih st₁ s₁ _ _ next.drop longer still
          | enough =>
            refine ⟨rfl, rfl, fun last m' same' => ?_, fun last m' same' => ?_⟩
            · cases same'
              exact longer
            · cases same'
              exact .broken next (List.mem_append_right _ List.mem_cons_self)

/-- The turn that ends a search, and what it leaves. -/
structure LastTurn (normal : NodeId → Eff Unit) (start : Machine) (st : Stats) (m : Machine) (last : Stats)
    (m' : Machine) : Prop where
  visits : Visits normal start st .again m
  run : turn normal st m = .ok (last, .over) m'

theorem LastTurn.tally (isolated : ∀ i, (normal i).Isolated) {root : Link} {last : Stats}
    (h : LastTurn normal (enter root start) st m last m') :
    (last.stepLimitHit = false →
      1 + last.forks = last.solutions + last.failures + last.violations + last.floundered) ∧
    (last.floundered ≠ 0 ↔ Stalls normal st m) ∧ (Stalls normal st m → last.floundered = m.queue.length) := by
  have again : Outcome.again ≠ .over := Outcome.noConfusion
  obtain ⟨balance, -, none⟩ := h.visits.balances isolated again
  simp only [Outcome.held, Stats.finished] at balance
  cases turn_tally isolated h.run with
  | idle empty going =>
    rw [empty, List.length_nil] at balance
    exact ⟨fun _ => by omega, ⟨fun some_ => absurd none some_, fun stalls => absurd stalls going⟩,
      fun stalls => absurd stalls going⟩
  | limit going =>
    exact ⟨fun more => Bool.noConfusion more,
      ⟨fun some_ => absurd none some_, fun stalls => absurd stalls going⟩,
      fun stalls => absurd stalls going⟩
  | tallied tallied => cases tallied
  | gaveUp gave stalls =>
    obtain ⟨-, solutions, finished, forks, floundered⟩ := gave
    simp only [Stats.finished] at solutions finished forks floundered
    have some_ : 0 < m.queue.length := by
      obtain ⟨f, steps, front, -, -⟩ := stalls
      exact queue_length_pos front
    exact ⟨fun _ => by omega, ⟨fun _ => stalls, fun _ => by omega⟩, fun _ => by omega⟩

/-- The frames of a search are conserved. Before each turn as many are queued as were forked off and not
yet counted as solutions, failures or violations. A search that ends by itself has counted them all; the
visitor has been called once for each solution; and frames are given up only in a last turn that stalls,
which gives up all that are queued. -/
theorem frames_conserved (fuel : Nat) (visit : Visitor σ) (root : NodeId) (s : σ) (m : Machine) :
    (∀ st m', Visits (Reduction.normalize fuel) (enter (some root) m) st .again m' →
      m'.queue.length + st.solutions + st.failures + st.violations = 1 + st.forks) ∧
    ∃ all log ending, m.evaluate fuel visit root s = ⟨all, ending⟩ ∧
      m.evaluate fuel (logging visit) root (s, []) = ⟨(all, log), ending⟩ ∧
      ∀ st m', ending = .ok st m' → log.length = st.solutions ∧
        (.enough ∉ log → st.stepLimitHit = false →
          1 + st.forks = st.solutions + st.failures + st.violations + st.floundered) ∧
        (st.floundered ≠ 0 → .enough ∉ log) ∧
        (.enough ∉ log → ∃ st₀ m₀ last m₁,
          LastTurn (Reduction.normalize fuel) (enter (some root) m) st₀ m₀ last m₁ ∧
          m' = leave m.slice m₁ ∧ st = { last with collections := m₁.collections - m.collections } ∧
          (st.floundered ≠ 0 ↔ Stalls (Reduction.normalize fuel) st₀ m₀) ∧
          (Stalls (Reduction.normalize fuel) st₀ m₀ → st.floundered = m₀.queue.length)) := by
  have isolated : ∀ i, (Reduction.normalize fuel i).Isolated :=
    (Reduction.reducer_moves Undisturbed fuel).normal
  constructor
  · intro st m' visits
    obtain ⟨balance, -, -⟩ := visits.balances isolated Outcome.noConfusion
    simp only [Outcome.held, Stats.finished] at balance
    omega
  · have logged : Logged (Reduction.normalize fuel) (enter (some root) m)
        (takeTurns (Reduction.normalize fuel) visit fuel {} s (enter (some root) m))
        (takeTurns (Reduction.normalize fuel) (logging visit) fuel {} (s, []) (enter (some root) m)) :=
      takeTurns_logged isolated fuel {} s [] (enter (some root) m) .enter rfl List.not_mem_nil
    unfold Machine.evaluate search
    generalize takeTurns (Reduction.normalize fuel) visit fuel {} s (enter (some root) m) = found at logged ⊢
    generalize takeTurns (Reduction.normalize fuel) (logging visit) fuel {} (s, []) (enter (some root) m) =
      written at logged ⊢
    obtain ⟨⟨all, log⟩, ending⟩ := written
    obtain ⟨gathered, ending'⟩ := found
    obtain ⟨same, same', counted, ended⟩ := logged
    dsimp only at same same' counted ended
    subst same same'
    cases ending with
    | error stop m₁ =>
      refine ⟨all, log, _, rfl, rfl, fun st m' same => ?_⟩
      cases same
    | ok last m₁ =>
      refine ⟨all, log, _, rfl, rfl, fun st m' same => ?_⟩
      cases same
      refine ⟨counted last m₁ rfl, ?_⟩
      cases ended last m₁ rfl with
      | turn visits run more =>
        have lastTurn := LastTurn.mk visits run
        obtain ⟨balance, stalls, all_⟩ := lastTurn.tally isolated
        exact ⟨fun _ => balance, fun _ => more, fun _ => ⟨_, _, _, m₁, lastTurn, rfl, rfl, stalls, all_⟩⟩
      | broken visits enough =>
        obtain ⟨-, -, none⟩ := visits.balances isolated Outcome.noConfusion
        exact ⟨fun more => absurd enough more, fun some_ => absurd none some_,
          fun more => absurd enough more⟩

/-- The search of `((1 ? failed) ? ensureNotFree x) ? (+)`, where `x` has no type. It forks three times,
finds one value, and gives one frame up in a last turn that stalls. -/
theorem frames_conserved_choices : ∃ m st m' all log st₀ m₀, Operation.Run (.ofConfig (.fixedPool 64)) m ∧
    m.evaluate 100 (logging fun _ i all => .ok (all ++ [i], .more)) 7 ([], []) = ⟨(all, log), .ok st m'⟩ ∧
    all = [0] ∧ log = [.more] ∧ 1 + st.forks = st.solutions + st.failures + st.violations + st.floundered ∧
    (st.forks, st.solutions, st.failures, st.violations, st.floundered) = (3, 1, 1, 1, 1) ∧
    Visits (Reduction.normalize 100) (enter (some 7) m) st₀ .again m₀ ∧
    m₀.queue.length + st₀.solutions + st₀.failures + st₀.violations = 1 + st₀.forks ∧
    Stalls (Reduction.normalize 100) st₀ m₀ ∧ m₀.queue.length = 1 := by
  let p := Prelude.standard
  let ops : List Operation := [.int 1, .fail, .make p.choose [0, 1], .free none, .make p.ensureNotFree [3],
    .make p.choose [2, 4], .functionValue p.add, .make p.choose [5, 6]]
  let visit : Visitor (List NodeId) := fun _ i all => .ok (all ++ [i], .more)
  let facts : Machine → Bool := fun m =>
    let found := m.evaluate 100 (logging visit) 7 ([], [])
    (returned? found.ending).any fun r => r.1.stepLimitHit = false ∧ found.gathered = ([0], [.more]) ∧
      (r.1.forks, r.1.solutions, r.1.failures, r.1.violations, r.1.floundered) = (3, 1, 1, 1, 1)
  have result : (Operation.script (.ofConfig (.fixedPool 64)) ops).map facts = some true := by decide +kernel
  obtain ⟨m, ran, facts⟩ := Option.map_eq_some_iff.mp result
  obtain ⟨⟨st, m'⟩, ended, facts⟩ := (Option.any_eq_true _ _).mp facts
  obtain ⟨unlimited, gathered, counts⟩ := of_decide_eq_true facts
  obtain ⟨queued, all, log, ending, -, logged, tally⟩ := frames_conserved 100 visit 7 [] m
  rw [logged] at ended gathered
  cases gathered
  have same := of_returned ended
  obtain ⟨-, balance, more, last⟩ := tally st m' same
  have floundered : st.floundered = 1 := congrArg (·.2.2.2.2) counts
  have some_ : st.floundered ≠ 0 := by omega
  obtain ⟨st₀, m₀, _, _, ⟨visits, -⟩, -, -, stalls, frames⟩ := last (more some_)
  dsimp only at same
  rw [same] at logged
  exact ⟨m, st, m', _, _, st₀, m₀, Operation.Run.start.script ran, logged, rfl, rfl,
    balance (more some_) unlimited, counts, visits, queued st₀ m₀ visits, stalls.mp some_,
    (frames (stalls.mp some_)).symm.trans floundered⟩

end Schedule

end ChoiceGraph
