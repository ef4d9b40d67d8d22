import ChoiceGraph.Proofs.NestedSearches
import ChoiceGraph.Proofs.Passing

/-! # The frames partition the search space

A fingerprint stands for all assignments of sides to choices that agree with it. A frame that forks
shares its assignments out among two, and a frame that finishes keeps those it has. So each assignment
agrees with exactly one frame, queued or finished. Nothing is asked of the graph. -/
namespace ChoiceGraph

/-- Frames that have failed, conflicting ones included, or turned out to be violations. -/
def Stats.finished (st : Stats) : Nat := st.failures + st.violations

namespace Schedule

open Eff Machine

variable {normal : NodeId → Eff Unit} {m m' : Machine} {st : Stats} {f : Frame}

/-- The queue passes a turn, in which as many frames finish as are counted. -/
def Plays (m : Machine) (st st' : Stats) (m' : Machine) : Prop :=
  ∃ n, st'.finished = st.finished + n ∧ st'.floundered = st.floundered ∧ m.Passed n m'

/-- The search gives up: every frame waits, the front one since this turn, and all are dropped. -/
structure GivesUp (m : Machine) (floundered : Nat) (r : Stats × Outcome) (m' : Machine) : Prop where
  ended : r.2 = .over
  dropped : m'.queue = []
  waiting : ∀ g ∈ m.queue.tail, g.suspended = true
  counted : r.1.floundered = floundered + m.queue.length
  some_ : 0 < m.queue.length

/-- What a turn comes to. -/
def Turns (m : Machine) (st : Stats) (r : Stats × Outcome) (m' : Machine) : Prop :=
  Plays m st r.1 m' ∨ GivesUp m st.floundered r m'

theorem Plays.of_undisturbed {m₁ : Machine} {st' : Stats} (h : m.Undisturbed m₁)
    (hm : m.Numbered) (front : m.front? = some f) (plays : Plays m₁ st st' m') :
    Plays m st st' m' := by
  obtain ⟨-, -, -, passed⟩ := h.front hm front
  obtain ⟨n, finished, floundered, h⟩ := plays
  exact ⟨n, finished, floundered, passed n m' h⟩

theorem Turns.of_undisturbed {m₁ : Machine} {r : Stats × Outcome} (h : m.Undisturbed m₁)
    (hm : m.Numbered) (front : m.front? = some f) (turns : Turns m₁ st r m') : Turns m st r m' := by
  rcases turns with plays | gave
  · exact .inl (plays.of_undisturbed h hm front)
  · obtain ⟨f₁, rest, before, after⟩ := h.queue_cases front
    refine .inr ⟨gave.ended, gave.dropped, ?_, ?_, ?_⟩
    · have waiting := gave.waiting
      rw [after] at waiting
      rw [before]
      exact waiting
    · rw [gave.counted, after, before]
      rfl
    · rw [before]
      exact Nat.succ_pos _

/-- A turn that only looks at the front frame. -/
theorem Plays.stay {st' : Stats} (hm : m.Numbered) (front : m.front? = some f)
    (finished : st'.finished = st.finished) (floundered : st'.floundered = st.floundered) :
    Plays m st st' m := by
  obtain ⟨c, outer, rest, hc, hq⟩ := front_cases front
  refine ⟨0, finished, floundered, hm, ?_⟩
  rw [entries_inner hc, Computation.entries_cons hq]
  exact .stays f _ _

theorem dropFront_passed (hm : m.Numbered) (front : m.front? = some f) :
    m.Passed 1 (m.mapInnermost Computation.dropFront) :=
  mapInnermost_passed hm front fun _ _ hc hq => Computation.dropFront_passes hc hq

theorem requeue_passed (hm : m.Numbered) (front : m.front? = some f) (suspended : Bool) :
    m.Passed 0 (m.mapInnermost fun c => c.requeue m.config.timeAllotment suspended) :=
  mapInnermost_passed hm front fun _ _ hc hq => Computation.requeue_passes hc hq _ suspended

theorem fork_plays (hm : m.Numbered) (front : m.front? = some f) {i : NodeId} {st' : Stats}
    (run : fork i st m = .ok st' m') : Plays m st st' m' := by
  obtain ⟨id, -, run⟩ := look_bind_eq_ok run
  obtain ⟨left, -, run⟩ := look_bind_eq_ok run
  obtain ⟨right, -, run⟩ := look_bind_eq_ok run
  obtain ⟨resolution, m₁, resolved, run⟩ := bind_eq_ok run
  obtain ⟨c, outer, rest, hc, hq⟩ := front_cases front
  have passes := Computation.resolve_passes ((numbered_inner hc).mp hm) hq id left right
    m.config.timeAllotment
  have result : resolveFront m id left right =
      ((c.resolve id left right m.config.timeAllotment).1,
        { m with computations := (c.resolve id left right m.config.timeAllotment).2 :: outer }) := by
    simp only [resolveFront, hc]
  have same : EStateM.Result.ok (resolveFront m id left right).1 (resolveFront m id left right).2 =
      (.ok resolution m₁ : EStateM.Result Stop Machine _) := resolved
  rw [result] at same
  cases same
  have passed : m.Passed _ { m with
      computations := (c.resolve id left right m.config.timeAllotment).2 :: outer } :=
    Passed.inner hc rfl passes
  cases way : (c.resolve id left right m.config.timeAllotment).1 with
  | failed =>
    rw [way] at run passed
    cases run
    exact ⟨1, by simp only [Stats.finished]; omega, rfl, passed⟩
  | followed =>
    rw [way] at run passed
    cases run
    exact ⟨0, rfl, rfl, passed⟩
  | forked =>
    rw [way] at run passed
    cases run
    exact ⟨0, rfl, rfl, passed⟩

theorem setFrontNode_undisturbed (l : Link) {u : Unit} (run : setFrontNode l m = .ok u m') :
    m.Undisturbed m' := by
  cases run
  refine mapInnermost_undisturbed fun c => ?_
  cases hq : c.queue with
  | nil => exact .refl c
  | cons f rest => exact Computation.undisturbed_of_front hq rfl rfl rfl

theorem dispatch_plays (bound : Nat) (i : NodeId) {r : Stats × Outcome} (hm : m.Numbered)
    (front : m.front? = some f) (run : dispatch bound i st m = .ok r m') : Plays m st r.1 m' := by
  induction bound generalizing m f i with
  | zero => cases run
  | succ bound ih =>
    obtain ⟨tag, -, run⟩ := look_bind_eq_ok run
    cases tag with
    | failure =>
      cases run
      exact ⟨1, by simp only [Stats.finished]; omega, rfl, dropFront_passed hm front⟩
    | operation =>
      cases run
      exact ⟨1, by simp only [Stats.finished]; omega, rfl, dropFront_passed hm front⟩
    | forward =>
      obtain ⟨next, -, run⟩ := look_bind_eq_ok run
      obtain ⟨_, m₁, moved, run⟩ := bind_eq_ok run
      obtain ⟨j, -, run⟩ := look_bind_eq_ok run
      have same := setFrontNode_undisturbed next moved
      obtain ⟨hm₁, f₁, front₁, -⟩ := same.front hm front
      exact (ih j hm₁ front₁ run).of_undisturbed same hm front
    | choice =>
      obtain ⟨st', m₁, forked, run⟩ := bind_eq_ok run
      cases run
      exact fork_plays hm front forked
    | constructor _ =>
      cases run
      exact .stay hm front rfl rfl
    | free =>
      cases run
      exact .stay hm front rfl rfl
    | unassigned _ => cases run

theorem clear_queue (m : Machine) : (m.mapInnermost Computation.clear).queue = [] := by
  cases hc : m.computations with
  | nil => simp only [mapInnermost, queue, hc, List.head?_nil, Option.map_none, Option.getD_none]
  | cons c outer =>
    simp only [mapInnermost, queue, hc, List.head?_cons, Option.map_some, Option.getD_some]
    exact List.map_eq_nil_iff.mp Computation.clear_views

/-- A frame that suspends waits at the back while another one can go on; when all wait, all are dropped. -/
theorem suspendFront_cases {r : Stats × Outcome} (front : m.front? = some f)
    (run : suspendFront st m = .ok r m') :
    (r = (st, .again) ∧ m' = (m.mapInnermost fun c => c.requeue m.config.timeAllotment true) ∧
      ∃ g ∈ m.queue.tail, g.suspended = false) ∨
    (r = ({ st with floundered := st.floundered + m.queue.length }, .over) ∧ m'.queue = [] ∧
      ∀ g ∈ m.queue.tail, g.suspended = true) := by
  obtain ⟨c, outer, rest, hc, hq⟩ := front_cases front
  let back : Frame := { f with allotment := m.config.timeAllotment, suspended := true }
  let requeued := c.requeue m.config.timeAllotment true
  have queued : requeued.queue = rest ++ [back] := by
    simp only [requeued, Computation.requeue, hq, Computation.putFrame, List.set_cons_zero,
      Computation.rotate]
    rfl
  have queue : m.queue = f :: rest := by
    simp only [Machine.queue, hc, List.head?_cons, Option.map_some, Option.getD_some, hq]
  have after : (m.mapInnermost fun c => c.requeue m.config.timeAllotment true).computations =
      requeued :: outer := by simp only [mapInnermost, hc, requeued]
  obtain ⟨_, m₁, requeue_, run⟩ := bind_eq_ok run
  cases requeue_
  obtain ⟨_, m₂, read, run⟩ := bind_eq_ok run
  cases read
  rw [after] at run
  dsimp only at run
  rw [queue, List.tail_cons]
  by_cases all : requeued.allSuspended = true
  · rw [if_pos all] at run
    cases run
    rw [Computation.allSuspended, queued] at all
    have waiting := List.all_eq_true.mp all
    refine .inr ⟨?_, clear_queue _, fun g hg => waiting g (List.mem_append_left _ hg)⟩
    rw [queued, List.length_append, List.length_cons, List.length_cons, List.length_nil]
  · rw [if_neg all] at run
    cases run
    refine .inl ⟨rfl, rfl, ?_⟩
    by_contra none
    refine all ?_
    rw [Computation.allSuspended, queued, List.all_append]
    have waiting : rest.all Frame.suspended = true := List.all_eq_true.mpr fun g hg => by
      by_contra moving
      exact none ⟨g, hg, by rwa [Bool.not_eq_true] at moving⟩
    rw [waiting]
    rfl

theorem suspendFront_turns {r : Stats × Outcome} (hm : m.Numbered) (front : m.front? = some f)
    (run : suspendFront st m = .ok r m') : Turns m st r m' := by
  obtain ⟨c, outer, rest, hc, hq⟩ := front_cases front
  have queue : m.queue = f :: rest := by
    simp only [Machine.queue, hc, List.head?_cons, Option.map_some, Option.getD_some, hq]
  rcases suspendFront_cases front run with ⟨rfl, rfl, -⟩ | ⟨rfl, dropped, waiting⟩
  · exact .inl ⟨0, rfl, rfl, requeue_passed hm front true⟩
  · refine .inr ⟨rfl, dropped, waiting, rfl, ?_⟩
    rw [queue]
    exact Nat.succ_pos _

theorem catching_of_suspended {body : Eff Unit} {v : Nat} (stopped : body m = .error (.suspended v) m') :
    catching body m = .ok .suspended m' := by
  rw [catching, stopped]

theorem catching_suspended {body : Eff Unit} (run : catching body m = .ok .suspended m') :
    ∃ v, body m = .error (.suspended v) m' := by
  unfold catching at run
  cases stopped : body m with
  | ok u m₁ =>
    rw [stopped] at run
    cases run
  | error stop m₁ =>
    rw [stopped] at run
    cases stop with
    | suspended v =>
      cases run
      exact ⟨v, rfl⟩
    | _ => cases run

theorem reduceFront_turns (isolated : ∀ i, (normal i).Isolated) {l : Link} {r : Stats × Outcome}
    (hm : m.Numbered) (front : m.front? = some f) (run : reduceFront normal l st m = .ok r m') :
    Turns m st r m' ∧ (¬ Plays m st r.1 m' → ∃ i v m₁, l = some i ∧
      normal i m = .error (.suspended v) m₁) := by
  obtain ⟨i, target, run⟩ := look_bind_eq_ok run
  obtain ⟨ending, m₁, reduced, run⟩ := bind_eq_ok run
  have same : m.Undisturbed m₁ := (catching_moves (isolated i)).ok reduced
  obtain ⟨_, m₂, read, run⟩ := bind_eq_ok run
  cases read
  obtain ⟨hm₁, f₁, front₁, -⟩ := same.front hm front
  have plays : Plays m₁ { st with steps := st.steps + m₁.slice.used } r.1 m' → Plays m st r.1 m' :=
    fun h => Plays.of_undisturbed same hm front h
  cases ending with
  | done =>
    have h := plays (dispatch_plays _ i hm₁ front₁ run)
    exact ⟨.inl h, fun none => absurd h none⟩
  | preempted =>
    cases run
    have h := plays ⟨0, rfl, rfl, requeue_passed hm₁ front₁ false⟩
    exact ⟨.inl h, fun none => absurd h none⟩
  | suspended =>
    have turns : Turns m₁ { st with steps := st.steps + m₁.slice.used } r m' :=
      suspendFront_turns hm₁ front₁ run
    refine ⟨Turns.of_undisturbed same hm front turns, fun _ => ?_⟩
    have node : l = some i := by
      cases l with
      | none => cases target
      | some j =>
        cases target
        rfl
    obtain ⟨v, stopped⟩ := catching_suspended reduced
    exact ⟨i, v, m₁, node, stopped⟩

/-! ## Whole searches -/

/-- What a scheduler goes on from. -/
structure State where
  stats : Stats
  outcome : Outcome
  machine : Machine

/-- The scheduler goes on by a turn, or lets go of the frame whose value has been handed out. The
decisions of the frames that finish on the way are read off the state before. -/
inductive Next (normal : NodeId → Eff Unit) : State → List Fingerprint → State → Prop where
  | turn {st st' : Stats} {o : Outcome} {m m' : Machine}
    (run : Schedule.turn normal st m = .ok (st', o) m') :
    Next normal ⟨st, .again, m⟩ (m.decisions.take (st'.finished - st.finished)) ⟨st', o, m'⟩
  | drop (st : Stats) (i : NodeId) (m : Machine) :
    Next normal ⟨st, .value i, m⟩ (m.decisions.take 1)
      ⟨st, .again, m.mapInnermost Computation.dropFront⟩

/-- The states of a scheduler, with the decisions of all frames that have finished. -/
inductive Recorded (normal : NodeId → Eff Unit) (start : Machine) : List Fingerprint → State → Prop
  | enter : Recorded normal start [] ⟨{}, .again, start⟩
  | next {done finished : List Fingerprint} {s s' : State} (h : Recorded normal start done s)
    (step : Next normal s finished s') : Recorded normal start (finished ++ done) s'

/-- What has become of frame `f` of one state in a later one. -/
inductive Path (normal : NodeId → Eff Unit) : State → Frame → State → Frame → Prop
  | here (s : State) (f : Frame) : Path normal s f s f
  | next {finished : List Fingerprint} {s s₁ s₂ : State} {f g h : Frame}
    (path : Path normal s f s₁ g) (step : Next normal s₁ finished s₂)
    (goes : GoesOn s₁.machine.queue s₂.machine.queue g h) : Path normal s f s₂ h

theorem turn_turns (isolated : ∀ i, (normal i).Isolated) {r : Stats × Outcome} (hm : m.Numbered)
    (run : Schedule.turn normal st m = .ok r m') :
    Turns m st r m' ∧ (¬ Plays m st r.1 m' → ∃ f steps i v m₁, m.front? = some f ∧
      nextSlice? m.config st = some steps ∧ f.node = some i ∧
      normal i { m with slice := .ofSteps steps } = .error (.suspended v) m₁) := by
  have still : ∀ {st' : Stats}, st'.finished = st.finished → st'.floundered = st.floundered →
      Plays m st st' m := by
    intro st' finished floundered
    cases front : m.front? with
    | none =>
      refine ⟨0, finished, floundered, hm, ?_⟩
      rw [entries_empty front]
      exact .empty 0
    | some f => exact .stay hm front finished floundered
  rcases turn_cases normal st m with ⟨-, same⟩ | same | ⟨f, steps, front, slice, same⟩
  · cases same.symm.trans run
    exact ⟨.inl (still rfl rfl), fun none => absurd (still rfl rfl) none⟩
  · cases same.symm.trans run
    exact ⟨.inl (still rfl rfl), fun none => absurd (still rfl rfl) none⟩
  · have sliced : m.Undisturbed { m with slice := .ofSteps steps } := undisturbed_of_same rfl
    obtain ⟨hm₁, f₁, front₁, -⟩ := sliced.front hm front
    obtain ⟨turns, suspends⟩ := reduceFront_turns isolated hm₁ front₁ (same.symm.trans run)
    refine ⟨turns.of_undisturbed sliced hm front, fun none => ?_⟩
    obtain ⟨i, v, m₁, node, stopped⟩ := suspends fun h => none (h.of_undisturbed sliced hm front)
    exact ⟨f, steps, i, v, m₁, front, slice, node, stopped⟩

variable {s s' s₁ : State} {finished done : List Fingerprint} {g h : Frame} {start : Machine}

theorem dropFront_idle (front : m.front? = none) : m.mapInnermost Computation.dropFront = m := by
  cases hc : m.computations with
  | nil => simp only [mapInnermost, hc]
  | cons c outer =>
    simp only [front?, hc, List.head?_cons, Option.bind_some, Computation.front?] at front
    refine mapInnermost_of_same hc ?_
    simp only [Computation.dropFront, List.head?_eq_none_iff.mp front]

/-- A step of the scheduler lets the queue pass a turn, or gives up. -/
theorem Next.passed (isolated : ∀ i, (normal i).Isolated) (step : Next normal s finished s')
    (hm : s.machine.Numbered) :
    (∃ n, finished = s.machine.decisions.take n ∧ s'.stats.floundered = s.stats.floundered ∧
        s.machine.Passed n s'.machine) ∨
      GivesUp s.machine s.stats.floundered (s'.stats, s'.outcome) s'.machine := by
  cases step with
  | @turn st st' o m m' run =>
    rcases (turn_turns isolated hm run).1 with ⟨n, finished, floundered, passed⟩ | gave
    · refine .inl ⟨n, ?_, floundered, passed⟩
      rw [finished, Nat.add_sub_cancel_left]
    · exact .inr gave
  | drop st i m =>
    refine .inl ⟨1, rfl, rfl, ?_⟩
    cases front : m.front? with
    | some f => exact dropFront_passed hm front
    | none =>
      rw [dropFront_idle front]
      refine ⟨hm, ?_⟩
      rw [entries_empty front]
      exact .empty 1

/-- The fingerprints have their holders, and each assignment agrees with one frame, until the search
gives up. -/
structure Partitioned (done : List Fingerprint) (s : State) : Prop where
  numbered : s.stats.floundered = 0 → s.machine.Numbered
  one : s.stats.floundered = 0 → ∀ σ : ChoiceId → Side,
    (s.machine.decisions ++ done).countP (·.Agrees σ) = 1
  going : s.outcome ≠ .over → s.stats.floundered = 0

theorem enter_partitioned (root : Link) (m : Machine) : Partitioned [] ⟨{}, .again, enter root m⟩ := by
  refine ⟨fun _ c hc => ?_, fun _ σ => ?_, fun _ => rfl⟩
  · cases hc
    exact Cells.empty_counted.new
  · have agrees : Fingerprint.empty.Agrees σ := Fingerprint.empty_agrees
    show [Fingerprint.empty].countP (·.Agrees σ) = 1
    simp [agrees]

/-- A step preserves the partition. -/
theorem Next.partitioned (isolated : ∀ i, (normal i).Isolated) (step : Next normal s finished s')
    (h : Partitioned done s) : Partitioned (finished ++ done) s' := by
  have going : s.stats.floundered = 0 := h.going (by cases step <;> nofun)
  rcases step.passed isolated (h.numbered going) with ⟨n, rfl, floundered, passed⟩ | gave
  · refine ⟨fun _ => passed.numbered, fun _ σ => ?_, fun _ => floundered.trans going⟩
    rw [← h.one going σ]
    exact passed.queue.countP done
  · have more : s'.stats.floundered ≠ 0 := by
      have counted : s'.stats.floundered = s.stats.floundered + s.machine.queue.length := gave.counted
      have some_ := gave.some_
      omega
    exact ⟨fun none => absurd none more, fun none => absurd none more, fun on => absurd gave.ended on⟩

theorem Recorded.partitioned {root : Link} (isolated : ∀ i, (normal i).Isolated)
    (h : Recorded normal (Schedule.enter root m) done s) : Partitioned done s := by
  induction h with
  | enter => exact enter_partitioned root m
  | next _ step ih => exact step.partitioned isolated ih

theorem Next.extends (isolated : ∀ i, (normal i).Isolated) (step : Next normal s finished s')
    (hm : s.machine.Numbered) (goes : GoesOn s.machine.queue s'.machine.queue f g) :
    (s.machine.decided f).Extends (s'.machine.decided g) := by
  rcases step.passed isolated hm with ⟨n, -, -, passed⟩ | gave
  · rw [← entries_frames, ← entries_frames] at goes
    exact passed.queue.grows goes (fun _ => mem_entries) fun _ => mem_entries
  · rw [gave.dropped] at goes
    exact absurd goes GoesOn.not_nil

/-- Every frame after a step is one that a frame has gone on as. -/
theorem Next.goesOn (isolated : ∀ i, (normal i).Isolated) (step : Next normal s finished s')
    (hm : s.machine.Numbered) (hg : g ∈ s'.machine.queue) :
    ∃ f ∈ s.machine.queue, GoesOn s.machine.queue s'.machine.queue f g := by
  rcases step.passed isolated hm with ⟨n, -, -, passed⟩ | gave
  · rw [← entries_frames] at hg ⊢
    rw [← entries_frames]
    exact passed.queue.goesOn hg
  · rw [gave.dropped] at hg
    exact absurd hg List.not_mem_nil

theorem Path.extends (isolated : ∀ i, (normal i).Isolated) (path : Path normal s f s' g)
    (h : Partitioned done s) :
    (s.machine.decided f).Extends (s'.machine.decided g) ∧ ∃ done, Partitioned done s' := by
  induction path with
  | here => exact ⟨.refl _, done, h⟩
  | next _ step goes ih =>
    obtain ⟨extends_, done', h'⟩ := ih h
    have going := h'.going (by cases step <;> nofun)
    exact ⟨extends_.trans (step.extends isolated (h'.numbered going) goes), _,
      step.partitioned isolated h'⟩

/-- However a search came to a state, the frames that are queued there and those that have finished
partition the assignments, unless the search has given up on some. A frame in the queue is one that
the first frame has gone on as. On the way from one state to another, a frame keeps what it has
decided. -/
theorem frames_partition (fuel : Nat) (root : Link) (m : Machine)
    (h : Recorded (Reduction.normalize fuel) (enter root m) done s) :
    (s.stats.floundered = 0 → ∀ σ : ChoiceId → Side,
      (s.machine.decisions ++ done).countP (·.Agrees σ) = 1) ∧
    (s.outcome ≠ .over → s.stats.floundered = 0) ∧
    (∀ g ∈ s.machine.queue, ∃ f ∈ (enter root m).queue,
      Path (Reduction.normalize fuel) ⟨{}, .again, enter root m⟩ f s g) ∧
    ∀ f s' g, Path (Reduction.normalize fuel) s f s' g →
      (s.machine.decided f).Extends (s'.machine.decided g) := by
  have isolated := (Reduction.reducer_moves Undisturbed fuel).normal
  have partitioned := h.partitioned isolated
  refine ⟨partitioned.one, partitioned.going, ?_, fun f s' g path =>
    (path.extends isolated partitioned).1⟩
  induction h with
  | enter => exact fun g hg => ⟨g, hg, .here _ g⟩
  | next h step ih =>
    intro g hg
    have before := h.partitioned isolated
    have going := before.going (by cases step <;> nofun)
    obtain ⟨f, hf, goes⟩ := step.goesOn isolated (before.numbered going) hg
    obtain ⟨first, there, path⟩ := ih before f hf
    exact ⟨first, there, path.next step goes⟩

/-- The scheduler goes through the recorded states and no others. -/
theorem visits_iff_recorded {o : Outcome} :
    Visits normal start st o m ↔ ∃ done, Recorded normal start done ⟨st, o, m⟩ := by
  constructor
  · intro h
    induction h with
    | enter => exact ⟨[], .enter⟩
    | turn _ run ih =>
      obtain ⟨done, h⟩ := ih
      exact ⟨_, h.next (.turn run)⟩
    | drop _ ih =>
      obtain ⟨done, h⟩ := ih
      exact ⟨_, h.next (.drop _ _ _)⟩
  · rintro ⟨done, h⟩
    suffices ∀ {done s}, Recorded normal start done s → Visits normal start s.stats s.outcome s.machine
      from this h
    intro done s h
    induction h with
    | enter => exact .enter
    | next _ step ih =>
      cases step with
      | turn run => exact ih.turn run
      | drop => exact ih.drop

/-- The state after one more step, with the decisions of the frames that finish. -/
def State.next? (normal : NodeId → Eff Unit) (s : State) : Option (List Fingerprint × State) :=
  match s.outcome with
  | .again =>
    match Schedule.turn normal s.stats s.machine with
    | .ok (st, o) m => some (s.machine.decisions.take (st.finished - s.stats.finished), ⟨st, o, m⟩)
    | .error _ _ => none
  | .value _ => some (s.machine.decisions.take 1,
      ⟨s.stats, .again, s.machine.mapInnermost Computation.dropFront⟩)
  | .over => none

theorem State.next_of_next? (h : s.next? normal = some (finished, s')) : Next normal s finished s' := by
  obtain ⟨st, o, m⟩ := s
  cases o with
  | again =>
    unfold next? at h
    dsimp only at h
    cases run : Schedule.turn normal st m with
    | ok r m' =>
      rw [run] at h
      cases h
      exact .turn run
    | error stop m' =>
      rw [run] at h
      cases h
  | value i =>
    cases h
    exact .drop st i m
  | «over» => cases h

/-- The record after a number of steps. -/
def record (normal : NodeId → Eff Unit) (start : Machine) : Nat → Option (List Fingerprint × State)
  | 0 => some ([], ⟨{}, .again, start⟩)
  | steps + 1 => do
    let (done, s) ← record normal start steps
    let (finished, s) ← s.next? normal
    return (finished ++ done, s)

theorem record_recorded {steps : Nat} (h : record normal start steps = some (done, s)) :
    Recorded normal start done s := by
  induction steps generalizing done s with
  | zero =>
    cases h
    exact .enter
  | succ steps ih =>
    obtain ⟨⟨done₁, s₁⟩, before, h⟩ := Option.bind_eq_some_iff.mp h
    obtain ⟨⟨finished, s₂⟩, step, h⟩ := Option.bind_eq_some_iff.mp h
    cases h
    exact (ih before).next (State.next_of_next? step)

/-- The search of `1 ? 2`, when the left alternative has been handed out. -/
theorem frames_partition_choice : ∃ m done s, Operation.Run (.ofConfig (.fixedPool 8)) m ∧
    Recorded (Reduction.normalize 10) (enter (some 2) m) done s ∧
    s.machine.decisions.map Fingerprint.decisions = [[(0, .right)]] ∧
    done.map Fingerprint.decisions = [[(0, .left)]] ∧
    ∀ σ : ChoiceId → Side, (s.machine.decisions ++ done).countP (·.Agrees σ) = 1 := by
  let ops : List Operation := [.int 1, .int 2, .make Prelude.standard.choose [0, 1]]
  let facts : Machine → Bool := fun m => (record (Reduction.normalize 10) (enter (some 2) m) 3).any
    fun (done, s) => decide (s.stats.floundered = 0 ∧
      s.machine.decisions.map Fingerprint.decisions = [[(0, .right)]] ∧
      done.map Fingerprint.decisions = [[(0, .left)]])
  have result : (Operation.script (.ofConfig (.fixedPool 8)) ops).map facts = some true := by
    decide +kernel
  obtain ⟨m, ran, facts⟩ := Option.map_eq_some_iff.mp result
  obtain ⟨⟨done, s⟩, steps, facts⟩ := (Option.any_eq_true _ _).mp facts
  obtain ⟨going, queued, finished⟩ := of_decide_eq_true facts
  have recorded := record_recorded steps
  exact ⟨m, done, s, Operation.Run.start.script ran, recorded, queued, finished,
    (frames_partition 10 (some 2) m recorded).1 going⟩

/-! ## Giving up -/

/-- A search gives up in a turn whose reduction suspends, when all other frames have been waiting since
their last turns. It drops and counts them all. -/
theorem turn_gives_up (fuel : Nat) (root : Link) {m₀ : Machine} {o : Outcome} {st' : Stats}
    (h : Recorded (Reduction.normalize fuel) (enter root m₀) done ⟨st, .again, m⟩)
    (run : Schedule.turn (Reduction.normalize fuel) st m = .ok (st', o) m')
    (gave : st.floundered < st'.floundered) :
    GivesUp m st.floundered (st', o) m' ∧ ∃ f steps i v m₁, m.front? = some f ∧
      nextSlice? m.config st = some steps ∧ f.node = some i ∧
      Reduction.normalize fuel i { m with slice := .ofSteps steps } = .error (.suspended v) m₁ := by
  have isolated := (Reduction.reducer_moves Undisturbed fuel).normal
  have partitioned := h.partitioned isolated
  have numbered : m.Numbered := partitioned.numbered (partitioned.going nofun)
  obtain ⟨turns, suspends⟩ := turn_turns isolated numbered run
  have idle : ¬ Plays m st st' m' := by
    rintro ⟨n, -, same, -⟩
    omega
  exact ⟨turns.resolve_left idle, suspends idle⟩

/-- `(() &> x) =:= y`, where neither variable has a type. -/
def guardedVariable : List Operation :=
  let p := Prelude.standard
  [.free none, .free none, .make p.unit [], .make p.guard [2, 0], .make p.unify [3, 1]]

/-- A dropped frame need not be stuck. The turn in which it suspends leaves the call with a variable
in the place of an argument, so that the next reduction of the same node comes to an end. -/
theorem dropped_frame_goes_on : ∃ m st m' v m₁ m₂, Operation.Run (.ofConfig (.fixedPool 64)) m ∧
    Schedule.turn (Reduction.normalize 100) {} (enter (some 4) m) = .ok (st, .over) m' ∧
    st.floundered = 1 ∧
    Reduction.normalize 100 4 { enter (some 4) m with slice := .ofSteps 10000 } =
      .error (.suspended v) m₁ ∧
    Reduction.normalize 100 4 { m₁ with slice := .unbounded } = .ok () m₂ := by
  let sliced : Machine → Machine := fun m => { enter (some 4) m with slice := .ofSteps 10000 }
  let gaveUp : Machine → Bool := fun m =>
    (returned? (Schedule.turn (Reduction.normalize 100) {} (enter (some 4) m))).any fun r =>
      r.1.2 = .over ∧ r.1.1.floundered = 1
  let goesOn : Machine → Bool := fun m => (stopped? (Reduction.normalize 100 4 (sliced m))).any fun r =>
    r.1 = .suspended 0 ∧
      (returned? (Reduction.normalize 100 4 { r.2 with slice := .unbounded })).isSome
  have result : (Operation.script (.ofConfig (.fixedPool 64)) guardedVariable).map
      (fun m => (gaveUp m, goesOn m)) = some (true, true) := by decide +kernel
  obtain ⟨m, ran, facts⟩ := Option.map_eq_some_iff.mp result
  obtain ⟨gave, goes⟩ := Prod.mk.inj facts
  obtain ⟨⟨⟨st, _⟩, m'⟩, turned, gave⟩ := (Option.any_eq_true _ _).mp gave
  obtain ⟨rfl, floundered⟩ := of_decide_eq_true gave
  obtain ⟨⟨_, m₁⟩, suspended, goes⟩ := (Option.any_eq_true _ _).mp goes
  obtain ⟨rfl, goes⟩ := of_decide_eq_true goes
  obtain ⟨⟨_, m₂⟩, normal⟩ := Option.isSome_iff_exists.mp goes
  exact ⟨m, st, m', 0, m₁, m₂, Operation.Run.start.script ran, of_returned turned, floundered,
    of_stopped suspended, of_returned normal⟩

end Schedule

end ChoiceGraph
