import ChoiceGraph.Proofs.Partition

/-! # What a frame is charged

A turn gives the front frame a slice of its own. The steps that are charged to the frame are those
that its slice pays for, so there are no more of them in one turn than the slice has, and none any
longer once the frame has used up its collections. A frame that follows a choice which it has decided
stays in front for another turn, with another slice. -/
namespace ChoiceGraph

namespace Machine

/-- Collections that the front frame may still survive. -/
def allotment? (m : Machine) : Option Nat := m.front?.map Frame.allotment

/-- A slice is used as it is spent, and no longer once the front frame has to go. -/
structure Heeds (m m' : Machine) : Prop where
  config : m'.config = m.config
  isolated : m.Undisturbed m'
  spends : ∀ left, m.slice.remaining = some left →
    ∃ left', m'.slice.remaining = some left' ∧ left' + m'.slice.used = left + m.slice.used
  stops : m.slice.preempt = true → m'.slice.preempt = true ∧ m'.slice.used = m.slice.used
  allots : m'.allotment? = some 0 → m.allotment? = some 0 ∨ m'.slice.preempt = true

variable {m m' : Machine}

theorem heeds_of_same (config : m'.config = m.config) (isolated : m.Undisturbed m')
    (slice : m'.slice = m.slice) (allotment : m'.allotment? = m.allotment?) : m.Heeds m' := by
  refine ⟨config, isolated, fun left limited => ⟨left, slice ▸ limited, by rw [slice]⟩,
    fun spent => ⟨slice ▸ spent, by rw [slice]⟩, fun none => .inl (allotment ▸ none)⟩

instance : IsPreorder Machine Heeds where
  refl m := heeds_of_same rfl (refl_of _ m) rfl rfl
  trans m m' m'' h k := by
    refine ⟨k.config.trans h.config, trans_of _ h.isolated k.isolated, fun left limited => ?_,
      fun spent => ?_, fun none => ?_⟩
    · obtain ⟨left', limited', same⟩ := h.spends left limited
      obtain ⟨left'', limited'', same'⟩ := k.spends left' limited'
      exact ⟨left'', limited'', same'.trans same⟩
    · obtain ⟨spent', same⟩ := h.stops spent
      obtain ⟨spent'', same'⟩ := k.stops spent'
      exact ⟨spent'', same'.trans same⟩
    · rcases k.allots none with none | spent
      · exact (h.allots none).imp_right fun spent => (k.stops spent).1
      · exact .inr spent

theorem chargeCollection_heeds (m : Machine) : m.Heeds (Eff.chargeCollection m) := by
  have isolated := chargeCollection_undisturbed (m := m)
  unfold Eff.chargeCollection at isolated ⊢
  split
  · exact refl_of Heeds m
  · next f front =>
    rw [front] at isolated
    obtain ⟨c, outer, hc, hf⟩ : ∃ c outer, m.computations = c :: outer ∧ c.front? = some f := by
      obtain ⟨c, hc, hf⟩ := Option.bind_eq_some_iff.mp front
      obtain ⟨outer, hc⟩ := List.head?_eq_some_iff.mp hc
      exact ⟨c, outer, hc, hf⟩
    obtain ⟨rest, hq⟩ := List.head?_eq_some_iff.mp hf
    -- the front frame is the one that was charged
    have charged : (m.mapInnermost fun c => c.putFrame 0
        { f with allotment := f.allotment - 1 }).allotment? = some (f.allotment - 1) := by
      simp only [allotment?, front?, mapInnermost, hc, List.head?_cons, Option.bind_some,
        Computation.front?, Computation.putFrame, hq, List.set_cons_zero, Option.map_some]
    have slice : (m.mapInnermost fun c => c.putFrame 0
        { f with allotment := f.allotment - 1 }).slice = m.slice := by
      unfold mapInnermost
      split <;> rfl
    dsimp only at isolated ⊢
    split
    · next used =>
      rw [if_pos used] at isolated
      refine ⟨mapInnermost_config m _, isolated, fun left limited => ⟨left, ?_, ?_⟩,
        fun spent => ⟨rfl, ?_⟩, fun _ => .inr rfl⟩
      · rw [slice]
        exact limited
      · rw [slice]
      · rw [slice]
    · next unused =>
      rw [if_neg unused] at isolated
      refine ⟨mapInnermost_config m _, isolated, fun left limited => ⟨left, ?_, ?_⟩,
        fun spent => ⟨?_, ?_⟩, fun none => ?_⟩
      · rw [slice]
        exact limited
      · rw [slice]
      · rw [slice]
        exact spent
      · rw [slice]
      · rw [charged] at none
        exact absurd (Option.some.inj none) unused

theorem constrained_allotment (m : Machine) (update : ConstraintStore → ConstraintStore) :
    (m.mapInnermost fun c => c.updateConstraints 0 update).allotment? = m.allotment? := by
  unfold mapInnermost
  split
  · rfl
  · next c outer hc =>
    unfold allotment? front?
    rw [hc]
    simp only [List.head?_cons, Option.bind_some, Computation.front?]
    cases hq : c.queue with
    | nil => simp [Computation.updateConstraints, hq]
    | cons f rest =>
      simp [Computation.updateConstraints, Computation.writeConstraints, Computation.putFrame, hq]

instance : Permissive Heeds where
  graph m _ _ := heeds_of_same rfl (undisturbed_of_same rfl) rfl rfl
  roots m _ := heeds_of_same rfl (undisturbed_of_same rfl) rfl rfl
  nextId m _ := heeds_of_same rfl (undisturbed_of_same rfl) rfl rfl
  spent m going := by
    refine ⟨rfl, undisturbed_of_same rfl, fun left limited => ⟨left - 1, ?_, ?_⟩, fun spent => ?_,
      fun none => .inl none⟩
    · show m.slice.remaining.map (· - 1) = some (left - 1)
      rw [limited, Option.map_some]
    · have some_left : left ≠ 0 := by
        rintro rfl
        simp [Slice.isOver, limited] at going
      show left - 1 + (m.slice.used + 1) = left + m.slice.used
      omega
    · simp [Slice.isOver, spent] at going
  collected m g _ := by
    have counted : m.Heeds { m.setGraph g with collections := m.collections + 1 } :=
      heeds_of_same rfl (undisturbed_of_same rfl) rfl rfl
    exact trans_of Heeds counted (chargeCollection_heeds _)
  constrained m update := by
    refine heeds_of_same (mapInnermost_config m _) (Permissive.constrained m update) ?_
      (constrained_allotment m update)
    unfold mapInnermost
    split <;> rfl

/-- The configuration is the same. -/
def SameConfig (m m' : Machine) : Prop := m'.config = m.config

instance : IsPreorder Machine SameConfig where
  refl _ := rfl
  trans _ _ _ h k := k.trans h

instance : Inward SameConfig where
  innermost m f := mapInnermost_config m f
  resolved _ _ _ _ _ := rfl
  sliced _ _ := rfl

end Machine

namespace Schedule

open Eff Machine

variable {σ : Type} {normal : NodeId → Eff Unit} {visit : Visitor σ} {m m' : Machine}
  {st st' : Stats} {o : Outcome} {i : NodeId} {F n : Nat}

theorem gather_config (h : ∀ i, (normal i).Moves SameConfig) (turns : Nat) (root : Link) (s : σ) :
    (gather normal turns visit root s).Moves SameConfig :=
  gather_around h turns root s fun _ _ same => same

/-- A nested search has slices of its own. -/
instance : Nests Heeds where
  searched := by
    intro σ normal visit h turns root s
    have restores : (gather normal turns visit root s).Moves fun m m' =>
        m'.computations = m.computations ∧ m'.slice = m.slice :=
      gather_restores (fun i => (h i).mono fun _ _ heeds => heeds.isolated) turns root s
    have config : (gather normal turns visit root s).Moves SameConfig :=
      gather_config (fun i => (h i).mono fun _ _ heeds => heeds.config) turns root s
    intro m
    have same : ∀ m' : Machine, m'.computations = m.computations ∧ m'.slice = m.slice →
        m'.config = m.config → m.Heeds m' := by
      intro m' ⟨computations, slice⟩ config
      refine heeds_of_same config (undisturbed_of_same computations) slice ?_
      rw [allotment?, allotment?, front?, front?, computations]
    split
    · next run => exact same _ (restores.ok run) (config.ok run)
    · next run => exact same _ (restores.error run) (config.error run)

/-! ## Turns -/

/-- What follows the reduction of a frame charges no steps and preempts no frame. -/
def SameCharges (st st' : Stats) : Prop :=
  st'.steps = st.steps ∧ st'.preemptions = st.preemptions

theorem fork_charges {m₁ : Machine} (run : fork i st m = .ok st' m₁) :
    SameCharges st st' ∧ st'.stepLimitHit = st.stepLimitHit := by
  obtain ⟨id, -, run⟩ := look_bind_eq_ok run
  obtain ⟨left, -, run⟩ := look_bind_eq_ok run
  obtain ⟨right, -, run⟩ := look_bind_eq_ok run
  obtain ⟨resolution, m₂, -, run⟩ := bind_eq_ok run
  cases resolution <;> cases run <;> exact ⟨⟨rfl, rfl⟩, rfl⟩

theorem dispatch_charges : ∀ (bound : Nat) (i : NodeId) (m : Machine),
    dispatch bound i st m = .ok (st', o) m' →
      SameCharges st st' ∧ st'.stepLimitHit = st.stepLimitHit := by
  intro bound
  induction bound with
  | zero => nofun
  | succ bound ih =>
    intro i m run
    unfold dispatch at run
    obtain ⟨tag, -, run⟩ := look_bind_eq_ok run
    cases tag with
    | failure | operation =>
      obtain ⟨_, m₁, -, run⟩ := bind_eq_ok run
      cases run
      exact ⟨⟨rfl, rfl⟩, rfl⟩
    | forward =>
      obtain ⟨next, -, run⟩ := look_bind_eq_ok run
      obtain ⟨_, m₁, -, run⟩ := bind_eq_ok run
      obtain ⟨j, -, run⟩ := look_bind_eq_ok run
      exact ih j m₁ run
    | choice =>
      obtain ⟨st₁, m₁, forked, run⟩ := bind_eq_ok run
      cases run
      exact fork_charges forked
    | constructor _ | free =>
      cases run
      exact ⟨⟨rfl, rfl⟩, rfl⟩
    | unassigned _ => cases run

theorem suspendFront_charges (run : suspendFront st m = .ok (st', o) m') :
    SameCharges st st' ∧ st'.stepLimitHit = st.stepLimitHit := by
  obtain ⟨_, m₁, -, run⟩ := bind_eq_ok run
  obtain ⟨m₂, m₃, -, run⟩ := bind_eq_ok run
  cases searches : m₂.computations with
  | nil =>
    rw [searches] at run
    cases run
    exact ⟨⟨rfl, rfl⟩, rfl⟩
  | cons c outer =>
    rw [searches] at run
    dsimp only at run
    split at run
    · obtain ⟨_, m₄, -, run⟩ := bind_eq_ok run
      cases run
      exact ⟨⟨rfl, rfl⟩, rfl⟩
    · cases run
      exact ⟨⟨rfl, rfl⟩, rfl⟩

/-- How the reduction in a turn ended, and what it is charged. A frame is preempted if and only if its
slice is over. -/
theorem reduceFront_charges {node : Link} (run : reduceFront normal node st m = .ok (st', o) m') :
    ∃ i ending m₁, node = some i ∧ catching (normal i) m = .ok ending m₁ ∧
      st'.steps = st.steps + m₁.slice.used ∧ st'.stepLimitHit = st.stepLimitHit ∧
      ((ending = .preempted ∧ st'.preemptions = st.preemptions + 1 ∧ o = .again ∧
        m' = m₁.mapInnermost fun c => c.requeue m₁.config.timeAllotment false) ∨
      (ending ≠ .preempted ∧ st'.preemptions = st.preemptions)) := by
  obtain ⟨i, target, run⟩ := look_bind_eq_ok run
  obtain ⟨ending, m₁, reduced, run⟩ := bind_eq_ok run
  have node : node = some i := by
    cases node with
    | none => cases target
    | some j =>
      cases target
      rfl
  have begin_ : ∀ k : Machine → Eff (Stats × Outcome), ((get : Eff Machine) >>= k) m₁ = k m₁ m₁ :=
    fun _ => rfl
  rw [begin_] at run
  refine ⟨i, ending, m₁, node, reduced, ?_⟩
  cases ending with
  | preempted =>
    cases run
    exact ⟨rfl, rfl, .inl ⟨rfl, rfl, rfl, rfl⟩⟩
  | suspended =>
    obtain ⟨⟨steps, preemptions⟩, hit⟩ := suspendFront_charges run
    exact ⟨steps, hit, .inr ⟨nofun, preemptions⟩⟩
  | done =>
    obtain ⟨⟨steps, preemptions⟩, hit⟩ := dispatch_charges _ _ _ run
    exact ⟨steps, hit, .inr ⟨nofun, preemptions⟩⟩

theorem catching_ok {body : Eff Unit} {ending : Ending} (run : catching body m = .ok ending m') :
    body m = .ok () m' ∨ ∃ stop, body m = .error stop m' := by
  unfold catching at run
  split at run
  · next run' =>
    cases run
    exact .inl run'
  · next run' =>
    cases run
    exact .inr ⟨_, run'⟩
  · next run' =>
    cases run
    exact .inr ⟨_, run'⟩
  · cases run

/-- A turn charges no more steps than there are in a slice, and keeps the configuration. -/
theorem turn_charges (h : ∀ i, (normal i).Moves Heeds) (run : turn normal st m = .ok (st', o) m') :
    st'.steps ≤ st.steps + m.config.sliceSteps ∧ m'.config = m.config := by
  have config : m'.config = m.config :=
    (turn_moves (R := SameConfig) (fun i => (h i).mono fun _ _ heeds => heeds.config) st).ok run
  refine ⟨?_, config⟩
  rcases turn_cases normal st m with ⟨-, idle⟩ | idle | ⟨f, steps, -, slice, turned⟩
  · cases idle.symm.trans run
    exact Nat.le_add_right _ _
  · cases idle.symm.trans run
    exact Nat.le_add_right _ _
  · rw [turned] at run
    obtain ⟨i, ending, m₁, -, reduced, charged, -⟩ := reduceFront_charges run
    have heeds : Heeds { m with slice := .ofSteps steps } m₁ := by
      rcases catching_ok reduced with run | ⟨stop, run⟩
      · exact (h i).ok run
      · exact (h i).error run
    obtain ⟨left, -, spent⟩ := heeds.spends steps rfl
    have le : steps ≤ m.config.sliceSteps := by
      unfold nextSlice? at slice
      split at slice
      · exact (Option.some.inj slice).ge
      · split at slice
        · cases slice
        · exact (Option.some.inj slice) ▸ Nat.min_le_left _ _
    have used : left + m₁.slice.used = steps + 0 := spent
    omega

/-! ## Stays -/

/-- The cell of the decisions of the front frame. No other frame in the queue has it. -/
def frontCell? (m : Machine) : Option Handle := m.front?.map Frame.fingerprint

/-- Frames in the innermost search. -/
def queued (m : Machine) : Nat := (m.computations.head?.map fun c => c.queue.length).getD 0

/-- So many turns in a row, before each of which the same frame is in front. -/
inductive Stay (normal : NodeId → Eff Unit) (st : Stats) (m : Machine) :
    Nat → Stats → Outcome → Machine → Prop
  | first {st' : Stats} {o : Outcome} {m' : Machine} (run : turn normal st m = .ok (st', o) m') :
    Stay normal st m 1 st' o m'
  | next {n : Nat} {st₁ st' : Stats} {o : Outcome} {m₁ m' : Machine}
    (h : Stay normal st m n st₁ .again m₁) (kept : frontCell? m₁ = frontCell? m)
    (run : turn normal st₁ m₁ = .ok (st', o) m') : Stay normal st m (n + 1) st' o m'

theorem reducer_heeds (F : Nat) (i : NodeId) : (Reduction.normalize F i).Moves Heeds :=
  (Reduction.reducer_moves Heeds F).normal i

/-- A stay at the front is charged one slice for each of its turns. A frame whose turn leaves it in
front begins the next turn with another slice, so only a stay of one turn is charged no more than the
steps of one slice. -/
theorem stay_charges (h : Stay (Reduction.normalize F) st m n st' o m') :
    st'.steps ≤ st.steps + n * m.config.sliceSteps ∧ m'.config = m.config := by
  induction h with
  | first run =>
    rw [Nat.one_mul]
    exact turn_charges (reducer_heeds F) run
  | next h _ run ih =>
    obtain ⟨le, config⟩ := ih
    obtain ⟨le', config'⟩ := turn_charges (reducer_heeds F) run
    rw [config] at le'
    rw [Nat.succ_mul]
    exact ⟨by omega, config'.trans config⟩

/-- `x + x ? 10 + (20 + 30)` where `x` is one choice `1 ? 2`. -/
def doubledChoice : List Operation :=
  let p := Prelude.standard
  [.int 1, .int 2, .make p.choose [0, 1], .make p.add [2, 2], .int 10, .int 20, .int 30,
    .make p.add [5, 6], .make p.add [4, 7], .make p.choose [3, 8]]

/-- The frame of `1 + x` takes five steps for its value while two other frames wait, although a slice
has three. The second of its two turns comes after it has followed the choice `x`, which it has decided
already, and so it is not preempted. -/
theorem doubledChoice_stays : ∃ m st m' st' i m'',
    Operation.Run (.ofConfig { Config.fixedPool 64 with sliceSteps := 3 }) m ∧ m.Reachable 9 ∧
      Visits (Reduction.normalize 100) (enter (some 9) m) st .again m' ∧ queued m' = 3 ∧
      Stay (Reduction.normalize 100) st m' 2 st' (.value i) m'' ∧ m'.config.sliceSteps = 3 ∧
      st'.steps = st.steps + 5 ∧ st'.preemptions = st.preemptions := by
  let next : Stats → Machine → Option ((Stats × Outcome) × Machine) := fun st m =>
    returned? (turn (Reduction.normalize 100) st m)
  let overstays : State → Bool := fun s => (next s.stats s.machine).any fun r =>
    s.outcome = .again ∧ r.1.2 = .again ∧ (next r.1.1 r.2).any fun r' =>
      r'.1.2 = .value 12 ∧ queued s.machine = 3 ∧ frontCell? r.2 = frontCell? s.machine ∧
        s.machine.config.sliceSteps = 3 ∧ r'.1.1.steps = s.stats.steps + 5 ∧
        r'.1.1.preemptions = s.stats.preemptions
  have result : (Operation.script (.ofConfig { Config.fixedPool 64 with sliceSteps := 3 })
      doubledChoice).map (fun m => (m.roots.contains (some 9),
        (record (Reduction.normalize 100) (enter (some 9) m) 3).any fun r => overstays r.2)) =
      some (true, true) := by decide +kernel
  obtain ⟨m, ran, found⟩ := Option.map_eq_some_iff.mp result
  obtain ⟨rooted, stays⟩ := Prod.mk.inj found
  have reachable : m.Reachable 9 := .root (List.mem_append_left _ (List.contains_iff_mem.mp rooted))
  obtain ⟨⟨done, st, o, m'⟩, steps, stays⟩ := (Option.any_eq_true _ _).mp stays
  have visits := visits_iff_recorded.mpr ⟨done, record_recorded steps⟩
  obtain ⟨⟨⟨st₁, _⟩, m₁⟩, followed, stays⟩ := (Option.any_eq_true _ _).mp stays
  obtain ⟨rfl, rfl, stays⟩ := of_decide_eq_true stays
  obtain ⟨⟨⟨st', _⟩, m''⟩, value, stays⟩ := (Option.any_eq_true _ _).mp stays
  obtain ⟨rfl, queue, kept, facts⟩ := of_decide_eq_true stays
  exact ⟨m, st, m', st', 12, m'', Operation.Run.start.script ran, reachable, visits, queue,
    (Stay.first (of_returned followed)).next kept (of_returned value), facts⟩

/-- So the steps of one slice do not bound what a frame is charged while it stays in front of others. -/
theorem follower_overstays : ¬ ∀ (c : Config) (m : Machine) (root : NodeId) (fuel n : Nat) (st st' : Stats)
    (o : Outcome) (m' m'' : Machine), c.Valid → Operation.Run (.ofConfig c) m → m.Reachable root →
      Visits (Reduction.normalize fuel) (enter (some root) m) st .again m' → 1 < queued m' →
        Stay (Reduction.normalize fuel) st m' n st' o m'' → st'.steps ≤ st.steps + c.sliceSteps := by
  intro bounded
  obtain ⟨m, st, m', st', i, m'', run, reachable, visits, queue, stay, -, charged, -⟩ :=
    doubledChoice_stays
  have le := bounded _ m 9 100 2 st st' (.value i) m' m'' (by decide) run reachable visits
    (by omega) stay
  have slice : st'.steps ≤ st.steps + 3 := le
  omega

theorem stay_charges_doubledChoice : ∃ m st m' st' o m'',
    Operation.Run (.ofConfig { Config.fixedPool 64 with sliceSteps := 3 }) m ∧
      Visits (Reduction.normalize 100) (enter (some 9) m) st .again m' ∧
      Stay (Reduction.normalize 100) st m' 2 st' o m'' ∧ st.steps + 3 < st'.steps ∧
      st'.steps ≤ st.steps + 2 * m'.config.sliceSteps := by
  obtain ⟨m, st, m', st', i, m'', run, -, visits, -, stay, -, charged, -⟩ := doubledChoice_stays
  exact ⟨m, st, m', st', .value i, m'', run, visits, stay, by omega, (stay_charges stay).1⟩

end Schedule

end ChoiceGraph
