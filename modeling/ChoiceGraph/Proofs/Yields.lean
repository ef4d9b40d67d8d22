import ChoiceGraph.Proofs.Attempts
import ChoiceGraph.Proofs.NormalForms

/-! # Searches yield normal forms

A search starts without bindings, so that it is secure, and whatever its turns do carries it along. A
value that it hands out has just been normalized. Therefore it is a variable or a constructor, and as
long as variables are bound to variables of their type, nothing below it is left to be reduced. -/
namespace ChoiceGraph

namespace Machine

variable {m m' : Machine}

theorem frontConstraints_eq (m : Machine) : m.frontConstraints? = m.views.head?.map View.bound := by
  unfold frontConstraints? Computation.front?
  cases hc : m.computations with
  | nil => rw [views_nil hc]; rfl
  | cons c rest =>
    rw [views_cons hc]
    cases hq : c.queue with
    | nil => simp [Computation.views, hq]
    | cons f frames => simp [Computation.views_cons hq, Computation.view, hq]

theorem secure_of_outside (outside : m.computations = []) : m.Secure := by
  intro v hv
  rw [views_nil outside] at hv
  exact absurd hv List.not_mem_nil

theorem uniform_of_outside (carries : m.Carries m') (outside : m.computations = []) :
    m.Uniform m' := by
  intro s hs
  have search := carries.search
  rw [outside] at search
  have after : m'.computations = [] := by
    generalize m'.computations = searches at search
    cases search
    rfl
  rw [frontConstraints_eq, views_nil after] at hs
  cases hs

/-- A secure search that has made no variable of a type. -/
structure Tracks (start m : Machine) : Prop where
  sound : m.Sound
  secure : m.Secure
  types : start.graph.KeepsTypes m.graph

end Machine

namespace Schedule

open Eff Machine

variable {m m' start : Machine} {ρ : Rank} {st st' : Stats} {o : Outcome} {F : Nat} {i : NodeId}
  {r : Stats × Outcome} {normal : NodeId → Eff Unit}

/-- A turn ends the search, or it reduces the node of the front frame and handles what comes of it. -/
theorem turn_handles (sound : Reduces normal) (h : m.Inv [] ρ) (run : turn normal st m = .ok r m') :
    (m' = m ∧ r.2 = .over) ∨ ∃ i slice m₁, m.Live [] i ∧ Handles m₁ i r m' ∧
      (normal i { m with slice := slice } = .ok () m₁ ∨
        (∃ stop, normal i { m with slice := slice } = .error stop m₁) ∧ ∀ j, r.2 ≠ .value j) := by
  rcases turn_cases normal st m with ⟨-, over_⟩ | over_ | ⟨f, steps, front, -, starts⟩
  · cases over_.symm.trans run
    exact .inl ⟨rfl, rfl⟩
  · cases over_.symm.trans run
    exact .inl ⟨rfl, rfl⟩
  obtain ⟨c, hc, hf⟩ := Option.bind_eq_some_iff.mp front
  have mem : c ∈ m.computations := List.mem_of_head? hc
  obtain ⟨i, node, live⟩ := (h.search mem).nodes f (List.mem_of_head? hf)
  have h₀ := (quiet_count (s := .below (ρ i)) h m.nextId (.ofSteps steps)).inv
  have rooted : some i ∈ m.rootSet := List.mem_append_right _ (List.mem_flatMap.mpr
    ⟨c, mem, Computation.mem_roots.mpr ⟨f, List.mem_of_head? hf, .inl node⟩⟩)
  rw [starts, node] at run
  obtain ⟨_, target, run⟩ := look_bind_eq_ok run
  cases target
  obtain ⟨ending, m₁, caught, run⟩ := bind_eq_ok run
  obtain ⟨_, _, here, run⟩ := bind_eq_ok run
  cases here
  have kept := sound { m with slice := .ofSteps steps } ρ i h₀ live
  unfold catching at caught
  cases reduced : normal i { m with slice := .ofSteps steps } with
  | ok _ m₂ =>
    rw [reduced] at caught
    cases caught
    obtain ⟨ρ₁, ev, -⟩ := kept.ok reduced
    have live₁ : m₁.Live [] i := live_root (ev.rootSet rooted)
    exact .inr ⟨i, .ofSteps steps, m₁, live, (dispatch_meets _ i _ m₁ ev.inv live₁
      (Nat.lt_succ_of_le Graph.depth_le)).ok run, .inl reduced⟩
  | error stop m₂ =>
    unfold Keeps Meets at kept
    rw [reduced] at caught kept
    cases stop with
    | preempted =>
      cases caught
      obtain ⟨ρ₁, ev⟩ := kept
      obtain ⟨_, m₃, moved, run⟩ := bind_eq_ok run
      cases run
      exact .inr ⟨i, .ofSteps steps, m₁, live, ((requeue_meets (R := fun _ => True) ev.inv false).ok
        moved).handles _ i, .inr ⟨⟨_, reduced⟩, nofun⟩⟩
    | suspended id =>
      cases caught
      obtain ⟨ρ₁, ev⟩ := kept
      obtain ⟨handles, waits⟩ := (suspendFront_meets ev.inv i).ok run
      exact .inr ⟨i, .ofSteps steps, m₁, live, handles, .inr ⟨⟨_, reduced⟩, waits⟩⟩
    | fault => cases caught
    | fatal => cases caught
    | refused => cases caught
    | outOfFuel => cases caught

/-- What a turn leaves is tracked, as the reduction carries the search along. -/
theorem Handles.tracks {m₁ : Machine} (track : start.Tracks m) (carries : m.Carries m₁)
    (handles : Handles m₁ i r m') : start.Tracks m' := by
  refine ⟨handles.sound, fun v hv => ?_, ?_⟩
  · obtain ⟨u, hu, bound⟩ := handles.rearranged.bound hv
    rw [bound, handles.graph]
    exact carries.secure track.secure u hu
  · rw [handles.graph]
    exact track.types.trans carries.types

theorem normalize_carries (h : m.Inv [] ρ) (live : m.Live [] i) (secure : m.Secure) {slice : Slice}
    {m₁ : Machine} (run : Reduction.normalize F i { m with slice := slice } = .ok () m₁ ∨
      ∃ stop, Reduction.normalize F i { m with slice := slice } = .error stop m₁) :
    m.Carries m₁ := by
  have sliced := carries_sliced m slice
  have h₀ := (quiet_count (s := .below (ρ i)) h m.nextId slice).inv
  have tends := (Reduction.reducer_tame F).normal { m with slice := slice } ρ i h₀ live
    (sliced.secure secure)
  rcases run with run | ⟨stop, run⟩
  · exact sliced.trans (tends.ok run).1
  · exact sliced.trans (tends.error run)

theorem tracks_turn (track : start.Tracks m) (run : turn (Reduction.normalize F) st m = .ok r m') :
    start.Tracks m' := by
  obtain ⟨ρ, h⟩ := track.sound
  rcases turn_handles (Reduction.reducer_sound F).normal h run with
    ⟨rfl, -⟩ | ⟨i, slice, m₁, live, handles, reduced⟩
  · exact track
  · exact handles.tracks track (normalize_carries h live track.secure (reduced.imp_right And.left))

theorem Visits.tracks (visits : Visits (Reduction.normalize F) start st o m) (sound : start.Sound)
    (secure : start.Secure) : start.Tracks m := by
  induction visits with
  | enter => exact ⟨sound, secure, .refl _⟩
  | turn _ run ih => exact tracks_turn ih run
  | @drop st i m visits ih =>
    have same := dropFront_views ih.sound
    have graph := mapInnermost_graph (m := m) Computation.dropFront
    obtain ⟨ρ, h⟩ := ih.sound
    refine ⟨⟨ρ, h.mapInnermost fun _ _ hc => hc.dropFront⟩, fun v hv => ?_, graph ▸ ih.types⟩
    rw [graph]
    rw [same] at hv
    exact ih.secure v (List.mem_of_mem_tail hv)

/-- Variables that are of one type in the machine a search started on are so in all that follow. -/
theorem uniform_turn {m₁ : Machine} (track : start.Tracks m) (handles : Handles m₁ i r m')
    {j : NodeId} (value : r.2 = .value j) (uniform : start.Uniform m') : m.Uniform m₁ := by
  intro s hs x y i j t u bound hx hy
  have front : m'.frontConstraints? = some s := by
    rw [frontConstraints_eq, (handles.value _ value).views, ← frontConstraints_eq]
    exact hs
  exact uniform s front x y i j t u bound (track.types i _ t hx rfl) (track.types j _ u hy rfl)

/-- A node that has been normalized, and has come to a variable or a constructor, is a value. -/
theorem value_of_normalized {m₁ : Machine} {p j : NodeId} {c : Content} (h : m.Inv [] ρ)
    (live : m.Live [] p) (secure : m.Secure) (run : Reduction.normalize F p m = .ok () m₁)
    (leads : m₁.graph.Leads p j) (hc : m₁.graph.content? j = some c)
    (settled : c.tag = .free ∨ ∃ index, c.tag = .constructor index) (uniform : m.Uniform m₁) :
    m₁.graph.Value p := by
  obtain ⟨-, normal⟩ := ((Reduction.reducer_tame F).normal m ρ p h live secure).ok run
  obtain ⟨ρ₁, ev, -⟩ := ((Reduction.reducer_sound F).normal m ρ p h live).ok run
  have live₁ : m₁.Live [] p := ev.live (h.steady (s := .below (ρ p)) live le_rfl)
  refine (normal.resolve_left ?_).2 uniform
  rintro ⟨x, toward, spoiled⟩
  have tag : c.tag ≠ .forward := by
    rcases settled with tag | ⟨index, tag⟩ <;> rw [tag] <;> nofun
  rcases Reduction.spoiled_leads ev.inv live₁ toward spoiled leads hc tag with final | final <;>
    rcases settled with tag | ⟨index, tag⟩ <;> cases final.symm.trans tag

/-- What a search hands out is in normal form, as long as variables are bound to variables of their
type. -/
theorem Visits.value_normal (visits : Visits (Reduction.normalize F) start st (.value i) m')
    (sound : start.Sound) (secure : start.Secure) (uniform : start.Uniform m') :
    (∃ c, m'.graph.content? i = some c ∧ (c.tag = .free ∨ ∃ index, c.tag = .constructor index)) ∧
      m'.graph.Value i := by
  cases visits with
  | @turn st₀ _ _ m₀ _ visits run =>
    have track := visits.tracks sound secure
    obtain ⟨ρ, h⟩ := track.sound
    rcases turn_handles (Reduction.reducer_sound F).normal h run with
      ⟨-, none⟩ | ⟨p, slice, m₁, live, handles, reduced⟩
    · cases none
    have same := uniform_turn track handles rfl uniform
    obtain ⟨-, leads, -, c, hc, settled⟩ := handles.value i rfl
    rw [handles.graph]
    refine ⟨⟨c, hc, settled⟩, ?_⟩
    rcases reduced with reduced | ⟨-, none⟩
    · have h₀ := (quiet_count (s := .below (ρ p)) h m₀.nextId slice).inv
      have value := value_of_normalized h₀ live ((carries_sliced m₀ slice).secure track.secure)
        reduced leads hc settled same
      exact value.leads leads
    · exact absurd rfl (none i)

/-- Only normal forms are yielded. What a search hands out for a node is a variable or a constructor,
and constructors and indirections lead from it to no failure, no choice and no call, if the frame has
bound variables of one type only. The same holds for a node that is normalized to a constructor. -/
theorem values_are_normal {config : Config} {fresh m : Machine} {root : NodeId}
    (new : Machine.new config = .ok fresh) (run : Operation.Run fresh m)
    (reachable : m.Reachable root) (fuel : Nat) :
    (∀ st i m', Visits (Reduction.normalize fuel) (enter (some root) m) st (.value i) m' →
      m.Uniform m' → (∃ c, m'.graph.content? i = some c ∧
        (c.tag = .free ∨ ∃ index, c.tag = .constructor index)) ∧ m'.graph.Value i) ∧
    ∀ m' j c index, Machine.normalize fuel root m = .ok () m' → m'.graph.Leads root j →
      m'.graph.content? j = some c → c.tag = .constructor index → m'.graph.Value root := by
  obtain ⟨ρ, h⟩ := run.sound new
  have live := live_iff.mpr reachable
  have outside := run.outside new
  constructor
  · intro st i m' visits uniform
    refine visits.value_normal ⟨ρ, enter_sound h live⟩ (fun v hv => ?_) uniform
    have single : v = ⟨.empty, .empty⟩ := List.mem_singleton.mp hv
    subst single
    exact ConstraintStore.empty_fastened _
  · intro m' j c index normalized leads hc tag
    obtain ⟨m₁, ran, rfl⟩ := withRoots_outcome (r := .ok ()) normalized
    have secure : (m.push [some root]).Secure := secure_of_outside outside
    have h₀ := h.pushed live
    obtain ⟨carries, -⟩ :=
      ((Reduction.reducer_tame fuel).normal _ ρ root h₀ (live_pushed live) secure).ok ran
    show m₁.graph.Value root
    exact value_of_normalized h₀ (live_pushed live) secure ran leads hc (.inr ⟨index, tag⟩)
      (uniform_of_outside carries outside)

/-- `x =:= y &> (x, y)` for variables of a type with one constructor, of which only the second is
forced. -/
def acceptedField : List Operation :=
  let p := Prelude.standard
  [.free (some p.unitType), .free (some p.unitType), .make p.ensureNotFree [1], .make p.pair [0, 2],
    .make p.unify [0, 1], .make p.guard [4, 3]]

/-- The first field has been accepted when the second one narrows both variables. -/
theorem values_are_normal_acceptedField : ∃ fresh m, Machine.new (.fixedPool 64) = .ok fresh ∧
    Operation.Run fresh m ∧ m.Reachable 5 ∧
    (∃ st i m', Visits (Reduction.normalize 100) (enter (some 5) m) st (.value i) m' ∧
      m.Uniform m' ∧ (∃ v ∈ m'.views, v.bound.Bound 0 1) ∧ m'.graph.Value i) ∧
    ∃ m', Machine.normalize 100 5 m = .ok () m' ∧ m'.graph.Value 5 := by
  let start : Machine := .ofConfig (.fixedPool 64)
  let bound : View → Bool := fun v =>
    decide ((0, ⟨0, 1, false⟩) ∈ v.bound.bindings ∧ (1, ⟨1, 0, false⟩) ∈ v.bound.bindings)
  let forwarded : Machine → Bool := fun m => (returned? (Machine.normalize 100 5 m)).any fun r =>
    r.2.graph.content? 5 = some ⟨.forward, Builtin.forward, 0, .links [3]⟩ ∧
      (r.2.graph.content? 3).map Content.tag = some (.constructor 0)
  let facts : Machine → Bool × Bool × Bool × Bool := fun m => (m.roots.contains (some 5),
    m.variableTypes.all (· = Prelude.standard.unitType),
    (takeTurns (Reduction.normalize 100) recorder 100 {} [] (enter (some 5) m)).gathered.any bound,
    forwarded m)
  have result : (Operation.script start acceptedField).map facts = some (true, true, true, true) := by
    decide +kernel
  obtain ⟨m, ran, facts⟩ := Option.map_eq_some_iff.mp result
  obtain ⟨rooted, facts⟩ := Prod.mk.inj facts
  obtain ⟨alike, facts⟩ := Prod.mk.inj facts
  obtain ⟨gathered, ended⟩ := Prod.mk.inj facts
  have run := Operation.Run.start.script ran
  have reachable := Operation.reachable_of_contains rooted
  have new : Machine.new (.fixedPool 64) = .ok start := rfl
  obtain ⟨yields, normalizes⟩ := values_are_normal new run reachable 100
  refine ⟨start, m, new, run, reachable, ?_, ?_⟩
  · obtain ⟨v, hv, bound⟩ := List.any_eq_true.mp gathered
    obtain ⟨b01, b10⟩ := of_decide_eq_true bound
    obtain ⟨st, i, m', visits, hv⟩ := gathered_views 100 v hv
    -- all variables of a type in this graph are of the same type
    have unit : ∀ i x t, m.graph.content? i = some (freeContent x (some t)) →
        t = Prelude.standard.unitType := by
      intro i x t hc
      exact of_decide_eq_true (List.all_eq_true.mp alike t (TermGraph.mem_variableTypes hc rfl))
    have uniform : m.Uniform m' := fun _ _ x y i j t u _ hx hy =>
      (unit i x t hx).trans (unit j y u hy).symm
    exact ⟨st, i, m', visits, uniform, ⟨v, hv, .single ⟨0, 1, b01, b10⟩⟩, (yields st i m' visits uniform).2⟩
  · obtain ⟨⟨_, m'⟩, normalized, ended⟩ := (Option.any_eq_true _ _).mp ended
    have normalized := of_returned normalized
    obtain ⟨forward, tag⟩ := of_decide_eq_true ended
    obtain ⟨c, hc, tag⟩ := Option.map_eq_some_iff.mp tag
    exact ⟨m', normalized, normalizes m' 3 c 0 normalized (.step forward (.refl 3)) hc tag⟩

end Schedule

end ChoiceGraph
