import ChoiceGraph.Proofs.Values

/-! # Bindings and the graph

A store is fastened when each of its bindings is recorded for both variables, at anchors of them. A
search is secure when the stores of all its frames are fastened. Whatever a reduction does, whether it
returns or stops, carries the search along: a secure one stays secure. If it has bound variables of one
type only, nodes that it does not rewrite stay values. -/
namespace ChoiceGraph

namespace ConstraintStore

variable {s s' : ConstraintStore} {g g' : Graph} {x y : BoundVar}

/-- Normal bindings are recorded in both directions, at anchors of the variables. -/
def Fastened (s : ConstraintStore) (g : Graph) : Prop :=
  ∀ y b, (y, b) ∈ s.bindings → b.isLazy = false →
    g.Anchors y b.bound ∧ ∃ z, (z, ⟨b.partner, b.bound, false⟩) ∈ s.bindings

theorem Fastened.carry (h : s.Fastened g)
    (kept : ∀ y i, i ∈ s.nodes → g.Anchors y i → g'.Anchors y i) : s.Fastened g' := by
  intro y b hb normal
  obtain ⟨anchors, back⟩ := h y b hb normal
  exact ⟨kept y b.bound (List.mem_flatMap.mpr ⟨_, hb, List.mem_cons_self⟩) anchors, back⟩

theorem Fastened.congr (h : s.Fastened g) (same : s'.bindings = s.bindings) : s'.Fastened g := by
  unfold Fastened
  rw [same]
  exact h

theorem Fastened.bind (h : s.Fastened g) (hx : g.Anchors x.id x.node)
    (hy : g.Anchors y.id y.node) : (s.bind x y false).Fastened g := by
  have old : s.bindings ⊆ (s.bind x y false).bindings := bind_extends.bindings.subset
  intro z b hb normal
  rcases List.mem_append.mp hb with hb | hb
  · rcases List.mem_append.mp hb with hb | hb
    · obtain ⟨anchors, w, back⟩ := h z b hb normal
      exact ⟨anchors, w, old back⟩
    · cases List.mem_singleton.mp hb
      exact ⟨hx, y.id, List.mem_append_right _ (List.mem_singleton.mpr rfl)⟩
  · cases List.mem_singleton.mp hb
    refine ⟨hy, x.id, List.mem_append_left _ (List.mem_append_right _ ?_)⟩
    exact List.mem_singleton.mpr rfl

theorem Fastened.binds {u : VarId} {b : Binding} (h : s.Fastened g) (hb : (u, b) ∈ s.bindings)
    (normal : b.isLazy = false) : ∃ z, s.Binds u z ∧ g.Anchors z b.partner := by
  obtain ⟨-, z, back⟩ := h u b hb normal
  obtain ⟨bound, partner, isLazy⟩ := b
  cases normal
  exact ⟨z, ⟨bound, partner, hb, back⟩, (h z _ back rfl).1⟩

theorem empty_fastened (g : Graph) : empty.Fastened g := fun _ _ hb => absurd hb List.not_mem_nil

end ConstraintStore

namespace Machine

variable {m m' m'' : Machine} {held : List NodeId} {ρ ρ' : Rank} {i x : NodeId} {y : VarId}
  {s : ConstraintStore} {v : View} {q q' : ℚ} {c : Content}

/-! ## The store in front -/

theorem views_rooted (hv : v ∈ m.views) (hi : i ∈ v.bound.nodes) : some i ∈ m.rootSet := by
  cases hc : m.computations with
  | nil =>
    rw [views_nil hc] at hv
    exact absurd hv List.not_mem_nil
  | cons c rest =>
    rw [views_cons hc] at hv
    obtain ⟨f, hf, rfl⟩ := List.mem_map.mp hv
    unfold rootSet
    rw [hc, List.flatMap_cons]
    exact List.mem_append_right _ (List.mem_append_left _ (Computation.mem_roots.mpr ⟨f, hf, .inr hi⟩))

theorem view_of_front (h : m.frontConstraints? = some s) : ∃ v ∈ m.views, v.bound = s := by
  obtain ⟨c, hc, h⟩ := Option.bind_eq_some_iff.mp h
  obtain ⟨f, hf, rfl⟩ := Option.map_eq_some_iff.mp h
  obtain ⟨rest, hc⟩ := List.head?_eq_some_iff.mp hc
  refine ⟨c.view f, ?_, rfl⟩
  rw [views_cons hc]
  exact List.mem_map_of_mem (List.mem_of_head? hf)

theorem SearchExtends.front (h : SearchExtends m.computations m'.computations)
    (hs : m.frontConstraints? = some s) : ∃ s', m'.frontConstraints? = some s' ∧ s.Extends s' := by
  obtain ⟨c, hc, hs⟩ := Option.bind_eq_some_iff.mp hs
  obtain ⟨f, hf, rfl⟩ := Option.map_eq_some_iff.mp hs
  obtain ⟨rest, hc⟩ := List.head?_eq_some_iff.mp hc
  rw [hc] at h
  cases hc' : m'.computations with
  | nil =>
    rw [hc'] at h
    cases h
  | cons c' rest' =>
    rw [hc'] at h
    cases h with
    | inner h =>
      have front := h.front
      rw [show c.queue.head? = some f from hf, Option.map_some] at front
      obtain ⟨f', hf', -⟩ := Option.map_eq_some_iff.mp front
      refine ⟨c'.constraintsOf f', ?_, h.store f hf f' hf'⟩
      simp only [frontConstraints?, hc', List.head?_cons, Option.bind_some, Computation.front?, hf',
        Option.map_some]

/-- Constraints are added to the store in front. -/
theorem constrain_views (h : m.Inv held ρ) (f : ConstraintStore → ConstraintStore)
    (hv : v ∈ (m.mapInnermost fun c => c.updateConstraints 0 f).views) :
    v ∈ m.views ∨ ∃ u ∈ m.views, v = ⟨u.decided, f u.bound⟩ := by
  cases hc : m.computations with
  | nil =>
    simp only [mapInnermost, hc] at hv
    exact .inl hv
  | cons c rest =>
    have changed : (m.mapInnermost fun c => c.updateConstraints 0 f).computations =
        c.updateConstraints 0 f :: rest := by simp only [mapInnermost, hc]
    rw [views_cons changed] at hv
    rw [views_cons hc]
    cases hq : c.queue with
    | nil =>
      have same : c.updateConstraints 0 f = c := by simp [Computation.updateConstraints, hq]
      rw [same] at hv
      exact .inl hv
    | cons front fs =>
      obtain ⟨front', u⟩ :=
        Computation.updateConstraints_updated hq (h.counted c (hc ▸ List.mem_cons_self)) f
      rw [Computation.views_cons u.queue] at hv
      rw [Computation.views_cons hq]
      rcases List.mem_cons.mp hv with rfl | hv
      · obtain ⟨_, rfl⟩ := u.frame
        exact .inr ⟨_, List.mem_cons_self, congrArg₂ View.mk (by
          simp only [Computation.view, Computation.fingerprintOf, u.fingerprints]) u.store⟩
      · obtain ⟨g, hg, rfl⟩ := List.mem_map.mp hv
        refine .inl (List.mem_cons_of_mem _ (List.mem_map.mpr ⟨g, hg, ?_⟩))
        simp only [Computation.view, Computation.fingerprintOf, u.fingerprints, u.others g hg]

/-! ## Carrying a search along -/

/-- The stores of all frames of the innermost search are fastened. -/
def Secure (m : Machine) : Prop := ∀ v ∈ m.views, v.bound.Fastened m.graph

/-- What was rooted is still rooted, and anchors what it did. -/
structure Carries (m m' : Machine) : Prop where
  signature : m'.signature = m.signature
  roots : m'.roots = m.roots
  search : SearchExtends m.computations m'.computations
  types : m.graph.KeepsTypes m'.graph
  anchors : ∀ y i, some i ∈ m.rootSet → m.graph.Anchors y i → m'.graph.Anchors y i
  secure : m.Secure → m'.Secure

theorem Carries.refl (m : Machine) : m.Carries m :=
  ⟨rfl, rfl, .refl _, .refl _, fun _ _ _ h => h, fun h => h⟩

theorem Carries.rooted (h : m.Carries m') (hi : some i ∈ m.rootSet) : some i ∈ m'.rootSet := by
  unfold rootSet at *
  rw [h.roots]
  exact (List.mem_append.mp hi).elim (List.mem_append_left _)
    fun hi => List.mem_append_right _ (h.search.roots hi)

theorem Carries.trans (h : m.Carries m') (k : m'.Carries m'') : m.Carries m'' where
  signature := k.signature.trans h.signature
  roots := k.roots.trans h.roots
  search := h.search.trans k.search
  types := h.types.trans k.types
  anchors y i hi anchors := k.anchors y i (h.rooted hi) (h.anchors y i hi anchors)
  secure secure := k.secure (h.secure secure)

/-- A search is carried along as long as its views and its anchors stay. -/
theorem carries_of_bare (signature : m'.signature = m.signature) (roots : m'.roots = m.roots)
    (search : SearchExtends m.computations m'.computations) (bare : m.Bare m')
    (anchors : ∀ y i, m.Live [] i → m.graph.Anchors y i → m'.graph.Anchors y i) :
    m.Carries m' where
  signature := signature
  roots := roots
  search := search
  types := bare.types
  anchors y i hi := anchors y i (live_root hi)
  secure secure v hv := by
    rw [bare.views] at hv
    exact (secure v hv).carry fun y i hi => anchors y i (live_root (views_rooted hv hi))

theorem Edited.carries (e : m.Edited x m')
    (anchors : ∀ y i, m.Live [] i → m.graph.Anchors y i → m'.graph.Anchors y i) : m.Carries m' :=
  carries_of_bare e.signature e.roots e.search e.bare anchors

theorem carries_sliced (m : Machine) (slice : Slice) : m.Carries { m with slice := slice } :=
  carries_of_bare rfl rfl (.refl _) ⟨rfl, .refl _⟩ fun _ _ _ h => h

/-- The front frame gains constraints that keep its store fastened. -/
theorem carries_constrained (h : m.Inv [] ρ) {f : ConstraintStore → ConstraintStore}
    (grows : ∀ s : ConstraintStore, s.Extends (f s))
    (nodes : ∀ (s : ConstraintStore) (i : NodeId), i ∈ (f s).nodes → i ∈ s.nodes ∨ m.Live [] i)
    (fastened : ∀ s : ConstraintStore, s.Fastened m.graph → (f s).Fastened m.graph) :
    m.Carries (m.mapInnermost fun c => c.updateConstraints 0 f) := by
  have graph := mapInnermost_graph (m := m) fun c => c.updateConstraints 0 f
  have ev := h.update (s := .below 0) grows nodes
  refine ⟨ev.signature, ev.roots, ev.search, ?_, fun y i _ anchors => ?_, fun secure v hv => ?_⟩
  · rw [graph]
    exact .refl _
  · rw [graph]
    exact anchors
  · rw [graph]
    rcases constrain_views h f hv with old | ⟨u, old, rfl⟩
    · exact secure v old
    · exact fastened _ (secure u old)

/-! ## Variables of one type -/

/-- Variables that the front frame of `m'` has bound to each other are of the same type in `m`. -/
def Uniform (m m' : Machine) : Prop :=
  ∀ s, m'.frontConstraints? = some s → ∀ x y i j t u, s.Bound x y →
    m.graph.content? i = some (Eff.freeContent x (some t)) →
    m.graph.content? j = some (Eff.freeContent y (some u)) → t = u

theorem Uniform.before (h : m.Uniform m'') (c : m'.Carries m'') : m.Uniform m' := by
  intro s hs x y i j t u bound
  obtain ⟨s', hs', grows⟩ := c.search.front hs
  exact h s' hs' x y i j t u (bound.mono grows)

theorem Uniform.after (h : m.Uniform m'') (c : m.Carries m') : m'.Uniform m'' :=
  fun s hs x y i j t u bound hx hy =>
    h s hs x y i j t u bound (c.types i _ t hx rfl) (c.types j _ u hy rfl)

/-- If bound variables are of one type, what reductions up to a rank do not rewrite stays a value. -/
def Calm (m : Machine) (q : ℚ) (ρ : Rank) (m' : Machine) : Prop :=
  m.Uniform m' → ∀ i, m.Steady (.below q) ρ i → m.graph.Value i → m'.graph.Value i

theorem Calm.within (h : m.Calm q ρ m') (le : q ≤ q') : m.Calm q' ρ m' :=
  fun uniform i steady => h uniform i (steady.within (Scope.below_within le))

theorem Calm.trans (h : m.Calm q ρ m') (ev : m.Evolves (.below q) ρ m' [] ρ') (c : m.Carries m')
    (c' : m'.Carries m'') (k : m'.Calm q ρ' m'') : m.Calm q ρ m'' :=
  fun uniform i steady value =>
    k (uniform.after c) i (ev.steady steady) (h (uniform.before c') i steady value)

theorem calm_of_kept (kept : ∀ i, m.Live [] i → m.graph.Value i → m'.graph.Value i) :
    m.Calm q ρ m' := fun _ i steady => kept i steady.live

theorem Calm.refl : m.Calm q ρ m := calm_of_kept fun _ _ h => h

/-- An edit of a call. -/
theorem Edited.calm (e : m.Edited x m') (hc : m.graph.content? x = some c) (call : c.IsCall) :
    m.Calm q ρ m' :=
  calm_of_kept fun _ live value => e.value (Graph.not_value_of_call hc call) live value

theorem Edited.carries_call (e : m.Edited x m') (hc : m.graph.content? x = some c)
    (call : c.IsCall) : m.Carries m' :=
  e.carries fun _ _ live anchors => e.anchors (fun _ => Graph.not_anchors_of_call hc call) live anchors

end Machine

namespace Eff

open Machine

variable {α β : Type} {e : Eff α} {f : α → Eff β} {m : Machine} {a : α} {ρ : Rank}
  {P P' : α → Machine → Prop} {Q : β → Machine → Prop}

/-- However it ends, the effect carries the search along; if it returns, the condition holds. -/
def Tends (e : Eff α) (m : Machine) (P : α → Machine → Prop) : Prop :=
  match e m with
  | .ok a m' => m.Carries m' ∧ P a m'
  | .error _ m' => m.Carries m'

theorem Tends.ok {m' : Machine} (h : e.Tends m P) (run : e m = .ok a m') :
    m.Carries m' ∧ P a m' := by
  unfold Tends at h
  rwa [run] at h

theorem Tends.error {stop : Stop} {m' : Machine} (h : e.Tends m P) (run : e m = .error stop m') :
    m.Carries m' := by
  unfold Tends at h
  rwa [run] at h

theorem Tends.mono (h : e.Tends m P) (le : ∀ a m', e m = .ok a m' → m.Carries m' → P a m' → P' a m') :
    e.Tends m P' := by
  unfold Tends
  cases run : e m with
  | ok a m' => exact ⟨(h.ok run).1, le a m' run (h.ok run).1 (h.ok run).2⟩
  | error stop m' => exact h.error run

theorem Tends.bind (h : e.Tends m P)
    (hf : ∀ a m', e m = .ok a m' → m.Carries m' → P a m' → (f a).Tends m' Q) :
    (e >>= f).Tends m Q := by
  unfold Tends
  cases run : e m with
  | ok a m' =>
    rw [bind_ok run]
    obtain ⟨carries, p⟩ := h.ok run
    have rest := hf a m' run carries p
    cases run' : f a m' with
    | ok b m'' => exact ⟨carries.trans (rest.ok run').1, (rest.ok run').2⟩
    | error stop m'' => exact carries.trans (rest.error run')
  | error stop m' =>
    rw [bind_error run]
    exact h.error run

theorem tends_pure (h : P a m) : (pure a : Eff α).Tends m P := ⟨.refl m, h⟩

theorem tends_throw (stop : Stop) : (throw stop : Eff α).Tends m P := Carries.refl m

theorem tends_look_bind {r : Machine → Except Fault α} (h : ∀ a, r m = .ok a → (f a).Tends m Q) :
    (look r >>= f).Tends m Q := by
  cases value : r m with
  | ok a =>
    unfold Tends
    rw [bind_ok (look_ok value)]
    exact h a value
  | error fault =>
    have stopped : Eff.look r m = .error (.fault fault) m := by
      unfold Eff.look
      rw [value]
    unfold Tends
    rw [bind_error stopped]
    exact .refl m

theorem tends_read {r : Machine → Except Fault α} (run : r m = .ok a) (h : (f a).Tends m Q) :
    (look r >>= f).Tends m Q :=
  tends_look_bind fun b value => by
    cases run.symm.trans value
    exact h

theorem tends_get {k : Machine → Eff β} (h : (k m).Tends m Q) :
    ((get : Eff Machine) >>= k).Tends m Q := h

/-- An edit whose node is no anchor. -/
theorem Moves.tends {x : NodeId} (h : e.Moves (Edits x)) (inv : m.Inv [] ρ) (live : m.Live [] x)
    (loose : ∀ y, ¬ m.graph.Anchors y x) : e.Tends m fun _ m' => m.Edited x m' := by
  have carries : ∀ {m' : Machine}, m.Edited x m' → m.Carries m' := fun e =>
    e.carries fun _ _ live anchors => e.anchors loose live anchors
  unfold Tends
  cases run : e m with
  | ok a m' =>
    have edited := h.ok run ρ inv live
    exact ⟨carries edited, edited⟩
  | error stop m' => exact carries (h.error run ρ inv live)

end Eff

namespace Reduction

open Eff Machine

variable {m : Machine} {ρ : Rank} {i x y : NodeId} {c d : Content} {z : VarId}

theorem tick_tends : tick.Tends m fun _ m' => m' = { m with slice := m.slice.spend } := by
  unfold Tends tick
  cases m.slice.isOver with
  | true => exact .refl m
  | false => exact ⟨carries_sliced m _, rfl⟩

/-! ## Binding variables -/

/-- Two variables are bound at their own nodes. -/
theorem bindVars_tends (h : m.Inv [] ρ) (hx : m.Live [] x) (hy : m.Live [] y)
    (cx : m.graph.content? x = some c) (cy : m.graph.content? y = some d) (tx : c.tag = .free)
    (ty : d.tag = .free) : (bindVars x y false).Tends m fun _ m' => m'.graph = m.graph := by
  unfold bindVars
  refine tends_read (TermGraph.aux_content cx) (tends_read (TermGraph.aux_content cy) ?_)
  refine tends_get ?_
  split
  · have carries := carries_constrained h (f := fun s => s.bind ⟨c.aux, x⟩ ⟨d.aux, y⟩ false)
      (fun _ => ConstraintStore.bind_extends) (fun s i hi => by
        rcases ConstraintStore.nodes_bind hi with hi | rfl | rfl
        · exact .inl hi
        · exact .inr hx
        · exact .inr hy) fun s fastened => fastened.bind (.free cx tx rfl) (.free cy ty rfl)
    exact ⟨carries, mapInnermost_graph _⟩
  · exact tends_pure rfl

/-- A node that is recognised as a variable leads to the variable, or to the choice that it was
narrowed to. -/
theorem read_variable (h : m.Inv [] ρ) (live : m.Live [] i)
    (run : m.variableOf i = .ok (some z)) : ∃ j c, m.graph.Leads i j ∧
      m.graph.content? j = some c ∧ c.aux = z ∧
      (c.tag = .free ∨ c.tag = .choice ∧ c.symbol = Builtin.narrowed) := by
  obtain ⟨j, c, skip, leads, hc, -⟩ := h.read_skip live
  have fits := h.fitsAt (live.leads leads) hc
  obtain ⟨slots, node, -⟩ := TermGraph.node_content (t := m.toTermGraph) hc
  simp only [TermGraph.variableOf, skip, node, bind, Except.bind] at run
  refine ⟨j, c, leads, hc, ?_⟩
  by_cases narrowed : c.symbol = Builtin.narrowed
  · have id : c.aux = z := by simpa [narrowed, pure, Except.pure] using run
    exact ⟨id, .inr ⟨fits.of_choiceSymbol (.inr narrowed), narrowed⟩⟩
  · by_cases free : c.symbol = Builtin.free
    · have id : c.aux = z := by simpa [free, pure, Except.pure] using run
      refine ⟨id, .inl ?_⟩
      cases fits with
      | untyped => rfl
      | typed => rfl
      | constructor id sym type index aux ls le =>
        subst free
        exact absurd le (by decide)
      | call id sym aux ls le =>
        subst free
        exact absurd le (by decide)
      | _ => cases free
    · simp [narrowed, free, pure, Except.pure] at run

theorem anchors_of_variableOf (h : m.Inv [] ρ) (live : m.Live [] i)
    (run : m.variableOf i = .ok (some z)) : m.graph.Anchors z i := by
  obtain ⟨j, c, leads, hc, id, free | ⟨choice, narrowed⟩⟩ := read_variable h live run
  · exact leads.anchors (.free hc free id)
  · exact leads.anchors (.narrowed hc choice narrowed id)

/-- An anchor is recognised as no other variable than its own. -/
theorem variableOf_anchors {y : VarId} (h : m.Inv [] ρ) (live : m.Live [] i)
    (run : m.variableOf i = .ok (some z)) (anchors : m.graph.Anchors y i) : z = y := by
  obtain ⟨j, c, leads, hc, id, kind⟩ := read_variable h live run
  exact id.symm.trans ((anchors.leads leads).id hc (kind.imp_right And.left))

end Reduction

end ChoiceGraph
