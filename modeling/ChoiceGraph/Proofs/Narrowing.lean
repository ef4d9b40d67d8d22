import ChoiceGraph.Proofs.Generators

/-! # Narrowing keeps the machine

Bindings and ties only add to the store of the front frame, and bindings only name live nodes, so
that what is live stays the same. Narrowing a variable and the variables bound to it rewrites
free variables and nothing else, whatever the scope. -/
namespace ChoiceGraph

namespace Machine

variable {m m' : Machine} {held held' : List NodeId} {ρ : Rank} {i j : NodeId} {s : Scope}
  {c : Content}

theorem live_of_roots (graph : m'.graph = m.graph)
    (roots : ∀ i, some i ∈ m'.rootSet ++ held'.map some → m.Live held i) (hi : m'.Live held' i) :
    m.Live held i := by
  induction hi with
  | root hi => exact roots _ hi
  | step _ hij ih => exact Graph.Reach.step ih (graph ▸ hij)

/-- The front frame gains constraints on live nodes. -/
theorem Inv.update (h : m.Inv [] ρ) {f : ConstraintStore → ConstraintStore}
    (grows : ∀ s : ConstraintStore, s.Extends (f s))
    (nodes : ∀ (s : ConstraintStore) (i : NodeId), i ∈ (f s).nodes → i ∈ s.nodes ∨ m.Live [] i) :
    m.Evolves s ρ (m.mapInnermost fun c => c.updateConstraints 0 f) [] ρ := by
  cases hc : m.computations with
  | nil =>
    simp only [mapInnermost, hc]
    exact .refl h
  | cons c rest =>
    have mem : c ∈ m.computations := hc ▸ List.mem_cons_self
    cases hq : c.queue with
    | nil =>
      have same : c.updateConstraints 0 f = c := by
        simp [Computation.updateConstraints, hq]
      have unchanged : (m.mapInnermost fun c => c.updateConstraints 0 f) = m := by
        simp only [mapInnermost, hc, same]
        rw [← hc]
      rw [unchanged]
      exact .refl h
    | cons front fs =>
      obtain ⟨front', u⟩ := Computation.updateConstraints_updated hq (h.counted c mem) f
      have ext := u.extends_ hq grows
      have changed : (m.mapInnermost fun c => c.updateConstraints 0 f) =
          { m with computations := c.updateConstraints 0 f :: rest } := by
        simp only [mapInnermost, hc]
      rw [changed]
      have rooted : ∀ i, some i ∈ c.roots → some i ∈ m.rootSet := by
        intro i hi
        unfold rootSet
        rw [hc, List.flatMap_cons]
        exact List.mem_append_right _ (List.mem_append_left _ hi)
      have live : ∀ i, Live { m with computations := c.updateConstraints 0 f :: rest } [] i →
          m.Live [] i := by
        intro i
        refine live_of_roots rfl ?_
        intro i hi
        simp only [rootSet, List.flatMap_cons, List.map_nil, List.append_nil,
          List.mem_append] at hi
        rcases hi with hi | hi | hi
        · exact live_root (List.mem_append_left _ hi)
        · rcases u.roots hq hi with hi | hi
          · exact live_root (rooted i hi)
          · rcases nodes _ i hi with hi | hi
            · refine live_root (rooted i (Computation.mem_roots.mpr ⟨front, ?_, .inr hi⟩))
              rw [hq]
              exact List.mem_cons_self
            · exact hi
        · refine live_root (List.mem_append_right _ ?_)
          rw [hc, List.flatMap_cons]
          exact List.mem_append_right _ hi
      refine ⟨h.shrink rfl rfl ?_ ?_ live, rfl, rfl, rfl, ?_, fun _ _ => rfl,
        fun _ _ _ hc _ => hc⟩
      · intro d hd
        rcases List.mem_cons.mp hd with rfl | hd
        · exact ext.nodes (P := fun l => l ≠ none) (h.frames c mem)
        · exact h.frames d (hc ▸ List.mem_cons_of_mem _ hd)
      · intro d hd
        rcases List.mem_cons.mp hd with rfl | hd
        · exact u.counted
        · exact h.counted d (hc ▸ List.mem_cons_of_mem _ hd)
      · rw [hc]
        exact .inner ext

theorem mapInnermost_graph (f : Computation → Computation) : (m.mapInnermost f).graph = m.graph := by
  unfold mapInnermost
  split <;> rfl

theorem rootSet_of_front {store : ConstraintStore} (hs : m.frontConstraints? = some store)
    (hi : i ∈ store.nodes) : some i ∈ m.rootSet := by
  unfold frontConstraints? at hs
  cases hc : m.computations with
  | nil => simp [hc] at hs
  | cons c rest =>
    simp only [hc, List.head?_cons, Option.bind_some, Computation.front?] at hs
    obtain ⟨f, hf, rfl⟩ := Option.map_eq_some_iff.mp hs
    have mem : f ∈ c.queue := List.mem_of_head? hf
    unfold rootSet
    rw [hc, List.flatMap_cons]
    exact List.mem_append_right _ (List.mem_append_left _
      (Computation.mem_roots.mpr ⟨f, mem, .inr hi⟩))

end Machine

namespace Reduction

open Eff Machine

variable {m : Machine} {ρ : Rank} {root p left right x y : NodeId} {c : Content} {k : Nat}
  {s : Scope} {symbol : SymbolId} {id : ChoiceId}

theorem bindVars_keeps (h : m.Inv [] ρ) (hx : m.Live [] x) (hy : m.Live [] y) (isLazy : Bool) :
    (bindVars x y isLazy).Keeps s m ρ fun _ m' ρ' => m'.graph = m.graph ∧ ρ' = ρ := by
  obtain ⟨cx, hcx, -⟩ := h.fits x hx
  obtain ⟨cy, hcy, -⟩ := h.fits y hy
  unfold bindVars
  refine keeps_look_bind (TermGraph.aux_content hcx) (keeps_look_bind (TermGraph.aux_content hcy) ?_)
  refine Meets.bind (Q := fun m₁ m' => m₁ = m ∧ m' = m) (meets_get ⟨rfl, rfl⟩) ?_
  rintro _ _ ⟨rfl, rfl⟩
  split
  · have ev := h.update (s := s) (f := fun st => st.bind ⟨cx.aux, x⟩ ⟨cy.aux, y⟩ isLazy)
      (fun _ => ConstraintStore.bind_extends) fun st i hi => by
        rcases ConstraintStore.nodes_bind hi with hi | rfl | rfl
        · exact .inl hi
        · exact .inr hx
        · exact .inr hy
    exact meets_of_ok rfl ⟨ρ, ev, mapInnermost_graph _, rfl⟩
  · exact keeps_pure h ⟨rfl, rfl⟩

/-! ## Reading generators -/

private theorem mapM_ok {α β : Type} {f : α → Except Fault β} {P : β → Prop} : ∀ l : List α,
    (∀ a ∈ l, ∃ b, f a = .ok b ∧ P b) → ∃ bs, l.mapM f = .ok bs ∧ ∀ b ∈ bs, P b
  | [], _ => ⟨[], rfl, fun b hb => absurd hb List.not_mem_nil⟩
  | a :: l, h => by
    obtain ⟨b, run, hb⟩ := h a List.mem_cons_self
    obtain ⟨bs, runs, hbs⟩ := mapM_ok l fun a ha => h a (List.mem_cons_of_mem _ ha)
    refine ⟨b :: bs, ?_, fun b' hb' => ?_⟩
    · rw [List.mapM_cons, run, runs]
      rfl
    · rcases List.mem_cons.mp hb' with rfl | hb'
      · exact hb
      · exact hbs b' hb'

private theorem tailWithin_ok (h : m.Inv [] ρ) : ∀ (bound : Nat) (i : NodeId), m.Live [] i →
    m.graph.depth ρ i < bound → ∃ g, Generator.tailWithin m.toTermGraph bound i = .ok g ∧
      ∀ a ∈ g.alternatives, m.Live [] a := by
  intro bound
  induction bound with
  | zero => exact fun _ _ lt => absurd lt (Nat.not_lt_zero _)
  | succ bound ih =>
    intro i hi lt
    obtain ⟨c, hc, fits⟩ := h.fits i hi
    obtain ⟨sl, node, -⟩ := TermGraph.node_content (t := m.toTermGraph) hc
    unfold Generator.tailWithin
    simp only [node, bind, Except.bind]
    by_cases hs : c.symbol = Builtin.choice
    · rw [if_pos hs]
      obtain ⟨symbol, id, l, r, rfl, -⟩ := fits.of_choice (fits.of_choiceSymbol (.inl hs))
      obtain ⟨p, d, skip, leads, hd, -⟩ := h.read_successorSkip (k := 0) hi hc rfl
      obtain ⟨q, e, skip', leads', he, -⟩ := h.read_successorSkip (k := 1) hi hc rfl
      have below := h.below hi hc (List.mem_cons_of_mem _ List.mem_cons_self) leads'
      have deeper := Graph.depth_lt (h.lt below.1) below.2
      obtain ⟨g, run, live⟩ := ih q below.1 (Nat.lt_of_lt_of_le deeper (Nat.le_of_lt_succ lt))
      simp only [skip, skip', run]
      refine ⟨_, rfl, fun a ha => ?_⟩
      rcases List.mem_cons.mp ha with rfl | ha
      · exact (h.below hi hc List.mem_cons_self leads).1
      · exact live a ha
    · rw [if_neg hs]
      cases ht : c.tag with
      | unassigned below => exact absurd ht (fits.tag_ne_unassigned below)
      | constructor index =>
        refine ⟨_, rfl, fun a ha => ?_⟩
        rw [List.mem_singleton.mp ha]
        exact hi
      | _ => exact ⟨_, rfl, fun a ha => absurd ha List.not_mem_nil⟩

theorem ofVar_ok (h : m.Inv [] ρ) (hi : m.Live [] x) :
    ∃ g, Generator.ofVar m.toTermGraph x = .ok g ∧ ∀ a ∈ g.alternatives, m.Live [] a := by
  obtain ⟨i, c, skip, leads, hc, -⟩ := h.read_skip hi
  have live := hi.leads leads
  have fits := h.fitsAt live hc
  unfold Generator.ofVar
  simp only [skip, TermGraph.symbolId_content hc, TermGraph.tag_content hc, bind, Except.bind]
  by_cases hs : c.symbol = Builtin.narrowed
  · rw [if_pos hs]
    obtain ⟨symbol, id, l, r, rfl, -⟩ := fits.of_choice (fits.of_choiceSymbol (.inr hs))
    obtain ⟨p, d, skip, leads, hd, -⟩ := h.read_successorSkip (k := 0) live hc rfl
    obtain ⟨q, e, skip', leads', he, -⟩ := h.read_successorSkip (k := 1) live hc rfl
    have below := h.below live hc (List.mem_cons_of_mem _ List.mem_cons_self) leads'
    obtain ⟨g, run, alts⟩ := tailWithin_ok h m.depthBound q below.1
      (Nat.lt_succ_of_le Graph.depth_le)
    simp only [skip, skip', run]
    refine ⟨_, rfl, fun a ha => ?_⟩
    rcases List.mem_cons.mp ha with rfl | ha
    · exact (h.below live hc List.mem_cons_self leads).1
    · exact alts a ha
  · rw [if_neg hs]
    cases ht : c.tag with
    | unassigned below => exact absurd ht (fits.tag_ne_unassigned below)
    | constructor index =>
      refine ⟨_, rfl, fun a ha => ?_⟩
      rw [List.mem_singleton.mp ha]
      exact live
    | _ => exact ⟨_, rfl, fun a ha => absurd ha List.not_mem_nil⟩

theorem sameShape_ok (h : m.Inv [] ρ) {a b : Generator}
    (ha : ∀ i ∈ a.alternatives, m.Live [] i) (hb : ∀ i ∈ b.alternatives, m.Live [] i) :
    ∃ r, Generator.sameShape m.toTermGraph a b = .ok r := by
  have read : ∀ l : List NodeId, (∀ i ∈ l, m.Live [] i) →
      ∃ ids, l.mapM m.toTermGraph.symbolId = .ok ids := by
    intro l hl
    obtain ⟨ids, run, -⟩ := mapM_ok (P := fun _ => True) (f := m.toTermGraph.symbolId) l fun i hi => by
      obtain ⟨c, hc, -⟩ := h.fits i (hl i hi)
      exact ⟨_, TermGraph.symbolId_content hc, trivial⟩
    exact ⟨ids, run⟩
  obtain ⟨as, ra⟩ := read _ ha
  obtain ⟨bs, rb⟩ := read _ hb
  unfold Generator.sameShape
  simp only [ra, rb, bind, Except.bind]
  split <;> exact ⟨_, rfl⟩

/-- The nodes of each pair are live. -/
def LivePairs (m : Machine) (pairs : List (BoundVar × BoundVar)) : Prop :=
  ∀ p ∈ pairs, m.Live [] p.1.node ∧ m.Live [] p.2.node

theorem fieldPairs_ok (h : m.Inv [] ρ) (hx : m.Live [] x) (hy : m.Live [] y) :
    ∃ pairs, Generator.fieldPairs m.toTermGraph x y = .ok pairs ∧ LivePairs m pairs := by
  obtain ⟨cx, hcx, -⟩ := h.fits x hx
  obtain ⟨cy, hcy, -⟩ := h.fits y hy
  obtain ⟨pairs, run, live⟩ := mapM_ok
    (P := fun p : Option (BoundVar × BoundVar) => ∀ q ∈ p, m.Live [] q.1.node ∧ m.Live [] q.2.node)
    (f := fun p => Generator.fieldPair? m.toTermGraph p.1 p.2)
    ((cx.links.map some : List Link).zip (cy.links.map some)) (by
    rintro ⟨a, b⟩ hab
    obtain ⟨a, ha, rfl⟩ := List.mem_map.mp (List.of_mem_zip hab).1
    obtain ⟨b, hb, rfl⟩ := List.mem_map.mp (List.of_mem_zip hab).2
    have la := hx.link hcx ha
    have lb := hy.link hcy hb
    obtain ⟨i, ri⟩ := h.read_variableOf la
    obtain ⟨j, rj⟩ := h.read_variableOf lb
    simp only [Generator.fieldPair?, Link.target, ri, rj, bind, Except.bind]
    cases i with
    | none => exact ⟨_, rfl, fun q hq => by cases hq⟩
    | some i =>
      cases j with
      | none => exact ⟨_, rfl, fun q hq => by cases hq⟩
      | some j =>
        refine ⟨_, rfl, fun q hq => ?_⟩
        cases hq
        exact ⟨la, lb⟩)
  refine ⟨pairs.filterMap fun p => p, ?_, fun p hp => ?_⟩
  · unfold Generator.fieldPairs
    rw [h.read_successors hx hcx, h.read_successors hy hcy]
    exact congrArg (· >>= fun read => pure (read.filterMap fun p => p)) run
  · obtain ⟨o, ho, hp⟩ := List.mem_filterMap.mp hp
    exact live o ho p hp

theorem allFieldPairs_ok (h : m.Inv [] ρ) {a b : Generator}
    (ha : ∀ i ∈ a.alternatives, m.Live [] i) (hb : ∀ i ∈ b.alternatives, m.Live [] i) :
    ∃ pairs, Generator.allFieldPairs m.toTermGraph a b = .ok pairs ∧ LivePairs m pairs := by
  obtain ⟨lists, run, live⟩ := mapM_ok (P := LivePairs m)
    (f := fun p => Generator.fieldPairs m.toTermGraph p.1 p.2)
    (a.alternatives.zip b.alternatives) (by
      rintro ⟨x, y⟩ hxy
      exact fieldPairs_ok h (ha x (List.of_mem_zip hxy).1) (hb y (List.of_mem_zip hxy).2))
  refine ⟨lists.flatten, ?_, fun p hp => ?_⟩
  · unfold Generator.allFieldPairs
    rw [run]
    rfl
  · obtain ⟨l, hl, hp⟩ := List.mem_flatten.mp hp
    exact live l hl p hp

/-! ## Tying variables -/

theorem foldl_ties (pairs : List (ChoiceId × ChoiceId)) (st : ConstraintStore) :
    st.Extends (pairs.foldl (fun s (c, d) => s.tie c d) st) ∧
      (pairs.foldl (fun s (c, d) => s.tie c d) st).bindings = st.bindings := by
  induction pairs generalizing st with
  | nil => exact ⟨.refl st, rfl⟩
  | cons p pairs ih =>
    obtain ⟨ext, same⟩ := ih (st.tie p.1 p.2)
    exact ⟨ConstraintStore.tie_extends.trans ext, same.trans ConstraintStore.tie_bindings⟩

private theorem foldl_binds (pairs : List (BoundVar × BoundVar)) (st : ConstraintStore) :
    st.Extends (pairs.foldl (fun s (u, v) => s.bind u v false) st) ∧
      ∀ i ∈ (pairs.foldl (fun s (u, v) => s.bind u v false) st).nodes, i ∈ st.nodes ∨
        ∃ p ∈ pairs, i = p.1.node ∨ i = p.2.node := by
  induction pairs generalizing st with
  | nil => exact ⟨.refl st, fun i hi => .inl hi⟩
  | cons p pairs ih =>
    obtain ⟨ext, nodes⟩ := ih (st.bind p.1 p.2 false)
    refine ⟨ConstraintStore.bind_extends.trans ext, fun i hi => ?_⟩
    rcases nodes i hi with hi | ⟨q, hq, hi⟩
    · rcases ConstraintStore.nodes_bind hi with hi | hi
      · exact .inl hi
      · exact .inr ⟨p, List.mem_cons_self, hi⟩
    · exact .inr ⟨q, List.mem_cons_of_mem _ hq, hi⟩

theorem linkConstraints_extends (x y : BoundVar) (a b : Generator)
    (fields : List (BoundVar × BoundVar)) (st : ConstraintStore) :
    st.Extends (linkConstraints x y a b fields st) :=
  ConstraintStore.tie_extends.trans ((foldl_ties _ _).1.trans (foldl_binds _ _).1)

theorem linkConstraints_nodes {x y : BoundVar} {a b : Generator}
    {fields : List (BoundVar × BoundVar)} {st : ConstraintStore} {i : NodeId}
    (hi : i ∈ (linkConstraints x y a b fields st).nodes) :
    i ∈ st.nodes ∨ ∃ p ∈ fields, i = p.1.node ∨ i = p.2.node := by
  refine ((foldl_binds fields _).2 i hi).imp_left fun hi => ?_
  unfold ConstraintStore.nodes at *
  rwa [(foldl_ties _ _).2, ConstraintStore.tie_bindings] at hi

theorem link_keeps (h : m.Inv [] ρ) {x y : BoundVar} (hx : m.Live [] x.node)
    (hy : m.Live [] y.node) : (link x y).Keeps s m ρ fun _ _ _ => True := by
  unfold link
  refine Meets.bind (Q := fun m₁ m' => m₁ = m ∧ m' = m) (meets_get ⟨rfl, rfl⟩) ?_
  rintro _ _ ⟨rfl, rfl⟩
  split
  · exact keeps_pure h trivial
  · next store _ =>
    split
    · exact keeps_pure h trivial
    · obtain ⟨a, ra, ha⟩ := ofVar_ok h hx
      obtain ⟨b, rb, hb⟩ := ofVar_ok h hy
      obtain ⟨same, rs⟩ := sameShape_ok h ha hb
      refine keeps_look_bind ra (keeps_look_bind rb (keeps_look_bind rs ?_))
      split
      · obtain ⟨fields, rf, hf⟩ := allFieldPairs_ok h ha hb
        refine keeps_look_bind rf (meets_of_ok rfl ⟨ρ, h.update
          (linkConstraints_extends x y a b fields) fun st i hi => ?_, trivial⟩)
        refine (linkConstraints_nodes hi).imp_right ?_
        rintro ⟨p, hp, rfl | rfl⟩
        · exact (hf p hp).1
        · exact (hf p hp).2
      · exact keeps_pure h trivial

theorem instantiateEnd_keeps (h : m.Inv [] ρ) (hx : m.Live [] x) :
    (instantiateEnd x).Keeps s m ρ fun _ _ _ => True := by
  obtain ⟨i, c, skip, leads, hc, -⟩ := h.read_skip hx
  unfold instantiateEnd
  refine keeps_look_bind skip (keeps_look_bind (TermGraph.tag_content hc)
    (keeps_look_bind (TermGraph.literal_content hc) ?_))
  split
  · next free =>
    refine Keeps.bind (instantiate_keeps h (hx.leads leads) hc free.1) ?_
    exact fun _ _ _ ev _ => keeps_pure ev.inv trivial
  · exact keeps_pure h trivial

theorem linkPairs_keeps : ∀ (pairs : List (BoundVar × BoundVar)) (m : Machine) (ρ : Rank),
    m.Inv [] ρ → (∀ p ∈ pairs, some p.1.node ∈ m.rootSet ∧ some p.2.node ∈ m.rootSet) →
    (linkPairs pairs).Keeps s m ρ fun _ _ _ => True := by
  intro pairs
  induction pairs with
  | nil => exact fun m ρ h _ => keeps_pure h trivial
  | cons p pairs ih =>
    intro m ρ h rooted
    obtain ⟨hx, hy⟩ := rooted p List.mem_cons_self
    unfold linkPairs
    refine Keeps.bind (instantiateEnd_keeps h (live_root hx)) fun _ m₁ ρ₁ ev₁ _ => ?_
    refine Keeps.bind (instantiateEnd_keeps ev₁.inv (live_root (ev₁.rootSet hy)))
      fun _ m₂ ρ₂ ev₂ _ => ?_
    have ev := ev₁.trans ev₂
    refine Keeps.bind (link_keeps ev.inv (live_root (ev.rootSet hx)) (live_root (ev.rootSet hy)))
      fun _ m₃ ρ₃ ev₃ _ => ?_
    refine ih m₃ ρ₃ ev₃.inv fun q hq => ?_
    obtain ⟨hx', hy'⟩ := rooted q (List.mem_cons_of_mem _ hq)
    exact ⟨(ev.trans ev₃).rootSet hx', (ev.trans ev₃).rootSet hy'⟩

/-! ## Bound variables -/

private theorem pairsOf_ok {st : ConstraintStore} {varOf : NodeId → Except Fault (Option VarId)}
    (known : ∀ i ∈ st.nodes, ∃ v, varOf i = .ok v) (u : VarId) :
    ∃ pairs, st.pairsOf varOf u = .ok pairs ∧
      ∀ p ∈ pairs, p.1.node ∈ st.nodes ∧ p.2.node ∈ st.nodes := by
  have entry : ∀ b ∈ (st.bindingsOf u).filter (fun b => !b.isLazy),
      b.bound ∈ st.nodes ∧ b.partner ∈ st.nodes := by
    intro b hb
    obtain ⟨q, hq, same⟩ := List.mem_filterMap.mp (List.mem_of_mem_filter hb)
    simp only at same
    split at same
    · cases same
      exact ⟨List.mem_flatMap.mpr ⟨q, hq, List.mem_cons_self⟩,
        List.mem_flatMap.mpr ⟨q, hq, List.mem_cons_of_mem _ List.mem_cons_self⟩⟩
    · cases same
  obtain ⟨pairs, run, nodes⟩ := mapM_ok
    (P := fun p : Option (BoundVar × BoundVar) =>
      ∀ q ∈ p, q.1.node ∈ st.nodes ∧ q.2.node ∈ st.nodes)
    (f := fun b => do
      return (← varOf b.partner).map fun p => (BoundVar.mk u b.bound, BoundVar.mk p b.partner))
    ((st.bindingsOf u).filter (fun b => !b.isLazy)) (by
    intro b hb
    obtain ⟨v, hv⟩ := known b.partner (entry b hb).2
    simp only [hv, bind, Except.bind]
    refine ⟨_, rfl, fun q hq => ?_⟩
    obtain ⟨w, -, rfl⟩ := Option.map_eq_some_iff.mp hq
    exact entry b hb)
  refine ⟨pairs.filterMap fun p => p, ?_, fun p hp => ?_⟩
  · unfold ConstraintStore.pairsOf
    exact congrArg (· >>= fun read => pure (read.filterMap fun p => p)) run
  · obtain ⟨o, ho, hp⟩ := List.mem_filterMap.mp hp
    exact nodes o ho p hp

private theorem pairsFrom_ok {st : ConstraintStore} {varOf : NodeId → Except Fault (Option VarId)}
    (known : ∀ i ∈ st.nodes, ∃ v, varOf i = .ok v) : ∀ (rounds : Nat) (seen pending : List VarId),
    ∃ pairs, st.pairsFrom varOf rounds seen pending = .ok pairs ∧
      ∀ p ∈ pairs, p.1.node ∈ st.nodes ∧ p.2.node ∈ st.nodes := by
  intro rounds
  induction rounds with
  | zero => exact fun _ _ => ⟨[], rfl, fun p hp => absurd hp List.not_mem_nil⟩
  | succ rounds ih =>
    intro seen pending
    cases pending with
    | nil => exact ⟨[], rfl, fun p hp => absurd hp List.not_mem_nil⟩
    | cons u pending =>
      obtain ⟨pairs, run, nodes⟩ := pairsOf_ok known u
      unfold ConstraintStore.pairsFrom
      simp only [run, bind, Except.bind]
      obtain ⟨rest, run', nodes'⟩ := ih
        (ConstraintStore.unseen seen (pairs.map fun p => p.2.id) ++ seen)
        ((ConstraintStore.unseen seen (pairs.map fun p => p.2.id)).reverse ++ pending)
      rw [run']
      refine ⟨pairs ++ rest, rfl, fun p hp => ?_⟩
      exact (List.mem_append.mp hp).elim (nodes p) (nodes' p)

theorem bindGenerators_keeps (h : m.Inv [] ρ) (var : VarId) :
    (bindGenerators var).Keeps s m ρ fun _ _ _ => True := by
  unfold bindGenerators
  refine Meets.bind (Q := fun m₁ m' => m₁ = m ∧ m' = m) (meets_get ⟨rfl, rfl⟩) ?_
  rintro _ _ ⟨rfl, rfl⟩
  split
  · exact keeps_pure h trivial
  · next m _ store hs =>
    have known : ∀ i ∈ store.nodes, ∃ v, m.variableOf i = .ok v := fun i hi =>
      h.read_variableOf (live_root (rootSet_of_front hs hi))
    obtain ⟨pairs, run, nodes⟩ := pairsFrom_ok known (store.bindings.length + 1) [var] [var]
    refine keeps_look_bind run (linkPairs_keeps pairs m ρ h fun p hp => ?_)
    exact ⟨rootSet_of_front hs (nodes p hp).1, rootSet_of_front hs (nodes p hp).2⟩

/-! ## Narrowing and pulling -/

theorem narrow_keeps (h : m.Inv [] ρ) (live : m.Live [] x) (hc : m.graph.content? x = some c)
    (tag : c.tag = .free) : (narrow x).Keeps s m ρ fun _ _ _ => True := by
  unfold narrow
  refine keeps_look_bind (TermGraph.aux_content hc) ?_
  refine Keeps.bind (instantiate_keeps h live hc tag) fun n m₁ ρ₁ ev₁ _ => ?_
  split
  · exact bindGenerators_keeps ev₁.inv _
  · exact keeps_pure ev₁.inv trivial

theorem choiceBelow_skip (h : m.Inv [] ρ) (live : m.Live [] root)
    (hc : m.graph.content? root = some c) (below : m.ChoiceBelow root c k p symbol id left right) :
    m.successorSkip root k = .ok p := by
  obtain ⟨j, hk, leads⟩ := below.link
  have hj : j ∈ c.links := List.mem_of_getElem? hk
  simp only [TermGraph.successorSkip, h.read_successor live hc hk, bind, Except.bind, Link.target]
  exact h.skip_eq (live.link hc hj) leads below.content fun e => by cases e

theorem pullBind_keeps (h : m.Inv [] ρ) (live : m.Live [] root)
    (hc : m.graph.content? root = some c) (below : m.ChoiceBelow root c k p symbol id left right)
    (loose : m.Loose s ρ root) : (pullBind root k).Keeps s m ρ fun _ _ _ => True := by
  unfold pullBind
  refine keeps_look_bind (choiceBelow_skip h live hc below)
    (keeps_look_bind (TermGraph.aux_content below.content) ?_)
  refine Keeps.bind (pullTab_keeps h live hc below loose) fun _ m₁ ρ₁ ev₁ _ => ?_
  exact bindGenerators_keeps ev₁.inv _

theorem pull_keeps (h : m.Inv [] ρ) (live : m.Live [] root)
    (hc : m.graph.content? root = some c) (below : m.ChoiceBelow root c k p symbol id left right)
    (loose : m.Loose s ρ root) : (pull root k).Keeps s m ρ fun _ _ _ => True := by
  unfold pull
  refine keeps_look_bind (choiceBelow_skip h live hc below)
    (keeps_look_bind (TermGraph.symbolId_content below.content) ?_)
  split
  · exact pullBind_keeps h live hc below loose
  · exact (pullTab_keeps h live hc below loose).mono fun _ _ _ _ _ => trivial

end Reduction

end ChoiceGraph
