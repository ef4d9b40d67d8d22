import ChoiceGraph.Proofs.Demanding

/-! # Variables run through the constructors of their type

Variables of one type are bound to each other, and a list demands them all. The search for the values of
the list narrows them together, forks once for each constructor but the last, and hands out one list for
each constructor: all its terms carry that constructor, applied to fresh variables of their own, and the
variables in one position of the terms are bound to each other. -/
namespace ChoiceGraph

open Eff Machine Reduction

namespace Reduction

open Graph

variable {Q : Cluster} {m m' m₁ : Machine} {gens : List Gen} {links : List (Gen × Gen)}
  {s : ConstraintStore} {G : Gen} {Gs : List Gen} {a i : Nat} {v : NodeId}

/-- The constructor of a generator in this place, with its fields. -/
def Gen.row (G : Gen) (i : Nat) : NodeId × List BoundVar := G.made.getD i (0, [])

theorem Gen.term_eq : G.term i = (G.row i).1 := by
  rw [Gen.term, Gen.terms, Gen.row, List.getD_eq_getElem?_getD, List.getD_eq_getElem?_getD, List.getElem?_map]
  cases G.made[i]? <;> rfl

theorem Gen.Stands.row_at {g : Graph} {σ : Signature} {ctors : List (SymbolId × Nat)}
    (h : G.Stands g σ ctors) (lt : i < ctors.length) : G.made[i]? = some (G.row i) := by
  have within : i < G.made.length := by rwa [h.lengths.1]
  rw [Gen.row, List.getD_eq_getElem?_getD, List.getElem?_eq_getElem within, Option.getD_some]

/-! ## The lists as a deal -/

/-- One list of terms for each constructor. -/
def Cluster.deal (Q : Cluster) (gens Gs : List Gen) (s : ConstraintStore) : Deal where
  place := Place gens
  store := s
  count := Q.ctors.length
  lists i := Gs.map fun G => G.term i
  size := Q.vars.length
  arity := fieldCount Q.ctors
  collections := Q.start.collections

theorem nodesOf_terms (made : List (NodeId × List NodeId)) :
    (made.map Prod.fst).Sublist (nodesOf made) := by
  induction made with
  | nil => exact .slnil
  | cons alt made ih =>
    rw [nodesOf, List.map_cons, List.flatMap_cons, List.cons_append]
    exact (ih.trans (List.sublist_append_right _ _)).cons_cons _

/-- A generator has a different term for each constructor. -/
theorem Gen.Stands.terms_nodup {g : Graph} {σ : Signature} {ctors : List (SymbolId × Nat)}
    (h : G.Stands g σ ctors) : G.terms.Nodup := by
  rw [← G.plain_terms]
  exact (List.nodup_append.mp h.apart).1.sublist (nodesOf_terms _)

namespace Unfolded

variable (h : Unfolded Q v a gens links s Gs m₁ m')
include h

theorem stands : ∀ G ∈ gens, G.Stands m₁.graph m₁.signature Q.ctors := h.woven.stands

theorem size : Gs.length = Q.vars.length := by rw [← h.vars, List.length_map]

theorem config : m'.config = Q.start.config := by rw [h.same, h.start]

theorem signature : m'.signature = m₁.signature := by rw [h.same]

theorem proper (some_ : Q.vars ≠ []) : (Q.deal gens Gs s).Proper where
  unique here there := h.woven.depth_unique h.kin here there
  classes here := h.woven.class_iff h.kin h.complete here
  inner here := h.woven.place_inner here
  length i _ := (List.length_map _).trans h.size
  differ i hi j hj same := by
    obtain ⟨G, rest, gens_⟩ : ∃ G rest, Gs = G :: rest :=
      List.exists_cons_of_ne_nil fun none => some_ (by rw [← h.vars, none, List.map_nil])
    have hG := h.within G (gens_ ▸ List.mem_cons_self)
    have terms : G.term i = G.term j := by
      have same : (Gs.map fun G => G.term i) = Gs.map fun G => G.term j := same
      rw [gens_, List.map_cons, List.map_cons] at same
      exact (List.cons.inj same).1
    have left := (h.stands G hG).term_at hi
    have right := (h.stands G hG).term_at hj
    exact (List.getElem?_inj (List.getElem?_eq_some_iff.mp left).1 (h.stands G hG).terms_nodup).mp
      (left.trans ((congrArg some terms).trans right.symm))

/-- Once the list has been normalized, its search deals out the lists of terms. -/
theorem deals {c : Computation} {f : Frame} (binds : Binds Q.store Q.vars) (counted : c.Counted)
    (queue : c.queue = [f]) (node : f.node = some v) (store : c.constraintsOf f = s)
    (limit : Q.start.config.stepLimit = none)
    (slice : (fieldCount Q.ctors + 5) * (Q.vars.length + 1) ≤ Q.start.config.sliceSteps) :
    Schedule.Deals (Q.deal gens Gs s) a Q.outer c { m' with computations := c :: Q.outer } where
  search := rfl
  counted := counted
  placed g hg := by
    rw [queue] at hg
    exact ⟨v, List.mem_singleton.mp hg ▸ node⟩
  stores g hg := by
    rw [queue] at hg
    exact List.mem_singleton.mp hg ▸ store
  signature := h.signature.symm ▸ h.kin.signature
  sound := h.sound
  knits := (h.woven.knits h.kin binds h.complete).advance fun i _ _ _ hi => h.advances.still i _ hi (.inl rfl)
  terms i lt z hz := by
    obtain ⟨d, leaf, fits, le⟩ := h.woven.rows h.kin h.within lt z hz
    exact ⟨d, h.advances.leaves z d leaf, h.signature.symm ▸ fits, le⟩
  collections := by
    show m'.collections = Q.start.collections
    rw [h.same, h.start]
  limit := h.config.symm ▸ limit
  slice := h.config.symm ▸ slice
  nodes := h.nodes

end Unfolded

/-! ## What is handed out -/

/-- A list was handed out whose terms are a constructor applied to fresh variables of their own. Each
variable is bound to those in its position of the other terms, and to nothing else. -/
structure Variant (base : VarId) (ctor : SymbolId × Nat) (terms : List (NodeId × List BoundVar))
    (shown : Machine × NodeId) : Prop where
  lists : shown.1.graph.Lists (terms.map Prod.fst) shown.2
  applied : ∀ t ∈ terms, t.2.length = ctor.2 ∧ ∃ index, shown.1.signature.tagFor ctor.1 =
    .ok (.constructor index) ∧
      shown.1.graph.Holds t.1 ⟨.constructor index, ctor.1, 0, .links (t.2.map BoundVar.node)⟩
  free : ∀ t ∈ terms, ∀ u ∈ t.2, shown.1.graph.Holds u.node (freeContent u.id none)
  fresh : ∀ t ∈ terms, ∀ u ∈ t.2, base ≤ u.id
  distinct : ((terms.flatMap Prod.snd).map BoundVar.id).Nodup
  bound : ∀ (k j : Nat) t u, terms[k]? = some t → t.2[j]? = some u →
    ∃ l, boundVariables shown.1 u.node = .ok l ∧
      ∀ p, p ∈ l ↔ ∃ k' t' w, k' ≠ k ∧ terms[k']? = some t' ∧ t'.2[j]? = some w ∧ p = w.node

namespace Unfolded

variable {shown : Machine × NodeId} {ctor : SymbolId × Nat} (h : Unfolded Q v a gens links s Gs m₁ m')
include h

theorem nodup : Gs.Nodup := by
  refine List.Nodup.of_map Gen.var ?_
  rw [h.vars]
  exact List.Nodup.of_map _ h.kin.distinct

theorem mem_iff (H : Gen) : H ∈ gens ↔ H ∈ Gs := by
  refine ⟨fun hH => ?_, h.within H⟩
  have member : H.var ∈ Gs.map Gen.var := h.vars.symm ▸ h.woven.members H hH
  obtain ⟨G, hG, var⟩ := List.mem_map.mp member
  exact h.woven.eq_of_var (h.within G hG) hH var ▸ hG

/-- The fields of all terms in one list are different variables. -/
theorem fields_distinct (lt : i < Q.ctors.length) :
    (((Gs.map fun G => G.row i).flatMap Prod.snd).map BoundVar.id).Nodup := by
  have ids : ∀ G ∈ Gs, ∀ z ∈ (G.row i).2.map BoundVar.id, z ∈ G.ids := fun G hG z hz => by
    obtain ⟨u, hu, rfl⟩ := List.mem_map.mp hz
    have row := (h.stands G (h.within G hG)).row_at lt
    exact List.mem_append_left _ (List.mem_map_of_mem (List.mem_flatMap.mpr ⟨_, List.mem_of_getElem? row, hu⟩))
  rw [List.flatMap_map, List.map_flatMap, List.nodup_flatMap]
  constructor
  · intro G hG
    have own := (List.nodup_append.mp ((List.nodup_flatMap.mp h.woven.distinct).1 G (h.within G hG))).1
    rw [Gen.fields, List.map_flatMap, List.nodup_flatMap] at own
    exact own.1 _ (List.mem_of_getElem? ((h.stands G (h.within G hG)).row_at lt))
  · refine List.Nodup.pairwise_of_forall_ne h.nodup fun G hG G' hG' differ z hz hz' => differ ?_
    exact h.woven.eq_of_id (h.within G hG) (h.within G' hG') (ids G hG z hz) (ids G' hG' z hz')

/-- A list that is handed out is the list for its constructor. -/
theorem variant (binds : Binds Q.store Q.vars) (hctor : Q.ctors[i]? = some ctor)
    (shows : Schedule.Shows (Q.deal gens Gs s) m' i shown) :
    Variant Q.base ctor (Gs.map fun G => G.row i) shown := by
  have lt := (List.getElem?_eq_some_iff.mp hctor).1
  have advances := h.advances.trans shows.advances
  have row : ∀ G ∈ Gs, G.made[i]? = some (G.row i) := fun G hG => (h.stands G (h.within G hG)).row_at lt
  have fields : ∀ G ∈ Gs, ∀ u ∈ (G.row i).2, u ∈ G.fields := fun G hG u hu =>
    List.mem_flatMap.mpr ⟨_, List.mem_of_getElem? (row G hG), hu⟩
  have free : ∀ G ∈ gens, ∀ u ∈ G.fields, shown.1.graph.Holds u.node (freeContent u.id none) :=
    fun G hG u hu => advances.still _ _ ((h.stands G hG).field_holds hu) (.inr (.inl rfl))
  refine ⟨?_, fun t ht => ?_, fun t ht u hu => ?_, fun t ht u hu => ?_, h.fields_distinct lt,
    fun k j t u ht hu => ?_⟩
  · have lists := shows.lists
    rw [List.map_map]
    exact (List.map_congr_left (fun G _ => Gen.term_eq) : (Gs.map fun G => G.term i) = _) ▸ lists
  · obtain ⟨G, hG, rfl⟩ := List.mem_map.mp ht
    obtain ⟨ctor', index, hctor', tag, arity, holds⟩ := (h.stands G (h.within G hG)).alternative (row G hG)
    cases hctor.symm.trans hctor'
    obtain ⟨d, leaf, -⟩ := h.woven.rows h.kin h.within lt _ (List.mem_map_of_mem hG)
    rw [Gen.term_eq] at leaf
    cases leaf.holds.eq holds
    have signature : shown.1.signature = m₁.signature := shows.signature.trans h.signature
    exact ⟨arity, index, signature ▸ tag, (advances.leaves _ _ leaf).holds⟩
  · obtain ⟨G, hG, rfl⟩ := List.mem_map.mp ht
    exact free G (h.within G hG) u (fields G hG u hu)
  · obtain ⟨G, hG, rfl⟩ := List.mem_map.mp ht
    exact (h.woven.fresh G (h.within G hG) u.id
      (List.mem_append_left _ (List.mem_map_of_mem (fields G hG u hu)))).1
  · rw [List.getElem?_map] at ht
    obtain ⟨G, hk, rfl⟩ := Option.map_eq_some_iff.mp ht
    have hG := List.mem_of_getElem? hk
    obtain ⟨l, run, mem⟩ := Woven.bound_fields (Q := Q.moved m₁ a) binds h.kin h.woven h.complete
      (h.within G hG) ⟨_, row G hG, hu⟩ shows.front free
    refine ⟨l, run, fun p => (mem p).trans ⟨?_, ?_⟩⟩
    · rintro ⟨H, hH, differ, w, ⟨alt, at_, hw⟩, rfl⟩
      obtain ⟨k', hk'⟩ := List.mem_iff_getElem?.mp ((h.mem_iff H).mp hH)
      cases at_.symm.trans (row H (List.mem_of_getElem? hk'))
      refine ⟨k', H.row i, w, fun same => ?_, by rw [List.getElem?_map, hk']; rfl, hw, rfl⟩
      cases (same ▸ hk').symm.trans hk
      exact differ rfl
    · rintro ⟨k', t', w, differ, ht', hw, rfl⟩
      rw [List.getElem?_map] at ht'
      obtain ⟨H, hk', rfl⟩ := Option.map_eq_some_iff.mp ht'
      have hH := List.mem_of_getElem? hk'
      refine ⟨H, h.within H hH, fun same => differ ?_, w, ⟨_, row H hH, hw⟩, rfl⟩
      exact (List.getElem?_inj (List.getElem?_eq_some_iff.mp hk').1 h.nodup).mp (hk'.trans (same ▸ hk.symm))

end Unfolded

/-! ## The first turn -/

/-- The pools of the machine serve all constructors of the type. -/
structure Typed (m : Machine) (type : TypeId) (ctors : List (SymbolId × Nat)) : Prop where
  signature : m.signature.Sound
  run : constructorsOf m type = .ok ctors
  fit : ∀ p ∈ ctors, Fitting m p.2

theorem Typed.listed {type : TypeId} {ctors : List (SymbolId × Nat)} (h : Typed m type ctors) :
    Listed m ctors := by
  cases hd : m.signature.types[type]? with
  | none =>
    have run := h.run
    simp only [constructorsOf, Signature.dataType, hd, bind, Except.bind] at run
    cases run
  | some d =>
    obtain ⟨ctors', run, listed, -⟩ := constructorsOf_declared h.signature hd
    cases h.run.symm.trans run
    exact listed

/-- Before anything is narrowed. -/
theorem Woven.start (front : Q.start.Fronted Q.outer Q.node Q.store) (sound : Q.start.graph.Sound)
    (waiting : ∀ x ∈ Q.vars, Q.start.graph.Holds x.node (freeContent x.id (some Q.type)))
    (later : Q.base ≤ Q.start.nextId) (untied : Q.store.ties = [])
    (room : Q.spare + generatorSize Q.ctors * Q.vars.length ≤ Q.start.graph.free.length) :
    Woven Q [] [] Q.store Q.start where
  same := rfl
  front := front
  sound := sound
  capacity := rfl
  pools := rfl
  kept _ _ _ hj := hj
  stands G hG := absurd hG List.not_mem_nil
  members G hG := absurd hG List.not_mem_nil
  once := .nil
  pending x hx := .inr (waiting x hx)
  distinct := .nil
  later := later
  fresh G hG := absurd hG List.not_mem_nil
  linked p hp := absurd hp List.not_mem_nil
  ties p q := by
    rw [ConstraintStore.Tied, untied]
    refine ⟨fun tied => absurd tied List.not_mem_nil, ?_⟩
    rintro ⟨_, _, _, mates | mates, -⟩
    · exact absurd mates List.not_mem_nil
    · exact absurd mates List.not_mem_nil
  bindings e := by
    refine ⟨.inl, ?_⟩
    rintro (old | ⟨_, _, _, _, mates | mates, -⟩)
    · exact old
    · exact absurd mates List.not_mem_nil
    · exact absurd mates List.not_mem_nil
  room := room

end Reduction

namespace Schedule

variable {m m' : Machine} {outer : List Computation} {s : ConstraintStore} {g : Graph} {st : Stats}
  {k : Nat} {i v : NodeId}

/-- Indirections move the frame to the node they lead to. -/
theorem dispatch_redirects (st : Stats) (bound : Nat) (leads : g.Redirects k i v) : ∀ m : Machine,
    m.graph = g → m.signature.Sound → m.Fronted outer (some i) s → ∃ cs,
      dispatch (bound + k) i st m = dispatch bound v st { m with computations := cs } ∧
      Fronted { m with computations := cs } outer (some v) s := by
  induction leads with
  | here i => exact fun m _ _ front => ⟨m.computations, rfl, front⟩
  | @next k i j v hi _ ih =>
    intro m same hσ front
    subst same
    obtain ⟨search, queue, counted, node, fingerprint, store⟩ := front
    rename_i c f
    let moved : Computation := { c with queue := [{ f with node := some j }] }
    have still : moved.Counted := by
      obtain ⟨fingerprints, stores⟩ := counted
      rw [queue] at fingerprints stores
      exact ⟨fingerprints, stores⟩
    obtain ⟨cs, run, front⟩ := ih { m with computations := moved :: outer } rfl hσ
      (.mk rfl rfl still rfl fingerprint store)
    refine ⟨cs, ?_, front⟩
    have move : setFrontNode (some j) m = .ok () { m with computations := moved :: outer } := by
      show EStateM.Result.ok () _ = _
      simp only [Machine.mapInnermost, search, queue, moved]
    have tag : m.tag i = .ok .forward := TermGraph.tag_content (t := m.toTermGraph) hi.content
    have link : m.successor i 0 = .ok (some j) := successor_reads hσ hi (.forward 0 j) rfl
    refine Eq.trans ?_ run
    show dispatch (bound + k + 1) i st m = _
    conv_lhs => unfold dispatch
    refine (bind_ok (look_ok tag)).trans ((bind_ok (look_ok link)).trans ?_)
    exact (bind_ok move).trans (bind_ok (look_ok (a := j) rfl))

variable {Q : Cluster} {m₁ : Machine} {gens Gs : List Gen} {links : List (Gen × Gen)} {a fuel : Nat}
  {root : NodeId}

/-- Once the list has been normalized in the first turn, the search deals out the lists of terms. -/
theorem unfolded_deals (h : Unfolded Q v a gens links s Gs m₁ m') (binds : Binds Q.store Q.vars)
    (some_ : Q.vars ≠ []) (node : Q.node = some root) (leads : m'.graph.Redirects k root v)
    (short : k ≤ m'.graph.capacity) (limit : Q.start.config.stepLimit = none)
    (slice : (fieldCount Q.ctors + 5) * (Q.vars.length + 1) ≤ Q.start.config.sliceSteps)
    (nodes : 4 * (Q.vars.length + 1) * rounds (Q.vars.length * Q.ctors.length) (Q.ctors.length - 1) ≤ a)
    (enough : Q.vars.length + 4 ≤ fuel) (st : Stats) :
    ∃ j ≤ rounds (Q.vars.length * Q.ctors.length) (Q.ctors.length - 1), ∃ m'' vs st',
      (∀ turns, proceed (Reduction.normalize fuel) (turns + j) [] (dispatch m'.depthBound root st m') =
        takeTurns (Reduction.normalize fuel) snapshots turns st' vs m'') ∧
      m''.front? = none ∧ m''.collections = Q.start.collections ∧
      List.Forall₂ (Shows (Q.deal gens Gs s) m') (List.range' 0 Q.ctors.length) vs ∧
      Counts Q.ctors.length (Q.ctors.length - 1) st st' := by
  have several : 0 < Q.ctors.length := List.length_pos_iff.mpr h.kin.filled
  have computations : m'.computations = m₁.computations := by rw [h.same]
  have front : m'.Fronted Q.outer (some root) s := node ▸ h.woven.front.congr computations
  have bound : m'.depthBound = m'.graph.capacity - k + 1 + k := by
    show m'.graph.capacity + 1 = _
    omega
  obtain ⟨cs, run, front⟩ := dispatch_redirects st (m'.graph.capacity - k + 1) leads m' rfl
    (h.signature.symm ▸ h.kin.signature) front
  rw [← bound] at run
  obtain ⟨search, queue, counted, node, fingerprint, store⟩ := front
  rename_i c f
  cases search
  have deals := h.deals binds counted queue node store limit slice
  have offers : Offers (Q.deal gens Gs s) m'.graph v 0 (Q.vars.length * Q.ctors.length) := fun i _ lt => by
    obtain ⟨n, le, spells⟩ := h.spells i lt
    exact ⟨n, le.trans (Nat.mul_le_mul_left _ lt), spells⟩
  obtain ⟨j, le, m'', c', vs, st', goes, deals', done, shown, counts⟩ := deal_from (a := 0) (h.proper some_)
    enough (Q.ctors.length - 1) 0 { m' with computations := c :: Q.outer } c f v st (m'.graph.capacity - k)
    (show 0 + (Q.ctors.length - 1) + 1 = Q.ctors.length by omega)
    (deals.mono ((Nat.zero_add _).trans_le nodes)) queue (fingerprint ▸ Deal.knows_nothing _) offers h.passed
  rw [Nat.sub_add_cancel several] at shown counts
  refine ⟨j, le, m'', vs, st', fun turns => ?_, ?_, deals'.collections, shown.imp fun i w hw => ?_, counts⟩
  · rw [run]
    exact goes turns []
  · rw [Machine.front?, deals'.search, List.head?_cons, Option.bind_some, Computation.front?, done]
    rfl
  · exact ⟨hw.lists, hw.front, hw.advances, hw.signature⟩

/-! ## The whole search -/

/-- A search whose first turn leads, after `j` more turns, to an empty queue. -/
theorem evaluate_of_turn {j : Nat} {vs : List (Machine × NodeId)} {st' : Stats} {m'' : Machine}
    (limit : m.config.stepLimit = none)
    (run : Reduction.normalize fuel root { enter (some root) m with slice := .ofSteps m.config.sliceSteps } =
      .ok () m')
    (goes : ∀ turns, proceed (Reduction.normalize fuel) (turns + j) []
      (dispatch m'.depthBound root { steps := m'.slice.used } m') =
        takeTurns (Reduction.normalize fuel) snapshots turns st' vs m'')
    (done : m''.front? = none) (enough : j + 2 ≤ fuel) : m.evaluate fuel snapshots root [] =
      ⟨vs, .ok { st' with collections := m''.collections - m.collections } (leave m.slice m'')⟩ := by
  have turned := turn_entered limit run
  have found : takeTurns (Reduction.normalize fuel) snapshots fuel {} [] (enter (some root) m) =
      ⟨vs, .ok st' m''⟩ := by
    obtain ⟨turns, rfl⟩ : ∃ turns, fuel = turns + 1 + j + 1 := ⟨fuel - (j + 2), by omega⟩
    rw [takeTurns_proceeds, turned, goes, takeTurns_proceeds, turn_idle done]
    rfl
  unfold Machine.evaluate search
  rw [found]

/-- The frame of a failure is dropped. -/
theorem dispatch_fails (front : m.Fronted outer (some root) s) (hσ : m.signature.Sound)
    (leads : m.graph.Redirects k root v) (short : k ≤ m.graph.capacity) (hv : m.graph.Holds v .blank)
    (st : Stats) : ∃ m'', dispatch m.depthBound root st m =
      .ok ({ st with failures := st.failures + 1 }, .again) m'' ∧ m''.front? = none ∧
        m''.collections = m.collections := by
  have bound : m.depthBound = m.graph.capacity - k + 1 + k := by
    show m.graph.capacity + 1 = _
    omega
  obtain ⟨cs, run, front⟩ := dispatch_redirects st (m.graph.capacity - k + 1) leads m rfl hσ front
  rw [← bound] at run
  obtain ⟨search, queue, counted, -, -, -⟩ := front
  rename_i c f
  cases search
  obtain ⟨emptied, -⟩ := Computation.dropFront_others counted queue
  have tag : ({ m with computations := c :: outer } : Machine).tag v = .ok .failure :=
    TermGraph.tag_content (t := m.toTermGraph) hv.content
  refine ⟨{ m with computations := c.dropFront :: outer }, ?_, ?_, rfl⟩
  · rw [run]
    unfold dispatch
    exact (bind_ok (look_ok tag)).trans rfl
  · rw [Machine.front?, List.head?_cons, Option.bind_some, Computation.front?, emptied]
    rfl

variable {x : BoundVar} {xs ys : List BoundVar} {F : Nat} {type : TypeId} {ctors : List (SymbolId × Nat)}

/-- The search for a list of demands hands out one list for each constructor. -/
theorem list_deals {f b : Nat} (kin : Kin Q) (binds : Binds Q.store Q.vars)
    (woven : Woven Q [] [] Q.store Q.start) (vars : Q.vars = x :: ys)
    (demands : Demands Q.start.graph (x :: ys) v) (node : Q.node = some root)
    (leads : Q.start.graph.Redirects ys.length root v) (limit : Q.start.config.stepLimit = none)
    (slice : (fieldCount Q.ctors + 5) * (ys.length + 2) ≤ Q.start.config.sliceSteps)
    (room : Q.start.Room ((fieldCount Q.ctors + 5) * (ys.length + 2)) b)
    (spare : 4 * (ys.length + 2) * (rounds ((ys.length + 1) * Q.ctors.length) (Q.ctors.length - 1) + 1) ≤
      Q.spare) (deep : ys.length + 5 ≤ f) (enough : ys.length + 5 ≤ fuel) :
    ∃ m', Reduction.normalize f v Q.start = .ok () m' ∧ ∀ st,
      ∃ j ≤ rounds ((ys.length + 1) * Q.ctors.length) (Q.ctors.length - 1), ∃ m'' vs st',
        (∀ turns, proceed (Reduction.normalize fuel) (turns + j) [] (dispatch m'.depthBound root st m') =
          takeTurns (Reduction.normalize fuel) snapshots turns st' vs m'') ∧
        m''.front? = none ∧ m''.collections = Q.start.collections ∧
        List.Forall₂ (fun ctor shown => ∃ terms, terms.length = ys.length + 1 ∧
          Variant Q.base ctor terms shown) Q.ctors vs ∧
        Counts Q.ctors.length (Q.ctors.length - 1) st st' := by
  have size : Q.vars.length = ys.length + 1 := by rw [vars, List.length_cons]
  obtain ⟨F, rfl⟩ := Nat.exists_eq_add_of_le deep
  obtain ⟨gens, links, s, Gs, m₁, m', run, unfolded⟩ := list_unfolds (F := F) (n := 0)
    (a := 4 * (ys.length + 2) * rounds ((ys.length + 1) * Q.ctors.length) (Q.ctors.length - 1)) kin binds
    woven vars demands (by rw [Nat.mul_succ] at spare; exact spare) (room.mono (Nat.zero_add _).le le_rfl)
  have turnable : Q.vars.length + 4 ≤ fuel := by rwa [size]
  have nodes : Q.vars.length ≤ Q.start.graph.capacity :=
    length_le_capacity (fun y => woven.free (x := y)) kin.distinct
  refine ⟨m', ?_, fun st => ?_⟩
  · rw [show ys.length + 5 + F = F + ys.length + 5 by omega]
    exact run
  obtain ⟨j, le, m'', vs, st', goes, done, collections, shown, counts⟩ := unfolded_deals unfolded binds (by rw [vars]; exact List.cons_ne_nil _ _) node (leads.kept unfolded.redirects)
    (by rw [unfolded.capacity]; omega) limit (by rw [size]; exact slice) (by rw [size])
    turnable st
  rw [size] at le
  refine ⟨j, le, m'', vs, st', goes, done, collections, ?_, counts⟩
  obtain ⟨length, each⟩ := List.forall₂_iff_get.mp shown
  rw [List.length_range'] at length
  refine List.forall₂_iff_get.mpr ⟨length, fun i hi hi' => ?_⟩
  have here := each i (by rwa [List.length_range']) hi'
  rw [List.get_eq_getElem, List.getElem_range', Nat.zero_add, Nat.one_mul] at here
  refine ⟨Gs.map fun G => G.row i, ?_, unfolded.variant binds (List.getElem?_eq_getElem hi) here⟩
  rw [List.length_map, unfolded.size, size]

/-- The guards in front of a list have been normalized. The variables are bound in a chain, and the node
of the frame leads to the list. -/
structure Asked (m : Machine) (root v : NodeId) (type : TypeId) (xs : List BoundVar) (steps : Nat)
    (m' : Machine) : Prop where
  same : m' = { enter (some root) m with
    graph := m'.graph, slice := m'.slice, computations := m'.computations }
  sound : m'.graph.Sound
  pools : m'.graph.pools.size = m.graph.pools.size
  nodes : m'.graph.free = m.graph.free
  front : m'.Fronted m.computations (some root) (chained xs .empty)
  leads : m'.graph.Redirects (xs.length - 1) root v
  free : ∀ x ∈ xs, m'.graph.Holds x.node (freeContent x.id (some type))
  demands : Demands m'.graph xs v
  room : m'.Room steps m.graph.free.length

theorem asks_arrive {steps : Nat} (hσ : m.signature.Sound) (sound : m.graph.Sound)
    (free : ∀ x ∈ xs, m.graph.Holds x.node (freeContent x.id (some type)))
    (distinct : (xs.map BoundVar.id).Nodup) (asks : Asks m.graph v xs root) (demands : Demands m.graph xs v)
    (slice : steps + 2 * xs.length ≤ m.config.sliceSteps) (enough : xs.length + 5 ≤ fuel) :
    ∃ f m', xs.length + 4 ≤ f ∧ Asked m root v type xs steps m' ∧ Reduction.normalize fuel root
      { enter (some root) m with slice := .ofSteps m.config.sliceSteps } = Reduction.normalize f v m' := by
  obtain ⟨x, ys, rfl⟩ : ∃ x ys, xs = x :: ys := by
    cases asks with
    | last x => exact ⟨x, [], rfl⟩
    | guard => exact ⟨_, _, rfl⟩
  obtain ⟨F, rfl⟩ := Nat.exists_eq_add_of_le enough
  let m₀ : Machine := { enter (some root) m with slice := .ofSteps m.config.sliceSteps }
  have front : m₀.Fronted m.computations (some root) .empty :=
    .mk rfl rfl (Computation.start_sound (P := fun _ => True) trivial _).counted rfl rfl rfl
  have room : m₀.Room (steps + 2 * ys.length + 1) m.graph.free.length :=
    ⟨rfl, ⟨_, rfl, by rw [List.length_cons] at slice; omega⟩, le_rfl⟩
  obtain ⟨e, t, hv⟩ : ∃ e t, m.graph.Holds v (.cons e t) := by
    cases demands with
    | cons hv => exact ⟨_, _, hv⟩
  obtain ⟨f, m', deep, run, altered, room', front', leads⟩ := asks_normalize (m := m₀) (F := F) rfl asks hσ
    sound free distinct hv room front
  have still : ∀ j d, d.symbol ≠ Prelude.standard.guard → d.symbol ≠ Prelude.standard.unify →
      m.graph.Holds j d → m'.graph.Holds j d := fun j d guard unify hj =>
    altered.kept j d (fun asking => (asking d hj).elim guard unify) hj
  rw [show F + ys.length + 6 = (x :: ys).length + 5 + F by rw [List.length_cons]; omega] at run
  refine ⟨f, m', by rw [List.length_cons]; omega, ?_, run⟩
  exact {
    same := by rw [altered.same]
    sound := altered.sound
    pools := altered.pools
    nodes := altered.free
    front := front'
    leads := leads
    free := fun y hy => still _ _ nofun nofun (free y hy)
    demands := demands.mono (fun i => still i _ nofun nofun) (fun i e t => still i _ nofun nofun)
      fun i y _ => still i _ nofun nofun
    room := room' }

/-- Nodes that are enough for so many variables of a type with these constructors. -/
def provision (ctors : List (SymbolId × Nat)) (k : Nat) : Nat :=
  generatorSize ctors * k + 4 * (k + 1) * (rounds (k * ctors.length) (ctors.length - 1) + 1)

namespace Asked

variable {steps f : Nat} (h : Asked m root v type xs steps m')
include h

theorem signature : m'.signature = m.signature := by
  rw [h.same]
  rfl

theorem config : m'.config = m.config := by
  rw [h.same]
  rfl

theorem collections : m'.collections = m.collections := by
  rw [h.same]
  rfl

theorem nextId : m'.nextId = m.nextId := by
  rw [h.same]
  rfl

theorem run (declared : constructorsOf m type = .ok ctors) : constructorsOf m' type = .ok ctors := by
  unfold constructorsOf at declared ⊢
  rwa [h.signature]

/-- Without constructors the list fails, and its frame is dropped. -/
theorem fails (hσ : m.signature.Sound) (declared : constructorsOf m type = .ok [])
    (distinct : (xs.map BoundVar.id).Nodup) (some_ : xs ≠ []) (goes : 3 ≤ steps) (deep : 4 ≤ f) :
    ∃ m₁, Reduction.normalize f v m' = .ok () m₁ ∧ ∀ st, ∃ m'',
      dispatch m₁.depthBound root st m₁ = .ok ({ st with failures := st.failures + 1 }, .again) m'' ∧
      m''.front? = none ∧ m''.collections = m.collections := by
  obtain ⟨x, ys, rfl⟩ := List.exists_cons_of_ne_nil some_
  obtain ⟨F, rfl⟩ := Nat.exists_eq_add_of_le deep
  have hσ' : m'.signature.Sound := h.signature.symm ▸ hσ
  obtain ⟨m₁, run, same, blank, capacity, kept⟩ := list_fails (F := F) (n := 0) hσ' h.sound (h.run declared)
    (h.free x List.mem_cons_self) h.demands (h.room.mono goes le_rfl)
  have short : (x :: ys).length - 1 ≤ m₁.graph.capacity := by
    rw [capacity]
    exact (Nat.sub_le _ _).trans (length_le_capacity h.free distinct)
  have front : m₁.Fronted m.computations (some root) (chained (x :: ys) .empty) :=
    h.front.congr (by rw [same])
  refine ⟨m₁, by rw [Nat.add_comm]; exact run, fun st => ?_⟩
  obtain ⟨m'', dropped, none, collections⟩ :=
    dispatch_fails front (by rw [same]; exact hσ') (h.leads.kept kept) short blank st
  refine ⟨m'', dropped, none, collections.trans ?_⟩
  rw [same]
  exact h.collections

/-- With constructors the search deals out one list for each of them. -/
theorem deals (hσ : m.signature.Sound) (declared : constructorsOf m type = .ok ctors)
    (some_ : ctors ≠ []) (arities : ∀ c ∈ ctors, c.2 < m.graph.pools.size)
    (distinct : (xs.map BoundVar.id).Nodup) (given : ∀ x ∈ xs, x.id < m.nextId) (filled : xs ≠ [])
    (goes : (fieldCount ctors + 5) * (xs.length + 1) ≤ steps) (limit : m.config.stepLimit = none)
    (slice : (fieldCount ctors + 5) * (xs.length + 1) ≤ m.config.sliceSteps)
    (nodes : provision ctors xs.length ≤ m.graph.free.length) (deep : xs.length + 4 ≤ f)
    (enough : xs.length + 4 ≤ fuel) :
    ∃ m₁, Reduction.normalize f v m' = .ok () m₁ ∧ ∀ st,
      ∃ j ≤ rounds (xs.length * ctors.length) (ctors.length - 1), ∃ m'' vs st',
        (∀ turns, proceed (Reduction.normalize fuel) (turns + j) [] (dispatch m₁.depthBound root st m₁) =
          takeTurns (Reduction.normalize fuel) snapshots turns st' vs m'') ∧
        m''.front? = none ∧ m''.collections = m.collections ∧
        List.Forall₂ (fun ctor shown => ∃ terms, terms.length = xs.length ∧
          Variant m.nextId ctor terms shown) ctors vs ∧
        Counts ctors.length (ctors.length - 1) st st' := by
  obtain ⟨x, ys, rfl⟩ := List.exists_cons_of_ne_nil filled
  let Q : Cluster :=
    { start := m', outer := m.computations, node := some root, store := chained (x :: ys) .empty
      vars := x :: ys, type := type, ctors := ctors, base := m.nextId
      spare := 4 * (ys.length + 2) *
        (rounds ((ys.length + 1) * ctors.length) (ctors.length - 1) + 1) }
  have typed : Typed m' type ctors := ⟨h.signature.symm ▸ hσ, h.run declared, fun c hc =>
    .inr (by rw [h.pools]; exact arities c hc)⟩
  have kin : Kin Q := ⟨typed.signature, typed.run, typed.listed, some_, typed.fit, distinct, given⟩
  have binds : Binds Q.store Q.vars := chained_binds (nodes_nodup h.free distinct)
  have untied : (chained (x :: ys) .empty).ties = [] := by
    rw [chained_adds]
    rfl
  have woven : Woven Q [] [] Q.store Q.start := .start h.front h.sound h.free h.nextId.ge untied (by
    show 4 * (ys.length + 2) * _ + generatorSize ctors * (ys.length + 1) ≤ m'.graph.free.length
    rw [h.nodes, Nat.add_comm]
    exact nodes)
  obtain ⟨m₁, run, deals⟩ := list_deals (Q := Q) kin binds woven rfl h.demands rfl h.leads
    (h.config.symm ▸ limit) (h.config.symm ▸ slice) (h.room.mono goes le_rfl) le_rfl deep enough
  refine ⟨m₁, run, fun st => ?_⟩
  obtain ⟨j, le, m'', vs, st', leads, done, collections, shown, counts⟩ := deals st
  exact ⟨j, le, m'', vs, st', leads, done, collections.trans h.collections, shown, counts⟩

end Asked

/-- Variables of one type that a chain of unifications binds to each other enumerate the type together.
For each constructor there is one value, in the order of the constructors: the list of terms that all carry
it, each applied to fresh variables of its own, and while it is handed out, the variables in one position
are bound to each other and to nothing else. The search forks once for each constructor but the last. If
there is no constructor, it fails once. -/
theorem constructors_enumerated_together (sound : m.Sound) (declared : constructorsOf m type = .ok ctors)
    (arities : ∀ c ∈ ctors, c.2 < m.config.arityBound) (pools : m.config.arityBound ≤ m.graph.pools.size)
    (free : ∀ x ∈ xs, m.graph.Holds x.node (freeContent x.id (some type)))
    (distinct : (xs.map BoundVar.id).Nodup) (given : ∀ x ∈ xs, x.id < m.nextId)
    (asks : Asks m.graph v xs root) (demands : Demands m.graph xs v)
    (slice : (fieldCount ctors + 5) * (xs.length + 1) + 2 * xs.length ≤ m.config.sliceSteps)
    (unlimited : m.config.stepLimit = none) (nodes : provision ctors xs.length ≤ m.graph.free.length)
    (enough : xs.length + rounds (xs.length * ctors.length) (ctors.length - 1) + 5 ≤ fuel) :
    ∃ vs steps m', m.evaluate fuel snapshots root [] = ⟨vs, .ok
        { solutions := ctors.length, failures := if ctors = [] then 1 else 0, forks := ctors.length - 1
          steps := steps } m'⟩ ∧
      List.Forall₂ (fun ctor shown => ∃ terms, terms.length = xs.length ∧ Variant m.nextId ctor terms shown)
        ctors vs := by
  obtain ⟨ρ, inv⟩ := sound
  have filled : xs ≠ [] := by
    rintro rfl
    cases asks
  have some_ := List.length_pos_iff.mpr filled
  have room : 5 * 1 ≤ (fieldCount ctors + 5) * (xs.length + 1) :=
    Nat.mul_le_mul (Nat.le_add_left _ _) (Nat.le_add_left _ _)
  obtain ⟨f, m₀, deep, asked, arrived⟩ := asks_arrive inv.signature inv.storage free distinct
    asks demands slice (show xs.length + 5 ≤ fuel by omega)
  rcases eq_or_ne ctors [] with rfl | several
  · obtain ⟨m₁, run, fails⟩ := asked.fails inv.signature declared distinct filled (by omega) (f := f) (by omega)
    obtain ⟨m'', failed, done, collections⟩ := fails { steps := m₁.slice.used }
    have goes : ∀ turns, proceed (Reduction.normalize fuel) (turns + 0) []
        (dispatch m₁.depthBound root { steps := m₁.slice.used } m₁) =
          takeTurns (Reduction.normalize fuel) snapshots turns
            { steps := m₁.slice.used, failures := 1 } [] m'' := fun turns => by
      rw [failed]
      rfl
    have ended := evaluate_of_turn unlimited (arrived.trans run) goes done (by omega)
    rw [collections, Nat.sub_self] at ended
    exact ⟨[], m₁.slice.used, _, ended, .nil⟩
  · obtain ⟨m₁, run, deals⟩ := asked.deals (f := f) inv.signature declared several
      (fun c hc => (arities c hc).trans_le pools) distinct given filled le_rfl unlimited
      ((Nat.le_add_right _ _).trans slice) nodes deep (show xs.length + 4 ≤ fuel by omega)
    obtain ⟨j, le, m'', vs, st', goes, done, collections, shown, n, rfl⟩ := deals { steps := m₁.slice.used }
    have ended := evaluate_of_turn unlimited (arrived.trans run) goes done (by omega)
    simp only [collections, Nat.sub_self, Nat.zero_add] at ended
    exact ⟨vs, m₁.slice.used + n, _, by rw [if_neg several]; exact ended, shown⟩

/-- `x =:= y &> [ensureNotFree x, ensureNotFree y]` for variables of a type with three constructors, of no,
one and three arguments. -/
def pairedShapes : List Operation :=
  let p := Prelude.standard
  [.defineType "Shape" [("Dot", 0), ("Disc", 1), ("Box", 3)], .free (some 7), .free (some 7),
    .make p.ensureNotFree [0], .make p.ensureNotFree [1], .make p.nil [], .make p.cons [3, 4],
    .make p.cons [2, 5], .make p.unify [0, 1], .make p.guard [7, 6]]

/-- Two variables of a type with three constructors have three values together. -/
theorem shapes_enumerated_together : ∃ m vs steps m', Operation.Run (.ofConfig (.fixedPool 512)) m ∧
    m.evaluate 64 snapshots 8 [] =
      ⟨vs, .ok { solutions := 3, failures := 0, forks := 2, steps := steps } m'⟩ ∧
    List.Forall₂ (fun ctor shown => ∃ terms, terms.length = 2 ∧ Variant 2 ctor terms shown)
      [(37, 0), (38, 1), (39, 3)] vs := by
  let p := Prelude.standard
  let contents : List Content := [freeContent 0 (some 7), freeContent 1 (some 7), .demand 0, .demand 1, .nil,
    .cons 3 4, .cons 2 5, .binary p.unify 0 0 1, .binary p.guard 0 7 6]
  have result : (Operation.script (.ofConfig (.fixedPool 512)) pairedShapes).map (fun m =>
      ((List.range 9).map m.graph.content?, m.graph.free)) =
      some (contents.map some, List.range' 9 503) := by
    rw [ofConfig_eq]
    decide +kernel
  have limits : (Operation.script (.ofConfig (.fixedPool 512)) pairedShapes).map (fun m =>
      ((constructorsOf m 7).toOption, m.graph.pools.size, m.nextId, m.config)) =
      some (some [(37, 0), (38, 1), (39, 3)], 50, 2, .fixedPool 512) := by
    rw [ofConfig_eq]
    decide +kernel
  obtain ⟨m, ran, facts⟩ := Option.map_eq_some_iff.mp result
  rw [ran] at limits
  simp only [Option.map_some, Option.some.injEq, Prod.mk.injEq] at facts limits
  obtain ⟨stored, free⟩ := facts
  obtain ⟨listed, pools, next, config⟩ := limits
  have declared : constructorsOf m 7 = .ok [(37, 0), (38, 1), (39, 3)] := by
    generalize constructorsOf m 7 = found at listed
    cases found with
    | error => cases listed
    | ok ctors => exact congrArg Except.ok (Option.some.inj listed)
  have holds : ∀ (i : Nat) (c : Content), contents[i]? = some c → i < 9 → m.graph.Holds i c := by
    intro i c hc lt
    have read := congrArg (fun l => l[i]?) stored
    rw [List.getElem?_map, List.getElem?_map, List.getElem?_range lt, hc] at read
    refine ⟨Option.some.inj read, fun mem => ?_⟩
    rw [free, List.mem_range'_1] at mem
    omega
  have run : Operation.Run (.ofConfig (.fixedPool 512)) m := Operation.Run.start.script ran
  have new : Machine.new (.fixedPool 512) = .ok (.ofConfig (.fixedPool 512)) := rfl
  let xs : List BoundVar := [⟨0, 0⟩, ⟨1, 1⟩]
  have asks : Asks m.graph 6 xs 8 := .guard (holds 8 _ rfl (by decide)) (holds 7 _ rfl (by decide)) (.last _)
  have demands : Demands m.graph xs 6 :=
    .cons (holds 6 _ rfl (by decide)) (holds 2 _ rfl (by decide))
      (.cons (holds 5 _ rfl (by decide)) (holds 3 _ rfl (by decide)) (.nil (holds 4 _ rfl (by decide))))
  have waiting : ∀ x ∈ xs, m.graph.Holds x.node (freeContent x.id (some 7)) ∧ x.id < m.nextId := by
    rw [next]
    intro x hx
    simp only [xs, List.mem_cons, List.not_mem_nil, or_false] at hx
    rcases hx with rfl | rfl
    · exact ⟨holds 0 _ rfl (by decide), by decide⟩
    · exact ⟨holds 1 _ rfl (by decide), by decide⟩
  obtain ⟨vs, steps, m', evaluated, shown⟩ := constructors_enumerated_together (run.sound new) declared
    (by rw [config]; decide) (by rw [config, pools]; decide) (fun x hx => (waiting x hx).1)
    (show (xs.map BoundVar.id).Nodup by decide) (fun x hx => (waiting x hx).2) asks demands
    (by rw [config]; decide) (by rw [config]; rfl) (by rw [free, List.length_range']; decide)
    (show 2 + rounds 6 2 + 5 ≤ 64 by decide)
  rw [next] at shown
  exact ⟨m, vs, steps, m', run, evaluated, shown⟩

end Schedule

end ChoiceGraph
