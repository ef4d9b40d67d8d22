import ChoiceGraph.Proofs.Identifiers

/-! # Identifiers of generators

A variable is narrowed once everything below it has been built, under its own identifier; the fields and
the inner choices of its generator get new ones. A choice is pulled with its identifier. The variables and
the choices that the frame in front then binds and ties to each other are live, so that what the frame
knows of them was issued. -/
namespace ChoiceGraph

/-! ## What is read -/

namespace ConstraintStore

variable {s : ConstraintStore} {varOf : NodeId → Except Fault (Option VarId)} {P : VarId → Prop}
  {u : VarId} {pairs : List (BoundVar × BoundVar)}

/-- A pair is made of the variable that is asked for and of a partner that is recognised. Both ends of
its binding are in the store. -/
theorem pairsOf_named (known : ∀ i z, i ∈ s.nodes → varOf i = .ok (some z) → P z) (hu : P u)
    (run : s.pairsOf varOf u = .ok pairs) :
    ∀ p ∈ pairs, (p.1.node ∈ s.nodes ∧ P p.1.id) ∧ p.2.node ∈ s.nodes ∧ P p.2.id := by
  intro p hp
  obtain ⟨read, reads, run⟩ := except_bind_eq_ok run
  cases run
  obtain ⟨o, ho, hp⟩ := List.mem_filterMap.mp hp
  obtain ⟨b, hb, entry⟩ := mem_of_mapM_ok reads o ho
  obtain ⟨⟨u', b'⟩, stored, same⟩ := List.mem_filterMap.mp (List.mem_of_mem_filter hb)
  simp only at same
  split at same
  · cases same
    obtain ⟨z?, named, entry⟩ := except_bind_eq_ok entry
    cases entry
    obtain ⟨z, rfl, rfl⟩ := Option.map_eq_some_iff.mp hp
    have bound : b.bound ∈ s.nodes := List.mem_flatMap.mpr ⟨_, stored, List.mem_cons_self⟩
    have partner : b.partner ∈ s.nodes :=
      List.mem_flatMap.mpr ⟨_, stored, List.mem_cons_of_mem _ List.mem_cons_self⟩
    exact ⟨⟨bound, hu⟩, partner, known b.partner z partner named⟩
  · cases same

theorem pairsFrom_named (known : ∀ i z, i ∈ s.nodes → varOf i = .ok (some z) → P z) :
    ∀ (rounds : Nat) (seen pending : List VarId) (pairs : List (BoundVar × BoundVar)),
      (∀ u ∈ pending, P u) → s.pairsFrom varOf rounds seen pending = .ok pairs →
      ∀ p ∈ pairs, (p.1.node ∈ s.nodes ∧ P p.1.id) ∧ p.2.node ∈ s.nodes ∧ P p.2.id := by
  intro rounds
  induction rounds with
  | zero =>
    intro seen pending pairs _ run p hp
    cases run
    exact absurd hp List.not_mem_nil
  | succ rounds ih =>
    intro seen pending pairs asked run p hp
    cases pending with
    | nil =>
      cases run
      exact absurd hp List.not_mem_nil
    | cons u pending =>
      obtain ⟨here, first, run⟩ := except_bind_eq_ok run
      obtain ⟨rest, later, run⟩ := except_bind_eq_ok run
      cases run
      have named := pairsOf_named known (asked u List.mem_cons_self) first
      rcases List.mem_append.mp hp with hp | hp
      · exact named p hp
      · refine ih _ _ rest (fun v hv => ?_) later p hp
        rcases List.mem_append.mp hv with hv | hv
        · obtain ⟨q, hq, rfl⟩ := List.mem_map.mp (mem_unseen _ _ v (List.mem_reverse.mp hv))
          exact (named q hq).2.2
        · exact asked v (List.mem_cons_of_mem _ hv)

end ConstraintStore

namespace Reduction

open Eff Machine

variable {m m' : Machine} {ρ : Rank} {root i x y p left right : NodeId} {c d : Content} {k n : Nat}
  {z : VarId} {symbol : SymbolId} {id : ChoiceId} {a b : Generator} {s : ConstraintStore}
  {f : ConstraintStore → ConstraintStore} {fields : List (BoundVar × BoundVar)} {sc : Scope} {S : NodeId → Prop}

theorem variableOf_issued (h : m.Inv [] ρ) (issued : m.Issued) (live : m.Live [] i)
    (run : m.variableOf i = .ok (some z)) : z < m.nextId := by
  obtain ⟨j, c, -, hc, rfl, kind⟩ := read_variable h live run
  exact issued.nodes j c hc (kind.imp_right And.left)

theorem tailWithin_issued (h : m.Inv [] ρ) (issued : m.Issued) : ∀ (bound : Nat) (i : NodeId)
    (a : Generator), m.Live [] i → Generator.tailWithin m.toTermGraph bound i = .ok a →
    ∀ z ∈ a.choices, z < m.nextId := by
  intro bound
  induction bound with
  | zero => exact fun _ _ _ run => nomatch run
  | succ bound ih =>
    intro i a hi run z hz
    obtain ⟨c, hc, fits⟩ := h.fits i hi
    obtain ⟨_, node, -⟩ := TermGraph.node_content (t := m.toTermGraph) hc
    obtain ⟨_, read, run⟩ := except_bind_eq_ok run
    cases node.symm.trans read
    dsimp only at run
    split at run
    · next choice =>
      obtain ⟨symbol, id, l, r, rfl, -⟩ := fits.of_choice (fits.of_choiceSymbol (.inl choice))
      obtain ⟨q, e, skip, leads, -⟩ := h.read_successorSkip (k := 1) hi hc rfl
      obtain ⟨_, -, run⟩ := except_bind_eq_ok run
      obtain ⟨_, read, run⟩ := except_bind_eq_ok run
      cases skip.symm.trans read
      obtain ⟨below, read, run⟩ := except_bind_eq_ok run
      cases run
      rcases List.mem_cons.mp hz with rfl | hz
      · exact issued.nodes i _ hc (.inr rfl)
      · exact ih q below (h.below hi hc (List.mem_cons_of_mem _ List.mem_cons_self) leads).1 read z hz
    · split at run
      · cases run
        exact absurd hz List.not_mem_nil
      · cases run
      · cases run
        exact absurd hz List.not_mem_nil

theorem ofVar_issued (h : m.Inv [] ρ) (issued : m.Issued) (hi : m.Live [] x)
    (run : Generator.ofVar m.toTermGraph x = .ok a) : ∀ z ∈ a.choices, z < m.nextId := by
  intro z hz
  obtain ⟨i, c, skip, leads, hc, -⟩ := h.read_skip hi
  have live := hi.leads leads
  have fits := h.fitsAt live hc
  obtain ⟨_, read, run⟩ := except_bind_eq_ok run
  cases skip.symm.trans read
  obtain ⟨_, read, run⟩ := except_bind_eq_ok run
  cases (TermGraph.symbolId_content hc).symm.trans read
  split at run
  · next narrowed =>
    obtain ⟨symbol, id, l, r, rfl, -⟩ := fits.of_choice (fits.of_choiceSymbol (.inr narrowed))
    obtain ⟨q, e, skip, leads, -⟩ := h.read_successorSkip (k := 1) live hc rfl
    obtain ⟨_, -, run⟩ := except_bind_eq_ok run
    obtain ⟨_, read, run⟩ := except_bind_eq_ok run
    cases skip.symm.trans read
    obtain ⟨below, read, run⟩ := except_bind_eq_ok run
    cases run
    have liveq := (h.below live hc (List.mem_cons_of_mem _ List.mem_cons_self) leads).1
    exact tailWithin_issued h issued _ q below liveq read z hz
  · obtain ⟨tag, -, run⟩ := except_bind_eq_ok run
    split at run
    · cases run
      exact absurd hz List.not_mem_nil
    · cases run
    · cases run
      exact absurd hz List.not_mem_nil

/-! ## What the frame in front comes to know -/

theorem linkConstraints_under {x y : BoundVar} (h : s.Under n) (hx : x.id < n) (hy : y.id < n)
    (ha : ∀ z ∈ a.choices, z < n) (hb : ∀ z ∈ b.choices, z < n)
    (hf : ∀ p ∈ fields, p.1.id < n ∧ p.2.id < n) : (linkConstraints x y a b fields s).Under n := by
  have tied : ((a.choices.zip b.choices).foldl (fun s p => s.tie p.1 p.2) (s.tie x.id y.id)).Under n :=
    List.foldlRecOn _ _ (h.tie hx hy) fun s hs p hp =>
      hs.tie (ha _ (List.of_mem_zip hp).1) (hb _ (List.of_mem_zip hp).2)
  exact List.foldlRecOn fields (fun s p => s.bind p.1 p.2 false) tied fun s hs p hp =>
    hs.bind (hf p hp).1 (hf p hp).2 false

theorem constrained_traced (h : m.Inv [] ρ)
    (under : m.Issued → ∀ s : ConstraintStore, s.Under m.nextId → (f s).Under m.nextId) :
    m.Traced (m.mapInnermost fun c => c.updateConstraints 0 f) := by
  have graph := mapInnermost_graph (m := m) fun c => c.updateConstraints 0 f
  have nextId : (m.mapInnermost fun c => c.updateConstraints 0 f).nextId = m.nextId := by
    unfold mapInnermost
    split <;> rfl
  refine ⟨(Step.plain (graph ▸ .refl _) nextId.ge).stems, fun issued v hv => ?_⟩
  rw [nextId]
  rcases mem_allViews.mp hv with hv | ⟨c, hc, hv⟩
  · rcases constrain_views h f hv with old | ⟨u, old, rfl⟩
    · exact issued.frames v (mem_allViews.mpr (.inl old))
    · have known := issued.frames u (mem_allViews.mpr (.inl old))
      exact ⟨known.decided, under issued _ known.bound⟩
  · rw [mapInnermost_tail] at hc
    exact issued.frames v (mem_allViews.mpr (.inr ⟨c, hc, hv⟩))

theorem bindVars_goes (h : m.Inv [] ρ) (cx : m.graph.content? x = some c)
    (cy : m.graph.content? y = some d) (tx : c.tag = .free) (ty : d.tag = .free) (isLazy : Bool) :
    (bindVars x y isLazy).Goes Traced m := by
  unfold bindVars
  refine goes_read (TermGraph.aux_content cx) (goes_read (TermGraph.aux_content cy) (goes_get ?_))
  split
  · exact constrained_traced h fun issued s under =>
      under.bind (issued.nodes x c cx (.inl tx)) (issued.nodes y d cy (.inl ty)) isLazy
  · exact goes_pure _

theorem link_goes (h : m.Inv [] ρ) {x y : BoundVar} (hx : m.Live [] x.node) (hy : m.Live [] y.node)
    (ids : m.Issued → x.id < m.nextId ∧ y.id < m.nextId) : (link x y).Goes Traced m := by
  unfold link
  refine goes_get ?_
  split
  · exact goes_pure _
  · split
    · exact goes_pure _
    · obtain ⟨a, ra, ha⟩ := ofVar_ok h hx
      obtain ⟨b, rb, hb⟩ := ofVar_ok h hy
      refine goes_read ra (goes_read rb (goes_look_bind fun same _ => ?_))
      split
      · obtain ⟨fields, rf, hf⟩ := allFieldPairs_ok h ha hb
        have named := allFieldPairs_variables rf
        refine goes_read rf (constrained_traced h fun issued s under => ?_)
        refine linkConstraints_under under (ids issued).1 (ids issued).2 (ofVar_issued h issued hx ra)
          (ofVar_issued h issued hy rb) fun p hp => ?_
        exact ⟨variableOf_issued h issued (hf p hp).1 (named p hp).1,
          variableOf_issued h issued (hf p hp).2 (named p hp).2⟩
      · exact goes_pure _

/-! ## Narrowing one variable -/

theorem makeFields_charts : ∀ ids : List NodeId, (∀ i ∈ ids, S i) → (makeFields ids).Moves (Charts S)
  | [], _ => moves_pure ()
  | i :: ids, own => by
    have rest := makeFields_charts ids fun j hj => own j (List.mem_cons_of_mem _ hj)
    have first := (freshFree_charts (own i List.mem_cons_self)).bind fun _ => rest
    rwa [bind_assoc] at first

theorem buildAlternatives_charts : ∀ (ctors : List (SymbolId × Nat)) (fresh : List NodeId),
    (∀ p ∈ ctors, 10 ≤ p.1) → (∀ i ∈ fresh, S i) → (buildAlternatives ctors fresh).Moves (Charts S)
  | [], _, _, _ => moves_pure _
  | _ :: _, [], _, _ => moves_throw _
  | (symbol, arity) :: ctors, node :: fresh, proper, own => by
    have rest : ∀ i ∈ fresh, S i := fun i hi => own i (List.mem_cons_of_mem _ hi)
    refine (makeFields_charts _ fun i hi => rest i (List.mem_of_mem_take hi)).bind fun _ => ?_
    have le : 10 ≤ symbol := proper _ List.mem_cons_self
    refine (rewriteTo_charts (own node List.mem_cons_self) (Builtin.other_of_proper le) _).bind fun _ => ?_
    exact (buildAlternatives_charts ctors _ (fun p hp => proper p (List.mem_cons_of_mem _ hp))
      fun i hi => rest i (List.mem_of_mem_drop hi)).bind fun _ => moves_pure _

theorem nestChoices_charts : ∀ alternatives fresh : List NodeId, (∀ i ∈ fresh, S i) →
    (nestChoices alternatives fresh).Moves (Charts S)
  | [], _, _ => moves_throw _
  | [_], _, _ => moves_pure _
  | alternative :: next :: rest, fresh, own => by
    refine (nestChoices_charts (next :: rest) fresh own).bind_of
      (nestChoices_left (next :: rest) fresh) ?_
    rintro ⟨below, left⟩ sub
    cases left with
    | nil => exact moves_throw _
    | cons node left =>
      have made := (freshChoice_charts (own node (sub List.mem_cons_self)) alternative below).bind
        fun _ => moves_pure (node, left)
      rwa [bind_assoc] at made

theorem instantiate_goes (h : m.Inv [] ρ) (live : m.Live [] x) (hc : m.graph.content? x = some c)
    (tag : c.tag = .free) : (instantiate x).Goes Traced m := by
  unfold instantiate
  refine goes_read (TermGraph.aux_content hc) (goes_read (TermGraph.literal_content hc) ?_)
  rcases (h.fitsAt live hc).of_free tag with ⟨id, rfl⟩ | ⟨id, t, d, hd, rfl⟩
  · exact goes_throw _
  obtain ⟨ctors, run, listed⟩ := constructorsOf_listed h hd
  refine goes_read run ?_
  dsimp only
  split
  · exact ((rewriteFail_writes h.storage (h.lt live)).unnamed Content.blank_not_named).traced.bind
      fun _ _ _ _ => goes_pure _
  have served := allocate_rooted_meets h live.rooted (generatorSize ctors)
  refine Goes.bind (allocate_rooted_tacit h live.rooted _).traced fun ids m₁ requested _ => ?_
  obtain ⟨quiet, -, blank⟩ := served.ok requested
  have h₁ := quiet.inv h
  have live₁ := (quiet.live h).mpr live
  have hc₁ := (quiet.kept x live).trans hc
  have outside : x ∉ ids := fun hi => blank.dead x hi live₁
  have sub : ∀ i, i ∈ ids → i < m₁.graph.capacity := blank.lt
  have building := (buildAlternatives_charts (S := (· ∈ ids)) ctors ids (fun p hp => (listed p hp).1)
    fun _ hi => hi).charted h₁.storage h₁.signature sub
  refine building.charted_traced.bind fun r m₂ built _ => ?_
  have left := buildAlternatives_left ctors ids m₁ r m₂ built
  have drawn := (building.ok built).redrawn.touches
  have hc₂ := (drawn.others x outside (h₁.unfree x live₁)).trans hc₁
  obtain ⟨alternatives, fresh⟩ := r
  dsimp only
  split
  · exact (goes_throw _).bind fun _ _ _ _ => goes_pure _
  · next only =>
    exact ((rewriteForward_writes drawn.sound (Graph.content_lt hc₂) only).unnamed
      (Content.not_named nofun nofun)).traced.bind fun _ _ _ _ => goes_pure _
  · next first rest _ =>
    have nesting := (nestChoices_charts (S := (· ∈ ids)) rest fresh fun i hi => left hi).charted
      drawn.sound (drawn.signature.symm ▸ h₁.signature) fun i hi => drawn.capacity.symm ▸ sub i hi
    refine Goes.bind nesting.charted_traced fun r m₃ nested _ => ?_
    have drawn₃ := (nesting.ok nested).redrawn.touches
    have hc₃ : m₃.graph.content? x = some (freeContent id (some t)) :=
      (drawn₃.others x outside (drawn.unfree x (h₁.unfree x live₁))).trans hc₂
    exact (narrowing_traced drawn₃.sound hc₃ first r.1).bind fun _ _ _ _ => goes_pure _

/-! ## Variables that are bound to each other -/

theorem instantiateEnd_goes (h : m.Inv [] ρ) (hx : m.Live [] x) : (instantiateEnd x).Goes Traced m := by
  obtain ⟨i, c, skip, leads, hc, -⟩ := h.read_skip hx
  unfold instantiateEnd
  refine goes_read skip (goes_read (TermGraph.tag_content hc)
    (goes_read (TermGraph.literal_content hc) ?_))
  split
  · next free =>
    exact (instantiate_goes h (hx.leads leads) hc free.1).bind fun _ _ _ _ => goes_pure _
  · exact goes_pure _

theorem linkPairs_goes : ∀ (pairs : List (BoundVar × BoundVar)) (m : Machine) (ρ : Rank),
    m.Inv [] ρ → (∀ p ∈ pairs, some p.1.node ∈ m.rootSet ∧ some p.2.node ∈ m.rootSet) →
    (∀ p ∈ pairs, p.1.id < m.nextId ∧ p.2.id < m.nextId) → (linkPairs pairs).Goes Traced m := by
  intro pairs
  induction pairs with
  | nil => exact fun m _ _ _ _ => goes_pure (m := m) ()
  | cons p pairs ih =>
    intro m ρ h rooted known
    obtain ⟨hx, hy⟩ := rooted p List.mem_cons_self
    unfold linkPairs
    refine (instantiateEnd_goes h (live_root hx)).bind_keeps (s := .below 0)
      (instantiateEnd_keeps h (live_root hx)) fun _ m₁ ρ₁ ev₁ _ tr₁ => ?_
    have live₁ : m₁.Live [] p.2.node := live_root (ev₁.rootSet hy)
    refine (instantiateEnd_goes ev₁.inv live₁).bind_keeps (s := .below 0) (instantiateEnd_keeps ev₁.inv live₁)
      fun _ m₂ ρ₂ ev₂ _ tr₂ => ?_
    have ev := ev₁.trans ev₂
    have tr := trans_of Traced tr₁ tr₂
    have liveX : m₂.Live [] p.1.node := live_root (ev.rootSet hx)
    have liveY : m₂.Live [] p.2.node := live_root (ev.rootSet hy)
    have below : ∀ m' : Machine, m.Traced m' → ∀ q ∈ p :: pairs, q.1.id < m'.nextId ∧ q.2.id < m'.nextId :=
      fun m' tr q hq => ⟨Nat.lt_of_lt_of_le (known q hq).1 tr.nextId,
        Nat.lt_of_lt_of_le (known q hq).2 tr.nextId⟩
    refine (link_goes ev.inv liveX liveY fun _ => below m₂ tr p List.mem_cons_self).bind_keeps
      (s := .below 0) (link_keeps ev.inv liveX liveY) fun _ m₃ ρ₃ ev₃ _ tr₃ => ?_
    have tr := trans_of Traced tr tr₃
    refine ih m₃ ρ₃ ev₃.inv (fun q hq => ?_) fun q hq => ?_
    · obtain ⟨hx', hy'⟩ := rooted q (List.mem_cons_of_mem _ hq)
      exact ⟨(ev.trans ev₃).rootSet hx', (ev.trans ev₃).rootSet hy'⟩
    · exact below m₃ tr q (List.mem_cons_of_mem _ hq)

theorem bindGenerators_goes (h : m.Inv [] ρ) (issued : m.Issued) (hz : z < m.nextId) :
    (bindGenerators z).Goes Traced m := by
  unfold bindGenerators
  refine goes_get ?_
  split
  · exact goes_pure _
  · next store hs =>
    have live : ∀ i ∈ store.nodes, m.Live [] i := fun i hi => live_root (rootSet_of_front hs hi)
    refine goes_look_bind fun pairs read => ?_
    have named := store.pairsFrom_named (P := (· < m.nextId)) (fun i z hi named =>
      variableOf_issued h issued (live i hi) named) _ _ _ pairs
      (fun u hu => List.mem_singleton.mp hu ▸ hz) read
    refine linkPairs_goes pairs m ρ h (fun p hp => ?_) fun p hp => ?_
    · obtain ⟨⟨hx, -⟩, hy, -⟩ := named p hp
      exact ⟨rootSet_of_front hs hx, rootSet_of_front hs hy⟩
    · obtain ⟨⟨-, hx⟩, -, hy⟩ := named p hp
      exact ⟨hx, hy⟩

/-! ## Narrowing and pulling -/

theorem narrow_goes (h : m.Inv [] ρ) (issued : m.Issued) (live : m.Live [] x)
    (hc : m.graph.content? x = some c) (tag : c.tag = .free) : (narrow x).Goes Traced m := by
  unfold narrow
  refine goes_read (TermGraph.aux_content hc) ?_
  refine (instantiate_goes h live hc tag).bind_keeps (s := .below 0) (instantiate_keeps h live hc tag)
    fun n m₁ ρ₁ ev₁ _ tr₁ => ?_
  split
  · exact bindGenerators_goes ev₁.inv (tr₁.issued issued)
      (Nat.lt_of_lt_of_le (issued.nodes x c hc (.inl tag)) tr₁.nextId)
  · exact goes_pure _

/-- A copy with another link of a node that carries no identifier. -/
theorem copy_meets (sound : m'.graph.Sound) (lt : x < m'.graph.capacity) (tacit : m.Tacit m')
    (unnamed : ¬ c.Named) (l : NodeId) :
    (rewrite x c.tag c.symbol c.aux ((c.links.set k l).map some)).Meets m'
      (fun _ m'' => ∃ g, m'' = m'.setGraph g ∧ m'.graph.Sets x (c.setLink k l) g ∧ m.Tacit m'') m.Tacit := by
  refine (rewrite_writes sound lt c.tag c.symbol c.aux (c.links.set k l)).meets (fun g sets => ?_) tacit
  exact ⟨g, rfl, sets, tacit.names.trans (sets.keepsNames unnamed), tacit.nextId, tacit.views⟩

/-- The node has become the choice, between two copies that carry no identifier. -/
theorem pullTab_meets (h : m.Inv [] ρ) (live : m.Live [] root) (hc : m.graph.content? root = some c)
    (ordinary : c.tag ≠ .choice) (below : m.ChoiceBelow root c k p symbol id left right) :
    (pullTab root k).Meets m (fun _ m' => m'.allViews = m.allViews ∧ ∃ a b,
      pullTab root k m = .ok () m' → m.Pulls root ⟨symbol, id, left, right⟩ c k a b m') m.Tacit := by
  obtain ⟨j, hk, leads⟩ := below.link
  have hj : j ∈ c.links := List.mem_of_getElem? hk
  have unnamed := (h.fitsAt live hc).not_named hk ordinary
  have requested := (allocate_rooted_meets h live.rooted 2).and_goes
    (allocate_rooted_tacit h live.rooted 2)
  refine Meets.bind (requested.mono (fun _ _ h => h) fun _ h => h.2) ?_
  rintro ids m₁ ⟨⟨quiet, length, blank⟩, tacit⟩
  rcases ids with _ | ⟨a, _ | ⟨b, _ | ⟨_, _⟩⟩⟩ <;> cases length
  have h₁ := quiet.inv h
  have live₁ := (quiet.live h).mpr live
  have hc₁ := (quiet.kept root live).trans hc
  have livep := (h.below live hc hj leads).1
  have below₁ : m₁.ChoiceBelow root c k p symbol id left right :=
    ⟨⟨j, hk, quiet.leads (live.link hc hj) leads⟩, (quiet.kept p livep).trans below.content, below.symbol⟩
  have livep₁ := (quiet.live h).mpr livep
  have apart : a ≠ b := by simpa using blank.nodup
  have a_ne : a ≠ root := fun same => blank.dead a List.mem_cons_self (same ▸ live₁)
  have b_ne : b ≠ root := fun same => blank.dead b (List.mem_cons_of_mem _ List.mem_cons_self) (same ▸ live₁)
  obtain ⟨_, nodep, -⟩ := TermGraph.node_content (t := m₁.toTermGraph) below₁.content
  obtain ⟨_, node, -⟩ := TermGraph.node_content (t := m₁.toTermGraph) hc₁
  have set : ∀ l : NodeId, (c.links.map some).set k (some l) = (c.links.set k l).map some :=
    fun l => by rw [List.map_set]
  refine meets_look_bind (choiceBelow_skip h₁ live₁ hc₁ below₁) (meets_look_bind nodep (meets_look_bind
    (h₁.read_successor (k := 0) livep₁ below₁.content rfl) (meets_look_bind
    (h₁.read_successor (k := 1) livep₁ below₁.content rfl) (meets_look_bind node
    (meets_look_bind (h₁.read_successors live₁ hc₁) ?_)))))
  simp only [set]
  -- the two copies
  refine (copy_meets h₁.storage (blank.lt a List.mem_cons_self) tacit unnamed left).bind ?_
  rintro _ _ ⟨g₂, rfl, s₂, t₂⟩
  have lt₂ : b < g₂.capacity := s₂.capacity.symm ▸ blank.lt b (List.mem_cons_of_mem _ List.mem_cons_self)
  refine (copy_meets s₂.sound lt₂ t₂ unnamed right).bind ?_
  rintro _ _ ⟨g₃, rfl, s₃, t₃⟩
  -- the node itself
  have lt₃ : root < g₃.capacity := (s₃.capacity.trans s₂.capacity).symm ▸ Graph.content_lt hc₁
  refine (rewrite_writes (m := m₁.setGraph g₃) s₃.sound lt₃ .choice symbol id [a, b]).meets
    (fun g₄ s₄ => ⟨t₃.views, a, b, fun run => ?_⟩) t₃
  exact {
    run
    held := hc
    unnamed
    below := ⟨j, p, hk, leads, below.content⟩
    pulled := s₄.same
    leftCopy := ((s₄.others a a_ne).trans (s₃.others a apart)).trans s₂.same
    rightCopy := (s₄.others b b_ne).trans s₃.same
    names := fun i d other hd named => t₃.names i d ((s₄.others i other).symm.trans hd) named
    nextId := quiet.nextId }

theorem pullTab_goes (h : m.Inv [] ρ) (live : m.Live [] root) (hc : m.graph.content? root = some c)
    (ordinary : c.tag ≠ .choice) (below : m.ChoiceBelow root c k p symbol id left right) :
    (pullTab root k).Goes Traced m := by
  refine (pullTab_meets h live hc ordinary below).goes (fun _ m' run pulled => ?_)
    fun _ => Tacit.traced
  obtain ⟨views, a, b, pulls⟩ := pulled
  have step : m.Step _ m' := .pull (pulls run)
  exact step.stems.traced views

theorem pullBind_goes (h : m.Inv [] ρ) (issued : m.Issued) (live : m.Live [] root)
    (hc : m.graph.content? root = some c) (ordinary : c.tag ≠ .choice)
    (below : m.ChoiceBelow root c k p symbol id left right) (loose : m.Loose sc ρ root) :
    (pullBind root k).Goes Traced m := by
  unfold pullBind
  refine goes_read (choiceBelow_skip h live hc below)
    (goes_read (TermGraph.aux_content below.content) ?_)
  refine (pullTab_goes h live hc ordinary below).bind_keeps (pullTab_keeps h live hc below loose)
    fun _ m₁ ρ₁ ev₁ _ tr₁ => ?_
  exact bindGenerators_goes ev₁.inv (tr₁.issued issued)
    (Nat.lt_of_lt_of_le (issued.nodes p _ below.content (.inr rfl)) tr₁.nextId)

theorem pull_goes (h : m.Inv [] ρ) (issued : m.Issued) (live : m.Live [] root)
    (hc : m.graph.content? root = some c) (ordinary : c.tag ≠ .choice)
    (below : m.ChoiceBelow root c k p symbol id left right) (loose : m.Loose sc ρ root) :
    (pull root k).Goes Traced m := by
  unfold pull
  refine goes_read (choiceBelow_skip h live hc below)
    (goes_read (TermGraph.symbolId_content below.content) ?_)
  split
  · exact pullBind_goes h issued live hc ordinary below loose
  · exact pullTab_goes h live hc ordinary below

end Reduction

end ChoiceGraph
