import ChoiceGraph.Proofs.Linking

/-! # Narrowing variables together

Variables of one type that bindings connect become generators one after the other, and each pair that is
bound is linked. What holds on the way: a variable is narrowed or as it was; the ties are those between
choices in the same place of generators that are linked, and the bindings those that were there with
those between fields in the same place. In the end every bound pair is linked, so that choices in the
same place form one class. -/
namespace ChoiceGraph

namespace Machine

variable {m : Machine} {outer : List Computation} {l : Link} {s : ConstraintStore}

/-- The innermost search has one frame, for this node, which has decided nothing. -/
inductive Fronted (m : Machine) (outer : List Computation) (l : Link) (s : ConstraintStore) : Prop
  | mk {c : Computation} {f : Frame} (search : m.computations = c :: outer) (queue : c.queue = [f])
    (counted : c.Counted) (node : f.node = l) (fingerprint : c.fingerprintOf f = .empty)
    (store : c.constraintsOf f = s)

theorem Fronted.front (h : m.Fronted outer l s) : m.frontConstraints? = some s := by
  obtain ⟨search, queue, -, -, -, store⟩ := h
  rw [frontConstraints?, search, List.head?_cons, Option.bind_some, Computation.front?, queue,
    List.head?_cons, Option.map_some, store]

theorem Fronted.updated (h : m.Fronted outer l s) (update : ConstraintStore → ConstraintStore) :
    ∃ cs, (m.mapInnermost fun c => c.updateConstraints 0 update) = { m with computations := cs } ∧
      Fronted { m with computations := cs } outer l (update s) := by
  obtain ⟨search, queue, counted, node, fingerprint, store⟩ := h
  obtain ⟨f', updated⟩ := Computation.updateConstraints_updated queue counted update
  obtain ⟨h, rfl⟩ := updated.frame
  refine ⟨_, by simp only [mapInnermost, search], .mk rfl updated.queue updated.counted node ?_ ?_⟩
  · rw [Computation.fingerprintOf, updated.fingerprints]
    exact fingerprint
  · rw [updated.store, store]

end Machine

/-- One of these variables is bound to another one. -/
def ConstraintStore.Joins (s : ConstraintStore) (xs : List BoundVar) (x y : BoundVar) : Prop :=
  x ∈ xs ∧ y ∈ xs ∧ Reduction.tether x y ∈ s.bindings

namespace Reduction

open Eff Machine Graph

/-- Variables of one type in a machine whose innermost search has one frame. -/
structure Cluster where
  start : Machine
  outer : List Computation
  node : Link
  store : ConstraintStore
  vars : List BoundVar
  type : TypeId
  ctors : List (SymbolId × Nat)
  /-- Nodes that nobody needs for narrowing. -/
  spare : Nat
  /-- The identifiers below are not given out again. -/
  base : Nat

/-- The type has these constructors, which the pools have room for, and every variable has an identifier
of its own. -/
structure Kin (Q : Cluster) : Prop where
  signature : Q.start.signature.Sound
  run : constructorsOf Q.start Q.type = .ok Q.ctors
  listed : Listed Q.start Q.ctors
  filled : Q.ctors ≠ []
  fit : ∀ p ∈ Q.ctors, Fitting Q.start p.2
  distinct : (Q.vars.map BoundVar.id).Nodup
  given : ∀ x ∈ Q.vars, x.id < Q.base

/-- One of the two has been linked to the other. -/
def Mates (links : List (Gen × Gen)) (G G' : Gen) : Prop := (G, G') ∈ links ∨ (G', G) ∈ links

/-- Some of the variables are narrowed, and some of the generators are linked. -/
structure Woven (Q : Cluster) (gens : List Gen) (links : List (Gen × Gen)) (s : ConstraintStore)
    (m : Machine) : Prop where
  same : m = { Q.start with graph := m.graph, nextId := m.nextId, computations := m.computations }
  front : m.Fronted Q.outer Q.node s
  sound : m.graph.Sound
  capacity : m.graph.capacity = Q.start.graph.capacity
  pools : m.graph.pools.size = Q.start.graph.pools.size
  kept : ∀ j d, Final d → Q.start.graph.Holds j d → m.graph.Holds j d
  stands : ∀ G ∈ gens, G.Stands m.graph Q.start.signature Q.ctors
  members : ∀ G ∈ gens, G.var ∈ Q.vars
  once : (gens.map Gen.var).Nodup
  pending : ∀ x ∈ Q.vars, (∃ G ∈ gens, G.var = x) ∨
    m.graph.Holds x.node (freeContent x.id (some Q.type))
  distinct : (gens.flatMap Gen.ids).Nodup
  later : Q.base ≤ m.nextId
  fresh : ∀ G ∈ gens, ∀ z ∈ G.ids, Q.base ≤ z ∧ z < m.nextId
  linked : ∀ p ∈ links, p.1 ∈ gens ∧ p.2 ∈ gens
  ties : ∀ p q, s.Tied p q ↔ ∃ (G G' : Gen) (d : Nat), Mates links G G' ∧ G.decisions[d]? = some p ∧
    G'.decisions[d]? = some q
  bindings : ∀ e, e ∈ s.bindings ↔ e ∈ Q.store.bindings ∨
    ∃ (G G' : Gen) (u v : BoundVar), Mates links G G' ∧ (u, v) ∈ G.besides G' ∧ e = tether u v
  room : Q.spare + generatorSize Q.ctors * (Q.vars.length - gens.length) ≤ m.graph.free.length

variable {Q : Cluster} {m m' : Machine} {gens : List Gen} {links : List (Gen × Gen)} {s : ConstraintStore}
  {G G' : Gen} {x y : BoundVar} {a b : ChoiceId} {d : Nat}

namespace Woven

theorem signature (h : Woven Q gens links s m) : m.signature = Q.start.signature := by rw [h.same]

theorem listed (h : Woven Q gens links s m) (kin : Kin Q) : Listed m Q.ctors := by
  have listed := kin.listed
  unfold Listed at listed ⊢
  rwa [h.signature]

/-- Every variable is narrowed at most once. -/
theorem gens_lt (h : Woven Q gens links s m) (hx : x ∈ Q.vars)
    (free : m.graph.Holds x.node (freeContent x.id (some Q.type))) : gens.length < Q.vars.length := by
  have new : x ∉ gens.map Gen.var := fun hx => by
    obtain ⟨G, hG, rfl⟩ := List.mem_map.mp hx
    obtain ⟨d, hd, settled⟩ := (h.stands G hG).held _ List.mem_cons_self
    exact settled.final _ _ (Option.some.inj (hd.symm.trans free.content))
  have within : x :: gens.map Gen.var ⊆ Q.vars := fun y hy => by
    rcases List.mem_cons.mp hy with rfl | hy
    · exact hx
    · obtain ⟨G, hG, rfl⟩ := List.mem_map.mp hy
      exact h.members G hG
  have le := (List.subperm_of_subset (List.nodup_cons.mpr ⟨new, h.once⟩) within).length_le
  rwa [List.length_cons, List.length_map] at le

end Woven

/-- A variable that is left is narrowed. -/
theorem instantiate_woven (kin : Kin Q) (h : Woven Q gens links s m) (hx : x ∈ Q.vars)
    (free : m.graph.Holds x.node (freeContent x.id (some Q.type))) :
    ∃ G m', instantiate x.node m = .ok Q.ctors.length m' ∧ Woven Q (G :: gens) links s m' ∧ G.var = x := by
  have few := h.gens_lt hx free
  have run : constructorsOf m Q.type = .ok Q.ctors :=
    (congrArg (constructorsOf · Q.type) h.same).trans kin.run
  have fit : ∀ p ∈ Q.ctors, Fitting m p.2 := fun p hp => by
    have fit := kin.fit p hp
    unfold Fitting at fit ⊢
    rwa [h.pools]
  have nodes : Q.spare + generatorSize Q.ctors * (Q.vars.length - (gens.length + 1)) +
      generatorSize Q.ctors ≤ m.graph.free.length := by
    have split : Q.vars.length - gens.length = Q.vars.length - (gens.length + 1) + 1 := by omega
    have room := h.room
    rw [split, Nat.mul_succ] at room
    omega
  obtain ⟨G, g, n, narrowed, grown⟩ := instantiate_grown h.sound free run (h.listed kin) kin.filled fit nodes
  have final : ∀ j d, Final d → m.graph.Holds j d → g.Holds j d := fun j d final hj => by
    refine grown.others j d (fun here => ?_) hj
    subst here
    exact final _ _ (hj.eq free)
  refine ⟨G, _, narrowed, ?_, grown.var⟩
  exact {
    same := congrArg (fun m' : Machine => { m' with
      graph := g, nextId := m.nextId + n, computations := m.computations }) h.same
    front := by
      obtain ⟨search, queue, counted, node, fingerprint, store⟩ := h.front
      exact .mk search queue counted node fingerprint store
    sound := grown.sound
    capacity := grown.capacity.trans h.capacity
    pools := grown.pools.trans h.pools
    kept := fun j d hd hj => final j d hd (h.kept j d hd hj)
    stands := by
      refine List.forall_mem_cons.mpr ⟨h.signature ▸ grown.stands, fun G' hG' => ?_⟩
      exact (h.stands G' hG').kept fun j d settled => final j d settled.final
    members := List.forall_mem_cons.mpr ⟨grown.var ▸ hx, h.members⟩
    once := by
      refine List.nodup_cons.mpr ⟨fun mem => ?_, h.once⟩
      obtain ⟨G', hG', var⟩ := List.mem_map.mp mem
      obtain ⟨d, hd, settled⟩ := (h.stands G' hG').held _ List.mem_cons_self
      rw [var, grown.var] at hd
      exact settled.final _ _ (Option.some.inj (hd.symm.trans free.content))
    pending := fun y hy => by
      by_cases here : y = x
      · exact .inl ⟨G, List.mem_cons_self, grown.var.trans here.symm⟩
      rcases h.pending y hy with ⟨G', hG', var⟩ | hfree
      · exact .inl ⟨G', List.mem_cons_of_mem _ hG', var⟩
      · refine .inr (grown.others _ _ (fun node => here ?_) hfree)
        rw [node] at hfree
        have ids := congrArg Content.aux (hfree.eq free)
        exact List.inj_on_of_nodup_map kin.distinct hy hx ids
    distinct := by
      refine List.nodup_append.mpr ⟨grown.distinct, h.distinct, fun z hz z' hz' same => ?_⟩
      obtain ⟨G', hG', hz'⟩ := List.mem_flatMap.mp hz'
      have new := (grown.fresh z hz).1
      have old := (h.fresh G' hG' z' hz').2
      omega
    later := Nat.le_add_right_of_le h.later
    fresh := by
      refine List.forall_mem_cons.mpr ⟨fun z hz => ?_, fun G' hG' z hz => ?_⟩
      · exact ⟨h.later.trans (grown.fresh z hz).1, (grown.fresh z hz).2⟩
      · obtain ⟨old, lt⟩ := h.fresh G' hG' z hz
        exact ⟨old, Nat.lt_add_right n lt⟩
    linked := fun p hp => ⟨List.mem_cons_of_mem _ (h.linked p hp).1, List.mem_cons_of_mem _ (h.linked p hp).2⟩
    ties := h.ties
    bindings := h.bindings
    room := grown.nodes }

/-- A variable that is narrowed already is left as it is. -/
theorem instantiateEnd_narrowed (listed : Listed m Q.ctors) (h : G.Stands m.graph m.signature Q.ctors) :
    instantiateEnd G.var.node m = .ok () m := by
  have encodes := h.encodes
  have terms : ∀ i ∈ G.terms, ∃ c, m.graph.content? i = some c ∧ ∃ index, c.tag = .constructor index := by
    intro i hi
    obtain ⟨c, hc, data, -⟩ := laid_constructs (t := m.toTermGraph) listed h.laid i (G.plain_terms ▸ hi)
    exact ⟨c, hc, data⟩
  generalize G.terms = alternatives at encodes terms
  generalize G.inner = inner at encodes
  generalize G.choices = choices at encodes
  cases encodes with
  | several hv => exact instantiateEnd_idle ⟨hv, h.unfree _ List.mem_cons_self⟩ nofun nofun
  | only hv =>
    obtain ⟨c, hc, index, tag⟩ := terms _ List.mem_cons_self
    refine (bind_ok (look_ok (TermGraph.skip_forward (t := m.toTermGraph) hv hc (by rw [tag]; nofun)))).trans
      ((bind_ok (look_ok (TermGraph.tag_content (t := m.toTermGraph) hc))).trans
        ((bind_ok (look_ok (TermGraph.literal_content (t := m.toTermGraph) hc))).trans ?_))
    rw [if_neg fun both => by rw [tag] at both; cases both.1]
    rfl

theorem instantiateEnd_woven (kin : Kin Q) (h : Woven Q gens links s m) (hx : x ∈ Q.vars) :
    ∃ gens' m', instantiateEnd x.node m = .ok () m' ∧ Woven Q gens' links s m' ∧ gens ⊆ gens' ∧
      ∃ G ∈ gens', G.var = x := by
  rcases h.pending x hx with ⟨G, hG, rfl⟩ | free
  · exact ⟨gens, m, instantiateEnd_narrowed (h.listed kin) (h.signature ▸ h.stands G hG), h,
      List.Subset.refl _, G, hG, rfl⟩
  · obtain ⟨G, m', narrowed, woven, var⟩ := instantiate_woven kin h hx free
    refine ⟨G :: gens, m', ?_, woven, List.subset_cons_self _ _, G, List.mem_cons_self, var⟩
    refine (bind_ok (look_ok (TermGraph.skip_self (t := m.toTermGraph) free.content nofun))).trans
      ((bind_ok (look_ok (TermGraph.tag_content (t := m.toTermGraph) free.content))).trans
        ((bind_ok (look_ok (TermGraph.literal_content (t := m.toTermGraph) free.content))).trans ?_))
    rw [if_pos ⟨rfl, rfl⟩]
    exact bind_ok narrowed

/-! ## Linking two variables -/

theorem mem_zip_iff {α β : Type} {l : List α} {l' : List β} {p : α × β} :
    p ∈ l.zip l' ↔ ∃ d : Nat, l[d]? = some p.1 ∧ l'[d]? = some p.2 := by
  rw [List.mem_iff_getElem?]
  exact exists_congr fun d => List.getElem?_zip_eq_some

theorem Mates.symm (h : Mates links G G') : Mates links G' G := Or.symm h

instance : Std.Symm (Mates links) := ⟨fun _ _ => Mates.symm⟩

theorem mates_cons {H H' : Gen} : Mates ((G, G') :: links) H H' ↔
    Mates links H H' ∨ (H = G ∧ H' = G') ∨ (H = G' ∧ H' = G) := by
  simp only [Mates, List.mem_cons, Prod.mk.injEq]
  tauto

namespace Woven

/-- A generator is known by its variable. -/
theorem eq_of_var (h : Woven Q gens links s m) (hG : G ∈ gens) (hG' : G' ∈ gens) (var : G.var = G'.var) :
    G = G' := List.inj_on_of_nodup_map h.once hG hG' var

/-- The outermost choice of a generator is in no other place. -/
theorem eq_of_decision (kin : Kin Q) (h : Woven Q gens links s m) (hG : G ∈ gens) (hG' : G' ∈ gens)
    (at_ : G'.decisions[d]? = some G.var.id) : G' = G := by
  cases d with
  | zero =>
    refine h.eq_of_var hG' hG ?_
    exact List.inj_on_of_nodup_map kin.distinct (h.members G' hG') (h.members G hG) (Option.some.inj at_)
  | succ d =>
    have inner : G.var.id ∈ G'.ids := List.mem_append_right _ (List.mem_of_getElem? at_)
    exact absurd (h.fresh G' hG' _ inner).1 (Nat.not_le_of_lt (kin.given _ (h.members G hG)))

theorem mates_mem (h : Woven Q gens links s m) (mates : Mates links G G') : G ∈ gens ∧ G' ∈ gens :=
  mates.elim (h.linked _) fun hp => (h.linked _ hp).symm

/-- Two variables are tied just when their generators are linked. -/
theorem mates_of_tied (kin : Kin Q) (h : Woven Q gens links s m) (hG : G ∈ gens) (hG' : G' ∈ gens)
    (tied : s.Tied G.var.id G'.var.id) : Mates links G G' := by
  obtain ⟨H, H', d, mates, left, right⟩ := (h.ties _ _).mp tied
  obtain ⟨hH, hH'⟩ := h.mates_mem mates
  rwa [h.eq_of_decision kin hG hH left, h.eq_of_decision kin hG' hH' right] at mates

end Woven

theorem link_woven (kin : Kin Q) (h : Woven Q gens links s m) (hG : G ∈ gens) (hG' : G' ∈ gens) :
    ∃ links' s' m', link G.var G'.var m = .ok () m' ∧ Woven Q gens links' s' m' ∧ links ⊆ links' ∧
      Mates links' G G' := by
  by_cases tied : s.Tied G.var.id G'.var.id
  · exact ⟨links, s, m, link_idle h.front.front tied, h, List.Subset.refl _, h.mates_of_tied kin hG hG' tied⟩
  have linked := link_links (h.signature.symm ▸ kin.signature) (h.listed kin) (h.signature ▸ h.stands G hG)
    (h.signature ▸ h.stands G' hG') h.front.front tied
  obtain ⟨cs, changed, front⟩ := h.front.updated
    (linkConstraints G.var G'.var ⟨G.choices, G.terms⟩ ⟨G'.choices, G'.terms⟩ (G.besides G'))
  rw [linkConstraints_adds] at front
  refine ⟨(G, G') :: links, ⟨s.bindings ++ (G.besides G').flatMap fun p => [tether p.1 p.2, tether p.2 p.1],
    (s.tieAll (G.decisions.zip G'.decisions)).ties⟩, { m with computations := cs },
    linked.trans (congrArg (EStateM.Result.ok ()) changed), ?_, List.subset_cons_self _ _,
    .inl List.mem_cons_self⟩
  exact { h with
    same := congrArg (fun m' : Machine => { m' with
      graph := m.graph, nextId := m.nextId, computations := cs }) h.same
    front := front
    linked := List.forall_mem_cons.mpr ⟨⟨hG, hG'⟩, h.linked⟩
    ties := fun p q => by
      refine ConstraintStore.tieAll_tied.trans ?_
      rw [h.ties, ConstraintStore.symmGen_paired, mem_zip_iff, mem_zip_iff]
      constructor
      · rintro (⟨H, H', d, mates, at_⟩ | ⟨d, at_⟩ | ⟨d, at_⟩)
        · exact ⟨H, H', d, mates_cons.mpr (.inl mates), at_⟩
        · exact ⟨G, G', d, mates_cons.mpr (.inr (.inl ⟨rfl, rfl⟩)), at_⟩
        · exact ⟨G', G, d, mates_cons.mpr (.inr (.inr ⟨rfl, rfl⟩)), at_.symm⟩
      · rintro ⟨H, H', d, mates, at_⟩
        rcases mates_cons.mp mates with old | ⟨rfl, rfl⟩ | ⟨rfl, rfl⟩
        · exact .inl ⟨H, H', d, old, at_⟩
        · exact .inr (.inl ⟨d, at_⟩)
        · exact .inr (.inr ⟨d, at_.symm⟩)
    bindings := fun e => by
      rw [List.mem_append, h.bindings, List.mem_flatMap, or_assoc]
      refine or_congr_right ?_
      constructor
      · rintro (⟨H, H', u, v, mates, beside, rfl⟩ | ⟨p, beside, he⟩)
        · exact ⟨H, H', u, v, mates_cons.mpr (.inl mates), beside, rfl⟩
        · rcases List.mem_cons.mp he with rfl | he
          · exact ⟨G, G', p.1, p.2, mates_cons.mpr (.inr (.inl ⟨rfl, rfl⟩)), beside, rfl⟩
          · cases List.mem_singleton.mp he
            exact ⟨G', G, p.2, p.1, mates_cons.mpr (.inr (.inr ⟨rfl, rfl⟩)), Gen.besides_comm.mp beside, rfl⟩
      · rintro ⟨H, H', u, v, mates, beside, rfl⟩
        rcases mates_cons.mp mates with old | ⟨rfl, rfl⟩ | ⟨rfl, rfl⟩
        · exact .inl ⟨H, H', u, v, old, beside, rfl⟩
        · exact .inr ⟨(u, v), beside, List.mem_cons_self⟩
        · exact .inr ⟨(v, u), Gen.besides_comm.mp beside, List.mem_cons_of_mem _ List.mem_cons_self⟩ }

theorem linkPairs_woven (kin : Kin Q) : ∀ (pairs : List (BoundVar × BoundVar)) (m : Machine)
    (gens : List Gen) (links : List (Gen × Gen)) (s : ConstraintStore), Woven Q gens links s m →
      (∀ p ∈ pairs, p.1 ∈ Q.vars ∧ p.2 ∈ Q.vars) →
      ∃ gens' links' s' m', linkPairs pairs m = .ok () m' ∧ Woven Q gens' links' s' m' ∧ gens ⊆ gens' ∧
        links ⊆ links' ∧ ∀ p ∈ pairs, ∃ G ∈ gens', ∃ G' ∈ gens', G.var = p.1 ∧ G'.var = p.2 ∧
          Mates links' G G' := by
  intro pairs
  induction pairs with
  | nil =>
    exact fun m gens links s h _ => ⟨gens, links, s, m, rfl, h, List.Subset.refl _, List.Subset.refl _,
      fun p hp => absurd hp List.not_mem_nil⟩
  | cons p pairs ih =>
    intro m gens links s h all
    obtain ⟨hx, hy⟩ := all p List.mem_cons_self
    obtain ⟨gens₁, m₁, first, woven₁, grown₁, G, hG, var⟩ := instantiateEnd_woven kin h hx
    obtain ⟨gens₂, m₂, second, woven₂, grown₂, G', hG', var'⟩ := instantiateEnd_woven kin woven₁ hy
    obtain ⟨links₃, s₃, m₃, third, woven₃, grown₃, mates⟩ := link_woven kin woven₂ (grown₂ hG) hG'
    obtain ⟨gens', links', s', m', rest, woven', grown, more, paired⟩ := ih m₃ gens₂ links₃ s₃ woven₃
      fun q hq => all q (List.mem_cons_of_mem _ hq)
    rw [var, var'] at third
    refine ⟨gens', links', s', m', ?_, woven', fun z hz => grown (grown₂ (grown₁ hz)),
      fun z hz => more (grown₃ hz), List.forall_mem_cons.mpr ⟨?_, paired⟩⟩
    · calc linkPairs (p :: pairs) m
          = _ := (bind_ok first).trans (bind_ok second)
        _ = _ := bind_ok third
        _ = _ := rest
    · exact ⟨G, grown (grown₂ hG), G', grown hG', var, var', mates.imp (@more _) (@more _)⟩

/-! ## Narrowing all that are bound -/

/-- The store binds these variables to each other, both ways, and nothing else. -/
structure Binds (s : ConstraintStore) (xs : List BoundVar) : Prop where
  ends : ∀ e ∈ s.bindings, ∃ x ∈ xs, ∃ y ∈ xs, e = tether x y
  back : ∀ x ∈ xs, ∀ y ∈ xs, tether x y ∈ s.bindings → tether y x ∈ s.bindings
  loopless : ∀ x ∈ xs, tether x x ∉ s.bindings
  connected : ∀ x ∈ xs, ∀ y ∈ xs, Relation.ReflTransGen (s.Joins xs) x y

/-- All variables are narrowed, those that are bound are linked, and links connect all generators. -/
structure Complete (Q : Cluster) (gens : List Gen) (links : List (Gen × Gen)) : Prop where
  all : ∀ x ∈ Q.vars, ∃ G ∈ gens, G.var = x
  bound : ∀ x y, Q.store.Joins Q.vars x y → ∃ H ∈ gens, ∃ H' ∈ gens, H.var = x ∧ H'.var = y ∧
    Mates links H H'
  connected : ∀ G ∈ gens, ∀ G' ∈ gens, Relation.ReflTransGen (Mates links) G G'

/-- Of a node that was a variable, no other variable is read. -/
theorem Woven.reads (kin : Kin Q) (h : Woven Q gens links s m) (hx : x ∈ Q.vars) :
    ∃ o, m.variableOf x.node = .ok o ∧ ∀ z ∈ o, z = x.id := by
  rcases h.pending x hx with ⟨G, hG, rfl⟩ | free
  · have stands := h.signature ▸ h.stands G hG
    have encodes := stands.encodes
    have terms : ∀ i ∈ G.terms, ∃ c, m.graph.content? i = some c ∧ c.tag ≠ .forward ∧
        c.symbol ≠ Builtin.free ∧ c.symbol ≠ Builtin.narrowed := by
      intro i hi
      obtain ⟨c, hc, ⟨index, tag⟩, le⟩ :=
        laid_constructs (t := m.toTermGraph) (h.listed kin) stands.laid i (G.plain_terms ▸ hi)
      refine ⟨c, hc, by rw [tag]; nofun, fun same => ?_, fun same => ?_⟩
      · rw [same] at le
        exact absurd le (by decide)
      · rw [same] at le
        exact absurd le (by decide)
    generalize G.terms = alternatives at encodes terms
    generalize G.inner = inner at encodes
    generalize G.choices = choices at encodes
    cases encodes with
    | several hv =>
      exact ⟨some G.var.id, variableOf_alternative ⟨hv, stands.unfree _ List.mem_cons_self⟩,
        fun z hz => (Option.some.inj hz).symm⟩
    | only hv =>
      obtain ⟨c, hc, tag, free, narrowed⟩ := terms _ List.mem_cons_self
      obtain ⟨slots, node, -⟩ := TermGraph.node_content (t := m.toTermGraph) hc
      refine ⟨none, ?_, nofun⟩
      simp only [TermGraph.variableOf, TermGraph.skip_forward (t := m.toTermGraph) hv hc tag, node, bind,
        Except.bind, free, narrowed, or_self, if_false]
      rfl
  · exact ⟨some x.id, Gen.variableOf_free free.content, fun z hz => (Option.some.inj hz).symm⟩

/-- Once one variable has been narrowed, all that are bound to it follow. -/
theorem bindGenerators_woven (kin : Kin Q) (binds : Binds Q.store Q.vars)
    (h : Woven Q [G] [] Q.store m) : ∃ gens links s m', bindGenerators G.var.id m = .ok () m' ∧
      Woven Q gens links s m' ∧ Complete Q gens links := by
  have hG : G.var ∈ Q.vars := h.members G List.mem_cons_self
  have readable : Q.store.Readable m.variableOf fun z => ∃ x ∈ Q.vars, x.id = z := by
    intro z b _ hb _
    obtain ⟨x, -, y, hy, same⟩ := binds.ends _ hb
    cases same
    obtain ⟨o, read, all⟩ := h.reads kin hy
    exact ⟨o, read, fun z hz => ⟨y, hy, (all z hz).symm⟩⟩
  obtain ⟨pairs, run, mem⟩ := ConstraintStore.boundPairs_exact readable ⟨G.var, hG, rfl⟩
  have within : ∀ p ∈ pairs, p.1 ∈ Q.vars ∧ p.2 ∈ Q.vars := by
    intro p hp
    obtain ⟨z, -, b, z', hb, -, read, rfl⟩ := (mem p).mp hp
    obtain ⟨x, hx, y, hy, same⟩ := binds.ends _ hb
    cases same
    obtain ⟨o, read', all⟩ := h.reads kin hy
    cases read'.symm.trans read
    cases all z' rfl
    exact ⟨hx, hy⟩
  have next : ∀ x y, tether x y ∈ Q.store.bindings → y ∈ Q.vars → y ≠ G.var →
      Q.store.PairAt m.variableOf x.id (x, y) := by
    intro x y hb hy other
    rcases h.pending y hy with ⟨G', hG', var⟩ | free
    · cases List.mem_singleton.mp hG'
      exact absurd var.symm other
    · exact ⟨_, y.id, hb, rfl, Gen.variableOf_free free.content, rfl⟩
  have reached : ∀ y, Relation.ReflTransGen (Q.store.Joins Q.vars) G.var y →
      Relation.ReflTransGen (Q.store.Next m.variableOf) G.var.id y.id := by
    intro y path
    induction path with
    | refl => exact .refl
    | @tail y z _ step ih =>
      by_cases here : z = G.var
      · rw [here]
      · exact ih.tail ⟨(y, z), next y z step.2.2 step.2.1 here, rfl⟩
  obtain ⟨gens, links, s, m', linked, woven, grown, -, paired⟩ :=
    linkPairs_woven kin pairs m [G] [] Q.store h within
  have hG' : G ∈ gens := grown List.mem_cons_self
  have near : ∀ x y, Q.store.Joins Q.vars x y → ∃ H ∈ gens, ∃ H' ∈ gens, H.var = x ∧ H'.var = y ∧
      Mates links H H' := by
    rintro x y ⟨hx, hy, hb⟩
    have found : ∀ x y, tether x y ∈ Q.store.bindings → x ∈ Q.vars → y ∈ Q.vars → y ≠ G.var →
        (x, y) ∈ pairs := fun x y hb hx hy other =>
      (mem (x, y)).mpr ⟨x.id, reached x (binds.connected _ hG x hx), next x y hb hy other⟩
    by_cases here : y = G.var
    · have other : x ≠ G.var := fun same => binds.loopless x hx (by rwa [here, ← same] at hb)
      obtain ⟨H, hH, H', hH', left, right, mates⟩ := paired _ (found y x (binds.back x hx y hy hb) hy hx other)
      exact ⟨H', hH', H, hH, right, left, mates.symm⟩
    · exact paired _ (found x y hb hx hy here)
  have along : ∀ y, Relation.ReflTransGen (Q.store.Joins Q.vars) G.var y →
      ∃ H ∈ gens, H.var = y ∧ Relation.ReflTransGen (Mates links) G H := by
    intro y path
    induction path with
    | refl => exact ⟨G, hG', rfl, .refl⟩
    | @tail y z _ step ih =>
      obtain ⟨H, hH, rfl, path⟩ := ih
      obtain ⟨H₁, hH₁, H', hH', var, rfl, mates⟩ := near _ _ step
      cases woven.eq_of_var hH₁ hH var
      exact ⟨H', hH', rfl, path.tail mates⟩
  have from_ : ∀ H ∈ gens, Relation.ReflTransGen (Mates links) G H := by
    intro H hH
    obtain ⟨H', hH', var, path⟩ := along H.var (binds.connected _ hG _ (woven.members H hH))
    rwa [← woven.eq_of_var hH' hH var]
  refine ⟨gens, links, s, m', ?_, woven, fun x hx => ?_, near, fun H hH H' hH' => ?_⟩
  · refine (bind_ok (show (get : Eff Machine) m = .ok m m from rfl)).trans ?_
    rw [h.front.front]
    exact (bind_ok (look_ok run)).trans linked
  · obtain ⟨H, hH, var, -⟩ := along x (binds.connected _ hG x hx)
    exact ⟨H, hH, var⟩
  · exact (Std.Symm.symm _ _ (from_ H hH)).trans (from_ H' hH')

end Reduction

end ChoiceGraph
