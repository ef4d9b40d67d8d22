import ChoiceGraph.Proofs.Bindings
import ChoiceGraph.Proofs.Determinacy

/-! # What variables are narrowed to

A variable of a type with several constructors becomes a choice that carries its identifier, one of a
type without constructors becomes a failure. Only where there is exactly one constructor, a variable
becomes a value again: an indirection to that constructor, applied to variables of no type. -/
namespace ChoiceGraph

/-- What a variable has become that was narrowed to `n` constructors. -/
inductive Graph.Generates (g : Graph) (x : NodeId) (id : VarId) : Nat → Prop where
  | failure {c : Content} (h : g.content? x = some c) (tag : c.tag = .failure) : Generates g x id 0
  | only {a : NodeId} {symbol aux : Nat} {d : Content}
    (h : g.content? x = some ⟨.forward, symbol, aux, .links [a]⟩) (hd : g.content? a = some d)
    (data : d.IsData) (fields : ∀ j ∈ d.links, ∃ z, g.content? j = some (Eff.freeContent z none)) :
    Generates g x id 1
  | choice {c : Content} {n : Nat} (h : g.content? x = some c) (tag : c.tag = .choice)
    (symbol : c.symbol = Builtin.narrowed) (own : c.aux = id) : Generates g x id (n + 2)

namespace Graph

variable {g : Graph} {x : NodeId} {id n : Nat}

theorem Generates.anchors (h : g.Generates x id n) : g.Anchors id x := by
  cases h with
  | failure h tag => exact .failure h tag
  | only h hd data fields => exact .forward h (.data hd data fields)
  | choice h tag symbol own => exact .narrowed h tag symbol own

theorem Generates.value (h : g.Generates x id 1) : g.Value x := by
  cases h with
  | only h hd data fields =>
    refine .forward h (.data hd data fun j hj => ?_)
    obtain ⟨z, free⟩ := fields j hj
    exact .atom free (.inl rfl)

theorem Generates.spoils {t : TermGraph} (h : t.graph.Generates x id n) (many : n ≠ 1) :
    t.Spoiled x := by
  cases h with
  | failure h tag => exact .of_content h (.inl tag)
  | only => exact absurd rfl many
  | choice h tag => exact .of_content h (.inr tag)

end Graph

namespace Machine

variable {m m' : Machine} {i x : NodeId} {id n : Nat} {type : TypeId} {y : VarId}

/-- Narrowing a variable keeps all anchors, that of the variable included. -/
theorem Edited.anchors_generated (e : m.Edited x m')
    (hc : m.graph.content? x = some (Eff.freeContent id (some type)))
    (generates : m'.graph.Generates x id n) (live : m.Live [] i) (h : m.graph.Anchors y i) :
    m'.graph.Anchors y i := by
  refine h.carry (S := m.Live []) live (fun _ _ live hc _ hq => live.link hc hq) ?_ ?_
  · intro p z hp free
    refine (e.others p hp ?_).trans free
    rintro rfl
    cases hc.symm.trans free
  · intro p c hp hp' anchors
    by_cases here : p = x
    · subst here
      cases hc.symm.trans hp'
      obtain rfl : id = y := anchors.id hc (.inl rfl)
      exact .inr generates.anchors
    · exact .inl ((e.others p hp here).trans hp')

/-- Narrowing a variable to a single constructor keeps all values. -/
theorem Edited.value_generated (e : m.Edited x m') (generates : m'.graph.Generates x id 1)
    (live : m.Live [] i) (h : m.graph.Value i) : m'.graph.Value i := by
  refine h.carry (S := m.Live []) live (fun _ _ live hc _ hq => live.link hc hq) ?_
  intro p c hp hc _ _
  by_cases here : p = x
  · subst here
    exact .inr generates.value
  · exact .inl ((e.others p hp here).trans hc)

end Machine

namespace Eff

open Machine

variable {α β : Type} {R : Machine → Machine → Prop} {e : Eff α} {f : α → Eff β} {m m' : Machine}
  {stop : Stop}

theorem bind_eq_error (run : (e >>= f) m = .error stop m') :
    e m = .error stop m' ∨ ∃ a m₁, e m = .ok a m₁ ∧ f a m₁ = .error stop m' := by
  cases first : e m with
  | ok a m₁ => exact .inr ⟨a, m₁, rfl, (bind_ok first).symm.trans run⟩
  | error stop' m₁ =>
    cases (bind_error first).symm.trans run
    exact .inl rfl

theorem look_bind_eq_error {r : Machine → Except Fault α}
    (run : (look r >>= f) m = .error stop m') : m' = m ∨ ∃ a, r m = .ok a ∧ f a m = .error stop m' := by
  rcases bind_eq_error run with failed | ⟨a, m₁, read, rest⟩
  · unfold look at failed
    split at failed
    · cases failed
    · cases failed
      exact .inl rfl
  · obtain ⟨value, rfl⟩ := look_eq_ok read
    exact .inr ⟨a, value, rest⟩

/-- What the first effect returns matters to the second one. -/
theorem Moves.bind_of [IsPreorder Machine R] {P : α → Prop} (h : e.Moves R)
    (returns : ∀ m a m', e m = .ok a m' → P a) (hf : ∀ a, P a → (f a).Moves R) :
    (e >>= f).Moves R := by
  intro m
  cases run : e m with
  | ok a m' =>
    rw [bind_ok run]
    have moved := hf a (returns m a m' run)
    cases run' : f a m' with
    | ok b m'' => exact trans_of R (h.ok run) (moved.ok run')
    | error stop m'' => exact trans_of R (h.ok run) (moved.error run')
  | error stop m' =>
    rw [bind_error run]
    exact h.error run

end Eff

namespace Reduction

open Eff Machine

variable {m m' : Machine} {ρ : Rank} {x : NodeId} {S : NodeId → Prop} {n id : Nat} {type : TypeId}
  {d : DataType} {stop : Stop}

/-! ## Building the generator -/

theorem makeFields_redraws : ∀ ids : List NodeId, (∀ i ∈ ids, S i) →
    (makeFields ids).Moves (Redraws S)
  | [], _ => moves_pure ()
  | i :: ids, own =>
    freshId_redraws.bind fun id => (rewriteFree_redraws (own i List.mem_cons_self) id).bind fun _ =>
      makeFields_redraws ids fun j hj => own j (List.mem_cons_of_mem _ hj)

theorem buildAlternatives_redraws : ∀ (ctors : List (SymbolId × Nat)) (fresh : List NodeId),
    (∀ i ∈ fresh, S i) → (buildAlternatives ctors fresh).Moves (Redraws S)
  | [], _, _ => moves_pure _
  | _ :: _, [], _ => moves_throw _
  | (symbol, arity) :: ctors, node :: fresh, own => by
    have rest : ∀ i ∈ fresh, S i := fun i hi => own i (List.mem_cons_of_mem _ hi)
    refine (makeFields_redraws _ fun i hi => rest i (List.mem_of_mem_take hi)).bind fun _ => ?_
    refine (rewriteTo_redraws (own node List.mem_cons_self) symbol _).bind fun _ => ?_
    exact (buildAlternatives_redraws ctors _ fun i hi => rest i (List.mem_of_mem_drop hi)).bind
      fun _ => moves_pure _

theorem buildAlternatives_left : ∀ (ctors : List (SymbolId × Nat)) (fresh : List NodeId)
    (m : Machine) (r : List NodeId × List NodeId) (m' : Machine),
    buildAlternatives ctors fresh m = .ok r m' → r.2 ⊆ fresh := by
  intro ctors
  induction ctors with
  | nil =>
    intro fresh m r m' run
    cases run
    exact List.Subset.refl _
  | cons ctor ctors ih =>
    obtain ⟨symbol, arity⟩ := ctor
    intro fresh m r m' run
    cases fresh with
    | nil => cases run
    | cons node fresh =>
      obtain ⟨_, m₁, -, run⟩ := bind_eq_ok run
      obtain ⟨_, m₂, -, run⟩ := bind_eq_ok run
      obtain ⟨⟨alternatives, left⟩, m₃, built, run⟩ := bind_eq_ok run
      cases run
      exact fun i hi => List.mem_cons_of_mem _ (List.mem_of_mem_drop (ih _ _ _ _ built hi))

theorem nestChoices_left : ∀ (alternatives fresh : List NodeId) (m : Machine)
    (r : NodeId × List NodeId) (m' : Machine),
    nestChoices alternatives fresh m = .ok r m' → r.2 ⊆ fresh := by
  intro alternatives
  induction alternatives with
  | nil =>
    intro fresh m r m' run
    cases run
  | cons alternative rest ih =>
    intro fresh m r m' run
    cases rest with
    | nil =>
      cases run
      exact List.Subset.refl _
    | cons next rest =>
      obtain ⟨⟨below, left⟩, m₁, nested, run⟩ := bind_eq_ok run
      have sub := ih _ _ _ _ nested
      cases left with
      | nil => cases run
      | cons node left =>
        obtain ⟨id, m₂, -, run⟩ := bind_eq_ok run
        obtain ⟨_, m₃, -, run⟩ := bind_eq_ok run
        cases run
        exact fun i hi => sub (List.mem_cons_of_mem _ hi)

theorem nestChoices_redraws : ∀ alternatives fresh : List NodeId, (∀ i ∈ fresh, S i) →
    (nestChoices alternatives fresh).Moves (Redraws S)
  | [], _, _ => moves_throw _
  | [_], _, _ => moves_pure _
  | _ :: next :: rest, fresh, own => by
    refine (nestChoices_redraws (next :: rest) fresh own).bind_of
      (nestChoices_left (next :: rest) fresh) ?_
    rintro ⟨below, left⟩ sub
    cases left with
    | nil => exact moves_throw _
    | cons node left =>
      refine freshId_redraws.bind fun id => ?_
      exact (rewrite_redraws (own node (sub List.mem_cons_self)) _ _ _ _).bind fun _ => moves_pure _

/-- Narrowing edits the variable, however it ends. -/
theorem instantiate_edits (x : NodeId) : (instantiate x).Moves (Edits x) := by
  refine edits_read fun id => edits_read fun literal => ?_
  split
  · refine edits_read fun ctors => ?_
    split
    · exact Moves.edits ((rewriteFail_redraws (only_self x)).bind fun _ => moves_pure _)
    · refine allocateBeside_edits _ fun fresh => ?_
      refine (buildAlternatives_redraws ctors fresh fun i hi => .inr hi).bind_of
        (buildAlternatives_left ctors fresh) ?_
      rintro ⟨alternatives, left⟩ sub
      dsimp only at sub ⊢
      split
      · exact (moves_throw _).bind fun _ => moves_pure _
      · exact (rewriteForward_redraws (.inl rfl) _).bind fun _ => moves_pure _
      · refine (nestChoices_redraws _ left fun i hi => .inr (sub hi)).bind fun nested => ?_
        exact (rewrite_redraws (.inl rfl) _ _ _ _).bind fun _ => moves_pure _
  · exact edits_throw _

/-! ## What it is -/

theorem makeFields_fills : ∀ (ids : List NodeId) (m m' : Machine), m.graph.Sound → ids.Nodup →
    (∀ i ∈ ids, i < m.graph.capacity ∧ i ∉ m.graph.free) → makeFields ids m = .ok () m' →
    ∀ i ∈ ids, ∃ z, m'.graph.content? i = some (freeContent z none) := by
  intro ids
  induction ids with
  | nil => exact fun _ _ _ _ _ _ i hi => absurd hi List.not_mem_nil
  | cons i ids ih =>
    intro m m' sound nodup slots run j hj
    obtain ⟨absent, distinct⟩ := List.nodup_cons.mp nodup
    obtain ⟨lt, unfree⟩ := slots i List.mem_cons_self
    obtain ⟨id, m₁, named, later⟩ := bind_eq_ok run
    obtain ⟨_, m₂, written, rest⟩ := bind_eq_ok later
    have graph : m₁.graph = m.graph := by
      cases named
      rfl
    rw [← graph] at sound lt unfree slots
    rcases rewriteFree_writes sound lt id none with ⟨g, done, sets⟩ | ⟨err, failed⟩
    · cases done.symm.trans written
      have others : ∀ k ∈ ids, k < g.capacity ∧ k ∉ g.free := fun k hk => by
        rw [sets.capacity, sets.free]
        exact slots k (List.mem_cons_of_mem _ hk)
      rcases List.mem_cons.mp hj with rfl | hj
      · have drawn := (makeFields_redraws (S := (· ∈ ids)) ids fun _ hk => hk).ok rest sets.sound
          fun k hk => (others k hk).1
        exact ⟨id, (drawn.touches.others j absent (sets.free ▸ unfree)).trans sets.same⟩
      · exact ih _ m' sets.sound distinct others rest j hj
    · cases failed.symm.trans written

/-- The node of a single constructor, and its fields. -/
theorem buildAlternatives_single {symbol : SymbolId} {arity : Nat} {fresh : List NodeId}
    {r : List NodeId × List NodeId} (h : m.Inv [] ρ) (listed : Listed m [(symbol, arity)])
    (blank : m.Blank [] fresh) (run : buildAlternatives [(symbol, arity)] fresh m = .ok r m') :
    ∃ a d, r.1 = [a] ∧ m'.graph.content? a = some d ∧ d.IsData ∧
      ∀ j ∈ d.links, ∃ z, m'.graph.content? j = some (freeContent z none) := by
  cases fresh with
  | nil => cases run
  | cons node fresh =>
    obtain ⟨_, m₁, made, run⟩ := bind_eq_ok run
    obtain ⟨_, m₂, written, run⟩ := bind_eq_ok run
    cases run
    obtain ⟨absent, nodup⟩ := List.nodup_cons.mp blank.nodup
    have slots : ∀ i ∈ fresh.take arity, i < m.graph.capacity ∧ i ∉ m.graph.free := fun i hi =>
      have mem := List.mem_cons_of_mem _ (List.mem_of_mem_take hi)
      ⟨blank.lt i mem, blank.unfree i mem⟩
    have filled := makeFields_fills _ m m₁ h.storage (nodup.sublist (List.take_sublist _ _)) slots made
    have drawn := (makeFields_redraws (S := (· ∈ fresh.take arity)) _ fun _ hk => hk).ok made
      h.storage fun i hi => (slots i hi).1
    obtain ⟨le, sym, type, index, found, hctor, -⟩ := listed _ List.mem_cons_self
    have tag : m₁.signature.tagFor symbol = .ok (.constructor index) := by
      rw [drawn.touches.signature]
      exact Signature.Symbol.IsConstructor.tagFor found hctor
    have lt : node < m₁.graph.capacity :=
      (blank.lt node List.mem_cons_self).trans_eq drawn.touches.capacity.symm
    rcases rewriteTo_writes drawn.touches.sound lt tag (fresh.take arity) with
      ⟨g, done, sets⟩ | ⟨err, failed⟩
    · cases done.symm.trans written
      refine ⟨node, _, rfl, sets.same, ⟨⟨index, rfl⟩, le⟩, fun j hj => ?_⟩
      obtain ⟨z, free⟩ := filled j hj
      refine ⟨z, (sets.others j ?_).trans free⟩
      rintro rfl
      exact absent (List.mem_of_mem_take hj)
    · cases failed.symm.trans written

theorem instantiate_generates (h : m.Inv [] ρ) (live : m.Live [] x)
    (hc : m.graph.content? x = some (freeContent id (some type)))
    (hd : m.signature.types[type]? = some d) (run : instantiate x m = .ok n m') :
    n = d.constructors.length ∧ m'.graph.Generates x id n := by
  obtain ⟨ρ', ev, -⟩ := (instantiate_keeps (s := .below (ρ x)) h live hc rfl).ok run
  obtain ⟨_, read, run⟩ := look_bind_eq_ok run
  cases (TermGraph.aux_content hc).symm.trans read
  obtain ⟨literal, read, run⟩ := look_bind_eq_ok run
  cases (TermGraph.literal_content hc).symm.trans read
  obtain ⟨ctors, read, run⟩ := look_bind_eq_ok run
  have count := constructorsOf_length hd read
  obtain ⟨_, read', listed⟩ := constructorsOf_listed h hd
  cases read.symm.trans read'
  split at run
  · next none =>
    obtain ⟨_, m₁, failed, run⟩ := bind_eq_ok run
    cases run
    rw [List.isEmpty_iff.mp none] at count ⊢
    refine ⟨count, .failure (c := .blank) ?_ rfl⟩
    exact Graph.content_eq_some.mpr ⟨_, put_node failed, rfl⟩
  · obtain ⟨fresh, m₁, served, run⟩ := bind_eq_ok run
    have offer := allocate_rooted_offers h live.rooted (generatorSize ctors)
    unfold Offers at offer
    rw [show withRoots [some x] (allocate (generatorSize ctors)) m = .ok fresh m₁ from served] at offer
    obtain ⟨quiet, -, blank⟩ := offer
    have h₁ := quiet.inv h
    obtain ⟨⟨alternatives, left⟩, m₂, built, run⟩ := bind_eq_ok run
    have same := buildAlternatives_length _ _ _ _ _ built
    dsimp only at run same
    rcases alternatives with _ | ⟨first, _ | ⟨second, others⟩⟩
    · cases run
    · obtain ⟨_, m₃, written, run⟩ := bind_eq_ok run
      cases run
      obtain ⟨⟨symbol, arity⟩, rfl⟩ := List.length_eq_one_iff.mp same.symm
      have listed₁ : Listed m₁ [(symbol, arity)] := by
        unfold Listed
        rw [quiet.signature]
        exact listed
      obtain ⟨a, e, only, he, data, fields⟩ := buildAlternatives_single h₁ listed₁ blank built
      cases only
      have drawn := (buildAlternatives_redraws (S := (· ∈ fresh)) _ fresh fun _ hi => hi).ok built
        h₁.storage blank.lt
      have alive := (quiet.live h).mpr live
      have unlisted : x ∉ fresh := fun hi => blank.dead x hi alive
      have hx : m₂.graph.content? x = some (freeContent id (some type)) :=
        (drawn.touches.others x unlisted (h₁.unfree x alive)).trans ((quiet.kept x live).trans hc)
      rcases rewriteForward_writes drawn.touches.sound (Graph.content_lt hx) first with
        ⟨g, done, sets⟩ | ⟨err, failed⟩
      · cases done.symm.trans written
        have apart : first ≠ x := by
          rintro rfl
          cases hx.symm.trans he
          obtain ⟨⟨index, tag⟩, -⟩ := data
          cases tag
        refine ⟨count, .only sets.same ((sets.others first apart).trans he) data fun j hj => ?_⟩
        obtain ⟨z, free⟩ := fields j hj
        refine ⟨z, (sets.others j ?_).trans free⟩
        rintro rfl
        cases hx.symm.trans free
      · cases failed.symm.trans written
    · obtain ⟨⟨below, left⟩, m₃, -, run⟩ := bind_eq_ok run
      obtain ⟨_, m₄, written, run⟩ := bind_eq_ok run
      cases run
      obtain ⟨slots, node⟩ := rewrite_node written
      -- narrowing keeps the variable live, so that it has a content
      obtain ⟨e, he, -⟩ := ev.inv.fits x (ev.live (h.steady live le_rfl))
      obtain ⟨slots', node', -⟩ := Graph.content_eq_some.mp he
      have stored := Option.some.inj (node.symm.trans node')
      refine ⟨count, ?_⟩
      rw [← same]
      exact .choice he (congrArg Node.tag stored).symm (congrArg Node.symbol stored).symm
        (congrArg Node.aux stored).symm

/-- A variable whose narrowing stops is left as it was. -/
theorem instantiate_stops (h : m.Inv [] ρ) (live : m.Live [] x)
    (run : instantiate x m = .error stop m') : m'.graph.content? x = m.graph.content? x := by
  rcases look_bind_eq_error run with rfl | ⟨_, -, run⟩
  · rfl
  rcases look_bind_eq_error run with rfl | ⟨literal, -, run⟩
  · rfl
  split at run
  · rcases look_bind_eq_error run with rfl | ⟨ctors, -, run⟩
    · rfl
    split at run
    · rcases bind_eq_error run with failed | ⟨_, _, -, run⟩
      · rcases rewriteFail_writes h.storage (h.lt live) with ⟨g, done, -⟩ | ⟨err, done⟩
        · cases done.symm.trans failed
        · cases done.symm.trans failed
          rfl
      · cases run
    have offer := allocate_rooted_offers h live.rooted (generatorSize ctors)
    unfold Offers at offer
    rcases bind_eq_error run with failed | ⟨fresh, m₁, served, run⟩
    · rw [show withRoots [some x] (allocate (generatorSize ctors)) m = .error stop m' from failed]
        at offer
      exact offer.1.kept x live
    rw [show withRoots [some x] (allocate (generatorSize ctors)) m = .ok fresh m₁ from served]
      at offer
    obtain ⟨quiet, -, blank⟩ := offer
    have h₁ := quiet.inv h
    have alive := (quiet.live h).mpr live
    -- what is built of the new nodes does not touch the variable
    have kept : ∀ {m₂ : Machine}, m₁.Redraws (· ∈ fresh) m₂ → m₂.graph.Sound ∧
        x < m₂.graph.capacity ∧ m₂.graph.content? x = m.graph.content? x := by
      intro m₂ redraws
      have drawn := redraws h₁.storage blank.lt
      refine ⟨drawn.touches.sound, drawn.touches.capacity.symm ▸ h₁.lt alive, ?_⟩
      exact (drawn.touches.others x (fun hi => blank.dead x hi alive) (h₁.unfree x alive)).trans
        (quiet.kept x live)
    have builds := buildAlternatives_redraws (S := (· ∈ fresh)) ctors fresh fun _ hi => hi
    rcases bind_eq_error run with failed | ⟨⟨alternatives, left⟩, m₂, built, run⟩
    · exact (kept (builds.error failed)).2.2
    have sub := buildAlternatives_left _ _ _ _ _ built
    obtain ⟨sound, lt, same⟩ := kept (builds.ok built)
    dsimp only at run sub
    split at run
    · cases run
      exact same
    · next only =>
      rcases bind_eq_error run with failed | ⟨_, _, -, run⟩
      · rcases rewriteForward_writes sound lt only with ⟨g, done, -⟩ | ⟨err, done⟩
        · cases done.symm.trans failed
        · cases done.symm.trans failed
          exact same
      · cases run
    · next first rest _ =>
      have nests := nestChoices_redraws (S := (· ∈ fresh)) rest left fun i hi => sub hi
      rcases bind_eq_error run with failed | ⟨⟨below, left'⟩, m₃, nested, run⟩
      · exact (kept (trans_of _ (builds.ok built) (nests.error failed))).2.2
      obtain ⟨sound, lt, same⟩ := kept (trans_of _ (builds.ok built) (nests.ok nested))
      rcases bind_eq_error run with failed | ⟨_, _, -, run⟩
      · rcases rewrite_writes sound lt .choice Builtin.narrowed _ [first, below] with
          ⟨g, done, -⟩ | ⟨err, done⟩
        · cases done.symm.trans failed
        · cases done.symm.trans failed
          exact same
      · cases run
  · cases run
    rfl

/-- Narrowing carries the search along. A variable of a type with one constructor becomes a value
again, any other one a failure or a choice. -/
theorem instantiate_tends {c : Content} (h : m.Inv [] ρ) (live : m.Live [] x)
    (hc : m.graph.content? x = some c) (tag : c.tag = .free) :
    (instantiate x).Tends m fun n m' => ∃ id type d, c = freeContent id (some type) ∧
      m.signature.types[type]? = some d ∧ n = d.constructors.length ∧
      m'.graph.Generates x id n ∧
      (n = 1 → ∀ i, m.Live [] i → m.graph.Value i → m'.graph.Value i) := by
  rcases (h.fitsAt live hc).of_free tag with ⟨id, rfl⟩ | ⟨id, type, d, hd, rfl⟩
  · unfold instantiate
    exact tends_read (TermGraph.aux_content hc) (tends_read (TermGraph.literal_content hc)
      (tends_throw _))
  · unfold Tends
    cases run : instantiate x m with
    | ok n m' =>
      have edited := (instantiate_edits x).ok run ρ h live
      obtain ⟨count, generates⟩ := instantiate_generates h live hc hd run
      refine ⟨edited.carries fun _ _ hi anchors => edited.anchors_generated hc generates hi anchors,
        id, type, d, rfl, hd, count, generates, ?_⟩
      rintro rfl i hi value
      exact edited.value_generated generates hi value
    | error stop m' =>
      have edited := (instantiate_edits x).error run ρ h live
      have same := instantiate_stops h live run
      have kept : ∀ p, m.Live [] p → m'.graph.content? p = m.graph.content? p := by
        intro p hp
        by_cases here : p = x
        · rw [here, same]
        · exact edited.others p hp here
      refine edited.carries fun y i hi anchors => ?_
      exact anchors.carry (S := m.Live []) hi (fun _ _ live hc _ hq => live.link hc hq)
        (fun p z hp free => (kept p hp).trans free) fun p c hp hc _ => .inl ((kept p hp).trans hc)

end Reduction

end ChoiceGraph
