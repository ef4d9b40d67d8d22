import ChoiceGraph.Proofs.Footprint

/-! # Effects outside of searches

Outside of a search nothing records that variables are bound. What a step does there besides forcing
its arguments, pulling tabs and narrowing variables included, depends on the term graph and on the
next identifier alone. So it can be done again on every machine that stands where the first one
stood. -/
namespace ChoiceGraph

namespace Machine

variable {m n : Machine} {t : TermGraph} {id : Nat}

/-- No search is under way, and the slice has no limit. -/
structure Unhindered (m : Machine) : Prop where
  outside : m.computations = []
  unlimited : m.slice.remaining = none
  going : m.slice.preempt = false

theorem Unhindered.isOver (h : m.Unhindered) : m.slice.isOver = false := by
  rw [Slice.isOver, h.unlimited, h.going]
  rfl

theorem Unhindered.spent (h : m.Unhindered) : Unhindered { m with slice := m.slice.spend } where
  outside := h.outside
  unlimited := by
    show m.slice.remaining.map _ = _
    rw [h.unlimited, Option.map_none]
  going := h.going

/-- Searches are undisturbed, and a machine that is unhindered stays so. -/
structure LetsRun (m m' : Machine) : Prop where
  isolated : m.Undisturbed m'
  unhindered : m.Unhindered → m'.Unhindered

instance : IsPreorder Machine LetsRun where
  refl m := ⟨refl_of _ m, fun free => free⟩
  trans _ _ _ h k := ⟨trans_of _ h.isolated k.isolated, fun free => k.unhindered (h.unhindered free)⟩

theorem letsRun_of_same {m' : Machine} (computations : m'.computations = m.computations)
    (slice : m'.slice = m.slice) : m.LetsRun m' :=
  ⟨undisturbed_of_same computations, fun ⟨outside, unlimited, going⟩ =>
    ⟨computations.trans outside, slice ▸ unlimited, slice ▸ going⟩⟩

/-- Without a search there is no frame to charge, and none whose bindings could change. -/
theorem letsRun_of_search {m' : Machine} (isolated : m.Undisturbed m')
    (none : m.computations = [] → m' = m) : m.LetsRun m' :=
  ⟨isolated, fun free => none free.outside ▸ free⟩

theorem chargeCollection_outside (outside : m.computations = []) : Eff.chargeCollection m = m := by
  have front : m.front? = none := by rw [front?, outside, List.head?_nil, Option.bind_none]
  rw [Eff.chargeCollection, front]

instance : Permissive LetsRun where
  graph _ _ _ := letsRun_of_same rfl rfl
  roots _ _ := letsRun_of_same rfl rfl
  nextId _ _ := letsRun_of_same rfl rfl
  spent _ _ := ⟨undisturbed_of_same rfl, Unhindered.spent⟩
  collected m g _ := by
    have swept : m.LetsRun { m.setGraph g with collections := m.collections + 1 } :=
      letsRun_of_same rfl rfl
    exact trans_of LetsRun swept
      (letsRun_of_search chargeCollection_undisturbed chargeCollection_outside)
  constrained m update := by
    refine letsRun_of_search (mapInnermost_undisturbed fun c => c.updateConstraints_undisturbed update)
      fun none => ?_
    unfold mapInnermost
    rw [none]

instance : Schedule.Nests LetsRun where
  searched h turns root s :=
    (Schedule.gather_restores (fun i => (h i).mono fun _ _ free => free.isolated) turns root s).mono
      fun _ _ restored => letsRun_of_same restored.1 restored.2

/-- The machine has this graph and this next identifier, and no search is under way. -/
structure Stands (m : Machine) (t : TermGraph) (id : Nat) : Prop where
  graph : m.toTermGraph = t
  id : m.nextId = id
  outside : m.computations = []

/-- The machine with another graph and another next identifier. -/
def place (m : Machine) (t : TermGraph) (id : Nat) : Machine :=
  { m with graph := t.graph, nextId := id }

theorem Stands.place {t' : TermGraph} {id' : Nat} (h : m.Stands t id)
    (signature : t'.signature = t.signature) : (m.place t' id').Stands t' id' where
  graph := by
    have same : m.signature = t'.signature :=
      (congrArg TermGraph.signature h.graph).trans signature.symm
    show TermGraph.mk m.signature t'.graph = t'
    rw [same]
  id := rfl
  outside := h.outside

end Machine

namespace Eff

open Machine

variable {α β : Type} {e : Eff α} {f : α → Eff β} {m m' n : Machine} {t t' : TermGraph} {id id' : Nat}
  {r : Except Stop α}

/-- Some machine that stands there runs the effect and comes to stand here. -/
def Draws (e : Eff α) (t : TermGraph) (id : Nat) (r : Except Stop α) (t' : TermGraph) (id' : Nat) :
    Prop :=
  ∃ m m', m.Stands t id ∧ e.Ends m r m' ∧ m'.toTermGraph = t' ∧ m'.nextId = id'

/-- Outside of a search the effect changes the graph and the next identifier only, and ends the same
way wherever these two are the same. -/
structure Replays (e : Eff α) : Prop where
  pays : e.Moves Pays
  patient : e.Patient
  same : ∀ m r m', m.computations = [] → e.Ends m r m' → ∀ n : Machine,
    n.Stands m.toTermGraph m.nextId → e n = outcome r (n.place m'.toTermGraph m'.nextId)

theorem outcome_inj {r : Except Stop α} (h : outcome r m = outcome r m') : m = m' := by
  cases r with
  | ok a => exact (EStateM.Result.ok.inj h).2
  | error stop => exact (EStateM.Result.error.inj h).2

theorem Moves.unhindered {r : Except Stop α} (h : e.Moves LetsRun) (ends : e.Ends m r m')
    (unhindered : m.Unhindered) : m'.Unhindered :=
  (h.outcome ends.run).unhindered unhindered

theorem Replays.changes (h : e.Replays) (outside : m.computations = []) (ends : e.Ends m r m') :
    m' = m.place m'.toTermGraph m'.nextId :=
  outcome_inj (ends.run.symm.trans (h.same m r m' outside ends m ⟨rfl, rfl, outside⟩))

theorem Replays.stands (h : e.Replays) (outside : m.computations = []) (ends : e.Ends m r m')
    (stands : n.Stands m.toTermGraph m.nextId) :
    (n.place m'.toTermGraph m'.nextId).Stands m'.toTermGraph m'.nextId := by
  refine stands.place ?_
  rw [h.changes outside ends]
  rfl

/-- What one machine does, all do that stand where it stood. -/
theorem Replays.replay (h : e.Replays) (draws : e.Draws t id r t' id') (stands : n.Stands t id) :
    e n = outcome r (n.place t' id') ∧ (n.place t' id').Stands t' id' ∧ n.Pays (n.place t' id') := by
  obtain ⟨m, m', ⟨rfl, rfl, outside⟩, ends, rfl, rfl⟩ := draws
  have run := h.same m r m' outside ends n stands
  exact ⟨run, h.stands outside ends stands, h.pays.outcome run⟩

theorem Local.replays (h : e.Local) : e.Replays where
  pays := h.pays
  patient := h.patient
  same m r m' _ ends n stands := by
    have id : m'.nextId = n.nextId := by
      rw [h.changes ends, stands.id]
      rfl
    rw [h.same m r m' ends n stands.graph, id]
    rfl

theorem Replays.bind (h : e.Replays) (hf : ∀ a, (f a).Replays) : (e >>= f).Replays where
  pays := h.pays.bind fun a => (hf a).pays
  patient := h.patient.bind fun a => (hf a).patient
  same m r m' outside ends n stands := by
    rcases ends.bind h.pays fun a => (hf a).pays with ⟨a, m₁, first, rest⟩ | ⟨stop, rfl, first⟩
    · have outside₁ : m₁.computations = [] := by
        rw [h.changes outside first]
        exact outside
      exact (bind_ok (h.same m _ m₁ outside first n stands)).trans
        ((hf a).same m₁ r m' outside₁ rest _ (h.stands outside first stands))
    · exact bind_error (h.same m _ m' outside first n stands)

theorem replays_pure (a : α) : (pure a : Eff α).Replays := (local_pure a).replays

theorem replays_throw {stop : Stop} (patient : stop ≠ .preempted) : (throw stop : Eff α).Replays :=
  (local_throw patient).replays

/-- Reading from the term graph. -/
theorem Replays.read {g : β → Eff α} (r : TermGraph → Except Fault β) (h : ∀ b, (g b).Replays) :
    (look (fun m => r m.toTermGraph) >>= g).Replays :=
  (local_look fun _ _ same => congrArg r same).replays.bind h

theorem replays_ite {p : Prop} [Decidable p] {e₁ e₂ : Eff α} (h₁ : e₁.Replays) (h₂ : e₂.Replays) :
    (if p then e₁ else e₂).Replays := by
  split
  · exact h₁
  · exact h₂

/-- Something that is done first, or not. -/
theorem replays_when {p : Prop} [Decidable p] {first : Eff Unit} (h : first.Replays) (rest : e.Replays) :
    (do
      if p then first
      e).Replays := by
  dsimp only
  split
  · exact h.bind fun _ => rest
  · exact rest

theorem freshId_replays : freshId.Replays where
  pays := freshId_moves
  patient _ _ run := by cases run
  same m r m' _ ends n stands := by
    have run := ends.run
    cases r with
    | error stop => cases run
    | ok id =>
      cases run
      have graph : n.graph = m.graph := congrArg TermGraph.graph stands.graph
      show EStateM.Result.ok n.nextId { n with nextId := n.nextId + 1 } = _
      rw [stands.id]
      show _ = EStateM.Result.ok _ { n with graph := m.graph, nextId := m.nextId + 1 }
      rw [← graph]

theorem rewrite_local (i : NodeId) (tag : Tag) (symbol : SymbolId) (aux : Nat) (links : List Link) :
    (rewrite i tag symbol aux links).Local :=
  (storeLinks_local links).bind fun _ => put_local i _

theorem rewriteTo_replays (i : NodeId) (symbol : SymbolId) (links : List Link) :
    (rewriteTo i symbol links).Replays :=
  .read (·.signature.tagFor symbol) fun tag => (rewrite_local i tag symbol 0 links).replays

end Eff

namespace Reduction

open Eff Machine

variable {i root k x : NodeId}

/-! ## Narrowing -/

theorem allocateBeside_local (root : NodeId) (n : Nat) : (allocateBeside root n).Local :=
  ((allocate_requests n).rooted [some root]).local

theorem makeFields_replays : ∀ fields : List NodeId, (makeFields fields).Replays
  | [] => replays_pure ()
  | i :: rest => freshId_replays.bind fun _ => (put_local i _).replays.bind fun _ =>
      makeFields_replays rest

theorem buildAlternatives_replays : ∀ (constructors : List (SymbolId × Nat)) (fresh : List NodeId),
    (buildAlternatives constructors fresh).Replays
  | [], _ => replays_pure _
  | _ :: _, [] => replays_throw nofun
  | (symbol, _) :: rest, node :: _ =>
    (makeFields_replays _).bind fun _ => (rewriteTo_replays node symbol _).bind fun _ =>
      (buildAlternatives_replays rest _).bind fun _ => replays_pure _

theorem nestChoices_replays : ∀ alternatives fresh : List NodeId,
    (nestChoices alternatives fresh).Replays
  | [], _ => replays_throw nofun
  | [last], _ => replays_pure _
  | alternative :: next :: rest, fresh => by
    refine (nestChoices_replays (next :: rest) fresh).bind fun ⟨below, fresh⟩ => ?_
    cases fresh with
    | nil => exact replays_throw nofun
    | cons node fresh =>
      exact freshId_replays.bind fun id => (rewrite_local node _ _ _ _).replays.bind fun _ =>
        replays_pure _

theorem constructorsOf_local (type : TypeId) : (look fun m => constructorsOf m type).Local := by
  refine local_look fun m n same => ?_
  have signature : n.signature = m.signature := congrArg TermGraph.signature same
  unfold constructorsOf
  rw [signature]

theorem instantiate_replays (var : NodeId) : (instantiate var).Replays := by
  refine .read (·.aux var) fun id => .read (·.literal? var) fun literal => ?_
  split
  · refine (constructorsOf_local _).replays.bind fun constructors => ?_
    dsimp only
    split
    · exact (put_local var _).replays.bind fun _ => replays_pure _
    · refine (allocateBeside_local var _).replays.bind fun fresh => ?_
      refine (buildAlternatives_replays constructors fresh).bind fun ⟨alternatives, fresh⟩ => ?_
      rcases alternatives with _ | ⟨first, _ | ⟨second, others⟩⟩
      · have stops : (fault .dangling : Eff PUnit).Replays := replays_throw nofun
        exact stops.bind fun _ => replays_pure _
      · exact (put_local var _).replays.bind fun _ => replays_pure _
      · refine (nestChoices_replays (second :: others) fresh).bind fun ⟨below, _⟩ => ?_
        exact (rewrite_local var _ _ _ _).replays.bind fun _ => replays_pure _
  · exact replays_throw nofun

/-- A variable that is bound in a search is instantiated there, which takes no step. -/
theorem bindGenerators_patient (var : VarId) : (bindGenerators var).Patient := by
  have reads : (get : Eff Machine).Patient := patient_of_ok fun m => ⟨m, m, rfl⟩
  have looks : ∀ {α : Type} (r : Machine → Except Fault α), (look r).Patient :=
    fun r => (faults_look r).patient
  have ends : ∀ i, (instantiateEnd i).Patient := by
    refine fun i => (looks _).bind fun j => (looks _).bind fun tag => (looks _).bind fun literal => ?_
    split
    · exact (instantiate_replays j).patient.bind fun _ => patient_pure ()
    · exact patient_pure ()
  have links : ∀ x y, (link x y).Patient := by
    refine fun x y => reads.bind fun m => ?_
    split
    · exact patient_pure ()
    · split
      · exact patient_pure ()
      · refine (looks _).bind fun a => (looks _).bind fun b => (looks _).bind fun same => ?_
        split
        · exact (looks _).bind fun fields => patient_of_ok fun m => ⟨_, _, rfl⟩
        · exact patient_pure ()
  have pairs : ∀ pairs, (linkPairs pairs).Patient := by
    intro pairs
    induction pairs with
    | nil => exact patient_pure ()
    | cons pair rest ih =>
      obtain ⟨x, y⟩ := pair
      exact (ends x.node).bind fun _ => (ends y.node).bind fun _ => (links x y).bind fun _ => ih
  refine reads.bind fun m => ?_
  split
  · exact patient_pure ()
  · exact (looks _).bind fun found => pairs found

/-- Where no search records a binding, none is followed. -/
theorem bindGenerators_replays (var : VarId) : (bindGenerators var).Replays where
  pays := bindGenerators_moves var
  patient := bindGenerators_patient var
  same m r m' outside ends n stands := by
    have none : ∀ n : Machine, n.computations = [] → bindGenerators var n = .ok () n := by
      intro n outside
      have front : n.frontConstraints? = none := by
        simp only [frontConstraints?, outside, List.head?_nil, Option.bind_none]
      refine (bind_ok (e := get) (a := n) rfl).trans ?_
      rw [front]
      rfl
    have run := (none m outside).symm.trans ends.run
    cases r with
    | error stop => cases run
    | ok _ =>
      cases run
      have graph : n.graph = m.graph := congrArg TermGraph.graph stands.graph
      rw [none n stands.outside, place, ← graph, ← stands.id]
      rfl

theorem narrow_replays (var : NodeId) : (narrow var).Replays := by
  refine .read (·.aux var) fun id => (instantiate_replays var).bind fun count => ?_
  exact replays_ite (bindGenerators_replays id) (replays_pure ())

/-! ## Pulling tabs -/

theorem pullTab_replays (root : NodeId) (k : Nat) : (pullTab root k).Replays := by
  refine (allocateBeside_local root 2).replays.bind fun ids => ?_
  rcases ids with _ | ⟨left, _ | ⟨right, _ | ⟨_, _⟩⟩⟩
  · exact replays_throw nofun
  · exact replays_throw nofun
  · refine .read (·.successorSkip root k) fun choice => ?_
    refine .read (·.node choice) fun c => .read (·.successor choice 0) fun l => ?_
    refine .read (·.successor choice 1) fun r => .read (·.node root) fun node => ?_
    refine .read (·.successors root) fun links => ?_
    refine (rewrite_local left _ _ _ _).replays.bind fun _ => ?_
    exact (rewrite_local right _ _ _ _).replays.bind fun _ => (rewrite_local root _ _ _ _).replays
  · exact replays_throw nofun

theorem pull_replays (root : NodeId) (k : Nat) : (pull root k).Replays := by
  refine .read (·.successorSkip root k) fun choice => .read (·.symbolId choice) fun symbol => ?_
  refine replays_ite ?_ (pullTab_replays root k)
  refine .read (·.successorSkip root k) fun choice => .read (·.aux choice) fun var => ?_
  exact (pullTab_replays root k).bind fun _ => bindGenerators_replays var

theorem settle_replays (root : NodeId) (k : Nat) (arg : NodeId) : (settle root k arg).Replays := by
  refine .read (·.tag arg) fun tag => ?_
  cases tag with
  | failure => exact (put_local root _).replays.bind fun _ => replays_pure _
  | choice => exact (pull_replays root k).bind fun _ => replays_pure _
  | free => exact .read (·.aux arg) fun _ => replays_throw nofun
  | operation => exact replays_pure _
  | constructor _ => exact replays_pure _
  | forward => exact replays_throw nofun
  | unassigned _ => exact replays_throw nofun

/-! ## Arguments that take a node over -/

theorem settleArg_replays (root : NodeId) (k : Nat) (arg : NodeId) :
    (settleArg root k arg).Replays := by
  refine .read (·.tag arg) fun tag => replays_when (narrow_replays arg) ?_
  exact .read (·.skip arg) fun i => settle_replays root k i

theorem takeArg_replays (root : NodeId) (k : Nat) (link : Link) (arg : NodeId) :
    (takeArg root k link arg).Replays :=
  replays_when (setSuccessor_local root k _).replays (settleArg_replays root k arg)

/-- What is done with an argument of a constructor that has become a failure or a choice. -/
def surface (root : NodeId) (k : Nat) (i : NodeId) : Eff Unit := do
  let j ← look (·.skip i)
  if j ≠ i then setSuccessor root k (some j)
  let _ ← settle root k j

theorem surface_replays (root : NodeId) (k : Nat) (i : NodeId) : (surface root k i).Replays := by
  refine .read (·.skip i) fun j => replays_when (setSuccessor_local root k _).replays ?_
  exact (settle_replays root k j).bind fun _ => replays_pure ()

theorem stepChoose_replays (root : NodeId) : (stepChoose root).Replays := by
  refine .read (·.successor root 0) fun l => .read (·.successor root 1) fun r => ?_
  exact freshId_replays.bind fun id => (rewrite_local root _ _ _ _).replays

end Reduction

end ChoiceGraph
