import ChoiceGraph.Proofs.Allocation
import ChoiceGraph.Proofs.NestedSearches

/-! # Footprints of effects

A step that has its arguments rewrites its node, and at most slots that were free. As long as
nothing is collected it depends on the term graph alone: it ends the same way on every machine with
that graph, whatever is rooted there, searched there, or left of the slice. -/
namespace ChoiceGraph

/-- A stop that more fuel does not change: neither a fault nor a lack of fuel. -/
def Stop.Final : Stop → Prop
  | .suspended _ => True
  | .fatal _ => True
  | .refused => True
  | .preempted => True
  | .fault _ => False
  | .outOfFuel => False

/-- The footprint of one node. -/
def Only (root i : NodeId) : Prop := i = root

theorem only_self (root : NodeId) : Only root root := rfl

/-- Outside of `S` and of what was free, nothing has changed. No slot in use became free, and no
node is a variable of a type that was not one. -/
structure TermGraph.Touches (S : NodeId → Prop) (t t' : TermGraph) : Prop where
  signature : t'.signature = t.signature
  sound : t'.graph.Sound
  capacity : t'.graph.capacity = t.graph.capacity
  unfree : ∀ i, i ∉ t.graph.free → i ∉ t'.graph.free
  others : ∀ i, ¬ S i → i ∉ t.graph.free → t'.graph.content? i = t.graph.content? i
  typed : ∀ i c type, t'.graph.content? i = some c → c.cargo = .literal (.type type) →
    t.graph.content? i = some c

namespace TermGraph.Touches

variable {S S' : NodeId → Prop} {t t' t'' : TermGraph}

theorem refl (h : t.graph.Sound) : t.Touches S t :=
  ⟨rfl, h, rfl, fun _ hi => hi, fun _ _ _ => rfl, fun _ _ _ hc _ => hc⟩

theorem trans (h : t.Touches S t') (k : t'.Touches S' t'')
    (sub : ∀ i, S' i → S i ∨ i ∈ t.graph.free) : t.Touches S t'' where
  signature := k.signature.trans h.signature
  sound := k.sound
  capacity := k.capacity.trans h.capacity
  unfree i hi := k.unfree i (h.unfree i hi)
  others i hs hi := by
    have outside : ¬ S' i := fun hs' => (sub i hs').elim hs hi
    exact (k.others i outside (h.unfree i hi)).trans (h.others i hs hi)
  typed i c type hc literal := h.typed i c type (k.typed i c type hc literal) literal

end TermGraph.Touches

namespace Machine

variable {m n : Machine}

theorem setGraph_same (same : n.toTermGraph = m.toTermGraph) (g : Graph) :
    (n.setGraph g).toTermGraph = (m.setGraph g).toTermGraph := by
  have signature : n.signature = m.signature := congrArg TermGraph.signature same
  show TermGraph.mk n.signature g = TermGraph.mk m.signature g
  rw [signature]

/-- A node in the place of another touches that node only. -/
theorem touches_of_spares {S : NodeId → Prop} {i : NodeId} {g' : Graph} {node : Node} (hs : S i)
    (spares : m.graph.Spares i g') (here : g'.nodes[i]? = some node)
    (plain : ∀ type, node.slots.literal? ≠ some (.type type)) :
    m.toTermGraph.Touches S (m.setGraph g').toTermGraph where
  signature := rfl
  sound := spares.sound
  capacity := spares.capacity
  unfree j hj := by
    show j ∉ g'.free
    rw [spares.free]
    exact hj
  others j hj _ := spares.others j fun same => hj (same ▸ hs)
  typed j c type hc literal := by
    by_cases same : j = i
    · subst same
      obtain ⟨slots, node', cargo⟩ := Graph.content_eq_some.mp hc
      cases Option.some.inj (here.symm.trans node')
      have held := TermGraph.literal_cargo cargo
      rw [literal] at held
      exact absurd held (plain type)
    · exact (spares.others j same).symm.trans hc

end Machine

namespace Eff

open Machine

variable {α β : Type} {S S' : NodeId → Prop} {e : Eff α} {f : α → Eff β} {i : NodeId}

/-! ## How effects end -/

/-- A value or a stop, with the machine that is left. -/
def outcome : Except Stop α → Machine → EStateM.Result Stop Machine α
  | .ok a, m => .ok a m
  | .error stop, m => .error stop m

/-- The effect returns or comes to a final stop, and has collected nothing. -/
structure Ends (e : Eff α) (m : Machine) (r : Except Stop α) (m' : Machine) : Prop where
  run : e m = outcome r m'
  uncollected : m'.collections = m.collections
  final : ∀ stop, r = .error stop → stop.Final

theorem ends_of_ok {m m' : Machine} {a : α} (run : e m = .ok a m')
    (uncollected : m'.collections = m.collections) : e.Ends m (.ok a) m' :=
  ⟨run, uncollected, nofun⟩

theorem Moves.outcome {R : Machine → Machine → Prop} {m m' : Machine} {r : Except Stop α}
    (h : e.Moves R) (run : e m = outcome r m') : R m m' := by
  cases r with
  | ok a => exact h.ok run
  | error stop => exact h.error run

/-- An effect in two parts ends as the second part does, or stops in the first. -/
theorem Ends.bind {m m' : Machine} {r : Except Stop β} (h : (e >>= f).Ends m r m')
    (he : e.Moves Pays) (hf : ∀ a, (f a).Moves Pays) :
    (∃ a m₁, e.Ends m (.ok a) m₁ ∧ (f a).Ends m₁ r m') ∨
      ∃ stop, r = .error stop ∧ e.Ends m (.error stop) m' := by
  have same := h.uncollected
  cases first : e m with
  | ok a m₁ =>
    have run := (bind_ok first).symm.trans h.run
    have counted : m.collections ≤ m₁.collections := (he.ok first).counts
    have counted' : m₁.collections ≤ m'.collections := ((hf a).outcome run).counts
    exact .inl ⟨a, m₁, ends_of_ok first (by omega), run, by omega, h.final⟩
  | error stop m₁ =>
    have run := (bind_error first).symm.trans h.run
    cases r with
    | ok b => cases run
    | error stop' =>
      cases run
      exact .inr ⟨stop, rfl, first, same, fun _ same => h.final _ (by cases same; rfl)⟩

/-- The effect never ends for want of steps. -/
def Patient (e : Eff α) : Prop := ∀ m m', e m ≠ .error .preempted m'

theorem Patient.bind (h : e.Patient) (hf : ∀ a, (f a).Patient) : (e >>= f).Patient := by
  intro m m' run
  cases first : e m with
  | ok a m₁ => exact hf a m₁ m' ((bind_ok first).symm.trans run)
  | error stop m₁ =>
    cases (bind_error first).symm.trans run
    exact h m m' first

theorem patient_pure (a : α) : (pure a : Eff α).Patient := fun _ _ run => by cases run

theorem patient_of_ok (returns : ∀ m, ∃ a m', e m = .ok a m') : e.Patient := by
  intro m m' run
  obtain ⟨a, m₁, returned⟩ := returns m
  cases returned.symm.trans run

/-- The effect stops at faults only. -/
def Faults (e : Eff α) : Prop := ∀ m stop m', e m = .error stop m' → ∃ f, stop = .fault f

theorem Faults.ends {m m' : Machine} {r : Except Stop α} (h : e.Faults) (ends : e.Ends m r m') :
    ∃ a, r = .ok a := by
  cases r with
  | ok a => exact ⟨a, rfl⟩
  | error stop =>
    obtain ⟨f, rfl⟩ := h m stop m' ends.run
    exact (ends.final _ rfl).elim

theorem Faults.patient (h : e.Faults) : e.Patient := by
  intro m m' run
  obtain ⟨f, stop⟩ := h m _ m' run
  cases stop

/-! ## Requests that collect nothing -/

/-- What a request does when the free list is too short for it. -/
def allocateAfterCollection (n : Nat) : Eff (List NodeId) := do
  let _ ← collect
  if let some ids ← take? n then return ids
  if ← grow? n then
    if let some ids ← take? n then return ids
  exhausted n

/-- It counts a collection, unless there is a fault in the graph. -/
theorem allocateAfterCollection_counts {n : Nat} {r : Except Stop (List NodeId)} {m m' : Machine}
    (run : allocateAfterCollection n m = outcome r m') :
    m.collections < m'.collections ∨ ∃ x, r = .error (.fault x) := by
  have later : (do
      if let some ids ← take? n then return ids
      if ← grow? n then
        if let some ids ← take? n then return ids
      exhausted n : Eff (List NodeId)).Moves Pays := by
    refine (take_moves n).bind fun first => ?_
    cases first with
    | some ids => exact moves_pure ids
    | none =>
      refine (grow_moves n).bind fun grown => ?_
      cases grown with
      | false => exact exhausted_moves n
      | true =>
        refine (take_moves n).bind fun second => ?_
        cases second with
        | some ids => exact moves_pure ids
        | none => exact exhausted_moves n
  cases swept : m.graph.collect m.rootSet with
  | error e =>
    have collected : collect m = .error (.fault e) m := by
      unfold collect
      rw [swept]
    have stopped := (bind_error collected).symm.trans run
    cases r with
    | ok ids => cases stopped
    | error stop =>
      cases stopped
      exact .inr ⟨e, rfl⟩
  | ok found =>
    have collected : collect m = .ok found.1
        (chargeCollection { m.setGraph found.2 with collections := m.collections + 1 }) := by
      unfold collect
      rw [swept]
    have charged := (chargeCollection_pays
      { m.setGraph found.2 with collections := m.collections + 1 }).counts
    have counted := (later.outcome ((bind_ok collected).symm.trans run)).counts
    exact .inl (Nat.lt_of_lt_of_le (Nat.lt_of_lt_of_le (Nat.lt_succ_self m.collections) charged) counted)

theorem allocateAfterCollection_collects {n : Nat} {r : Except Stop (List NodeId)} {m m' : Machine} :
    ¬ (allocateAfterCollection n).Ends m r m' := by
  intro ends
  rcases allocateAfterCollection_counts ends.run with counted | ⟨x, rfl⟩
  · exact absurd ends.uncollected (Nat.ne_of_gt counted)
  · exact ends.final _ rfl

/-- What is asked for is not free. -/
theorem allocate_short {n : Nat} {m : Machine} (short : ¬ m.graph.hasFree n = true) :
    allocate n m = allocateAfterCollection n m :=
  bind_ok (show take? n m = .ok none m from if_neg short)

/-- A request that collects nothing takes what it asks for off the free list. -/
theorem allocate_uncollected {n : Nat} {r : Except Stop (List NodeId)} {m m' : Machine}
    (ends : (allocate n).Ends m r m') : m.graph.hasFree n = true ∧
      r = .ok (m.graph.free.take n) ∧ m' = m.setGraph (m.graph.afterTake n) := by
  by_cases enough : m.graph.hasFree n = true
  · have taken : allocate n m = .ok (m.graph.free.take n) (m.setGraph (m.graph.afterTake n)) := by
      have first : take? n m = .ok (some (m.graph.free.take n))
          (m.setGraph (m.graph.afterTake n)) := if_pos enough
      exact bind_ok first
    have run := taken.symm.trans ends.run
    cases r with
    | error stop => cases run
    | ok ids =>
      cases run
      exact ⟨enough, rfl, rfl⟩
  · have later : (allocateAfterCollection n).Ends m r m' :=
      ⟨(allocate_short enough).symm.trans ends.run, ends.uncollected, ends.final⟩
    exact absurd later allocateAfterCollection_collects

/-- A request for `n` nodes: as long as nothing is collected, it takes them off the free list. -/
structure Requests (n : Nat) (e : Eff (List NodeId)) : Prop where
  pays : e.Moves Pays
  patient : e.Patient
  uncollected : ∀ m r m', e.Ends m r m' → m.graph.hasFree n = true ∧
    r = .ok (m.graph.free.take n) ∧ m' = m.setGraph (m.graph.afterTake n)
  served : ∀ m, m.graph.hasFree n = true →
    e m = .ok (m.graph.free.take n) (m.setGraph (m.graph.afterTake n))

theorem allocate_patient (n : Nat) : (allocate n).Patient := by
  have takes : ∀ n, (take? n).Patient := fun n => patient_of_ok fun m => by
    unfold take?
    split
    · exact ⟨_, _, rfl⟩
    · exact ⟨_, _, rfl⟩
  have grows : (grow? n).Patient := patient_of_ok fun m => by
    unfold grow?
    split
    · exact ⟨_, _, rfl⟩
    · exact ⟨_, _, rfl⟩
  have collects : collect.Patient := by
    intro m m' run
    unfold collect at run
    split at run <;> cases run
  have exhausts : (exhausted n : Eff (List NodeId)).Patient := fun _ _ run => by cases run
  refine (takes n).bind fun first => ?_
  cases first with
  | some ids => exact patient_pure ids
  | none =>
    refine collects.bind fun _ => (takes n).bind fun second => ?_
    cases second with
    | some ids => exact patient_pure ids
    | none =>
      refine grows.bind fun grown => ?_
      cases grown with
      | false => exact exhausts
      | true =>
        refine (takes n).bind fun third => ?_
        cases third with
        | some ids => exact patient_pure ids
        | none => exact exhausts

theorem allocate_requests (n : Nat) : Requests n (allocate n) where
  pays := allocate_moves n
  patient := allocate_patient n
  uncollected _ _ _ ends := allocate_uncollected ends
  served m enough := by
    have first : take? n m = .ok (some (m.graph.free.take n)) (m.setGraph (m.graph.afterTake n)) :=
      if_pos enough
    exact bind_ok first

/-- More roots make no difference. -/
theorem Requests.rooted {n : Nat} {request : Eff (List NodeId)} (h : Requests n request)
    (links : List Link) : Requests n (withRoots links request) where
  pays := withRoots_moves h.pays
  patient m m' run := by
    unfold withRoots at run
    split at run
    · cases run
    · next stopped =>
      cases run
      exact h.patient _ _ stopped
  uncollected m r m' ends := by
    have run := ends.run
    have same := ends.uncollected
    have served : ∀ r' m₁, request (m.push links) = outcome r' m₁ →
        m₁.collections = m.collections → (∀ stop, r' = .error stop → stop.Final) →
          m.graph.hasFree n = true ∧ r' = .ok (m.graph.free.take n) ∧
            m₁ = (m.push links).setGraph (m.graph.afterTake n) :=
      fun r' m₁ inner same final => h.uncollected (m.push links) r' m₁ ⟨inner, same, final⟩
    have roots : ((m.push links).pop links.length).roots = m.roots := pop_push rfl
    unfold withRoots at run
    cases inner : request (m.push links) with
    | error stop m₁ =>
      rw [show request { m with roots := links.reverse ++ m.roots } = _ from inner] at run
      cases r with
      | ok ids => cases run
      | error stop' =>
        cases run
        obtain ⟨-, stopped, -⟩ := served (.error stop) m₁ inner same
          fun _ same => ends.final _ (by cases same; rfl)
        cases stopped
    | ok ids m₁ =>
      rw [show request { m with roots := links.reverse ++ m.roots } = _ from inner] at run
      cases r with
      | error stop => cases run
      | ok ids' =>
        cases run
        obtain ⟨enough, taken, rfl⟩ := served (.ok ids) m₁ inner same nofun
        cases taken
        refine ⟨enough, rfl, ?_⟩
        show { m.setGraph (m.graph.afterTake n) with
          roots := ((m.push links).pop links.length).roots } = _
        rw [roots]
        rfl
  served m enough := by
    have roots : ((m.push links).pop links.length).roots = m.roots := pop_push rfl
    have inner := h.served (m.push links) enough
    unfold withRoots
    rw [show request { m with roots := links.reverse ++ m.roots } = _ from inner]
    show EStateM.Result.ok _ { m.setGraph (m.graph.afterTake n) with
      roots := ((m.push links).pop links.length).roots } = _
    rw [roots]
    rfl

/-! ## Effects that depend on the term graph alone -/

/-- An effect that collects nothing changes the graph only, and ends the same way wherever the term
graph is the same. -/
structure Local (e : Eff α) : Prop where
  pays : e.Moves Pays
  patient : e.Patient
  same : ∀ m r m', e.Ends m r m' → ∀ n : Machine, n.toTermGraph = m.toTermGraph →
    e n = outcome r (n.setGraph m'.graph)

/-- Some machine with this graph runs the effect and has that graph then, with nothing collected. -/
def Takes (e : Eff α) (t : TermGraph) (a : α) (t' : TermGraph) : Prop :=
  ∃ m m', m.toTermGraph = t ∧ e m = .ok a m' ∧ m'.toTermGraph = t' ∧ m'.collections = m.collections

theorem Local.changes {m m' : Machine} {r : Except Stop α} (h : e.Local) (ends : e.Ends m r m') :
    m' = m.setGraph m'.graph := by
  have again := h.same m r m' ends m rfl
  rw [ends.run] at again
  cases r with
  | ok a => exact (EStateM.Result.ok.inj again).2
  | error stop => exact (EStateM.Result.error.inj again).2

theorem Local.landed {m m' n : Machine} {r : Except Stop α} (h : e.Local) (ends : e.Ends m r m')
    (same : n.toTermGraph = m.toTermGraph) :
    (n.setGraph m'.graph).toTermGraph = m'.toTermGraph := by
  rw [setGraph_same same m'.graph, ← h.changes ends]

/-- What one machine with a graph does, all of them do. -/
theorem Local.replay {t t' : TermGraph} {a : α} (h : e.Local) (takes : e.Takes t a t') {n : Machine}
    (same : n.toTermGraph = t) : e n = .ok a (n.setGraph t'.graph) ∧
      (n.setGraph t'.graph).toTermGraph = t' ∧ n.Pays (n.setGraph t'.graph) := by
  obtain ⟨m, m', rfl, run, rfl, uncollected⟩ := takes
  have ends := ends_of_ok run uncollected
  have run' := h.same m (.ok a) m' ends n same
  exact ⟨run', h.landed ends same, h.pays.ok run'⟩

theorem local_pure (a : α) : (pure a : Eff α).Local where
  pays := moves_pure a
  patient := patient_pure a
  same m r m' ends n same := by
    have graph : n.graph = m.graph := congrArg TermGraph.graph same
    have run := ends.run
    cases r with
    | error stop => cases run
    | ok b =>
      cases run
      rw [← graph]
      rfl

theorem local_throw {stop : Stop} (patient : stop ≠ .preempted) : (throw stop : Eff α).Local where
  pays := moves_throw stop
  patient _ _ run := by
    cases run
    exact patient rfl
  same m r m' ends n same := by
    have graph : n.graph = m.graph := congrArg TermGraph.graph same
    have run := ends.run
    cases r with
    | ok b => cases run
    | error stop' =>
      cases run
      rw [← graph]
      rfl

theorem faults_pure (a : α) : (pure a : Eff α).Faults := fun _ _ _ run => by cases run

theorem Faults.bind (h : e.Faults) (hf : ∀ a, (f a).Faults) : (e >>= f).Faults := by
  intro m stop m' run
  cases first : e m with
  | ok a m₁ => exact hf a m₁ stop m' ((bind_ok first).symm.trans run)
  | error stop' m₁ =>
    cases (bind_error first).symm.trans run
    exact h m stop m' first

theorem faults_look (r : Machine → Except Fault α) : (look r).Faults := by
  intro m stop m' run
  unfold look at run
  split at run
  · cases run
  · cases run
    exact ⟨_, rfl⟩

theorem faults_put (i : NodeId) (node : Node) : (put i node).Faults := by
  intro m stop m' run
  unfold put at run
  split at run
  · cases run
    exact ⟨_, rfl⟩
  · split at run
    · split at run
      · cases run
      · cases run
        exact ⟨_, rfl⟩
    · cases run

theorem faults_setSuccessor (i : NodeId) (k : Nat) (target : Link) :
    (setSuccessor i k target).Faults := by
  intro m stop m' run
  unfold setSuccessor at run
  repeat' split at run
  all_goals
    cases run
    try exact ⟨_, rfl⟩

theorem local_of_faults (pays : e.Moves Pays) (faults : e.Faults)
    (same : ∀ m a m', e m = .ok a m' → ∀ n : Machine, n.toTermGraph = m.toTermGraph →
      e n = .ok a (n.setGraph m'.graph)) : e.Local where
  pays := pays
  patient := faults.patient
  same m r m' ends n graphs := by
    cases r with
    | ok a => exact same m a m' ends.run n graphs
    | error stop => exact nomatch faults.ends ends

/-- Reading from the term graph. -/
theorem local_look {r : Machine → Except Fault α}
    (h : ∀ m n : Machine, n.toTermGraph = m.toTermGraph → r n = r m) : (look r).Local := by
  refine local_of_faults (moves_look r) (faults_look r) fun m a m' run n same => ?_
  obtain ⟨read, rfl⟩ := look_eq_ok run
  have graph : n.graph = m'.graph := congrArg TermGraph.graph same
  rw [← graph]
  exact look_ok ((h m' n same).trans read)

theorem Local.bind (h : e.Local) (hf : ∀ a, (f a).Local) : (e >>= f).Local where
  pays := h.pays.bind fun a => (hf a).pays
  patient := h.patient.bind fun a => (hf a).patient
  same m r m' ends n same := by
    rcases ends.bind h.pays fun a => (hf a).pays with ⟨a, m₁, first, rest⟩ | ⟨stop, rfl, first⟩
    · exact (bind_ok (h.same m _ m₁ first n same)).trans
        ((hf a).same m₁ r m' rest _ (h.landed first same))
    · exact bind_error (h.same m _ m' first n same)

theorem put_local (i : NodeId) (node : Node) : (put i node).Local := by
  refine local_of_faults (put_moves i node) (faults_put i node) fun m a m' run n same => ?_
  have graph : n.graph = m.graph := congrArg TermGraph.graph same
  unfold put at run ⊢
  rw [graph]
  cases old : m.graph.node i with
  | error e =>
    rw [old] at run
    cases run
  | ok old' =>
    simp only [old] at run ⊢
    cases slots : old'.slots with
    | inline a b =>
      simp only [slots] at run ⊢
      cases run
      rfl
    | data l =>
      simp only [slots] at run ⊢
      cases run
      rfl
    | pooled b =>
      simp only [slots] at run ⊢
      cases released : m.graph.releaseBlock? b with
      | none =>
        rw [released] at run
        cases run
      | some g =>
        simp only [released] at run ⊢
        cases run
        rfl

theorem storeLinks_local (links : List Link) : (storeLinks links).Local where
  pays := storeLinks_moves links
  patient m m' run := by
    unfold storeLinks at run
    repeat' split at run
    all_goals cases run
  same m r m' ends n same := by
    have graph : n.graph = m.graph := congrArg TermGraph.graph same
    rcases links with _ | ⟨x, _ | ⟨y, _ | ⟨z, rest⟩⟩⟩
    · exact (local_pure _).same m r m' ends n same
    · exact (local_pure _).same m r m' ends n same
    · exact (local_pure _).same m r m' ends n same
    · have run := ends.run
      simp only [storeLinks] at run ⊢
      rw [graph]
      cases allocated : m.graph.allocBlock (x :: y :: z :: rest).length with
      | error e =>
        rw [allocated] at run
        cases r with
        | ok slots => cases run
        | error stop =>
          cases run
          rw [← graph]
          rfl
      | ok found =>
        obtain ⟨block, g⟩ := found
        simp only [allocated] at run ⊢
        cases written : g.writeBlock? block (x :: y :: z :: rest) with
        | none =>
          rw [written] at run
          cases r with
          | ok slots => cases run
          | error stop =>
            cases run
            exact (ends.final _ rfl).elim
        | some g =>
          simp only [written] at run ⊢
          cases r with
          | error stop => cases run
          | ok slots =>
            cases run
            rfl

theorem setSuccessor_local (i : NodeId) (k : Nat) (target : Link) :
    (setSuccessor i k target).Local := by
  refine local_of_faults (setSuccessor_moves i k target) (faults_setSuccessor i k target)
    fun m a m' run n same => ?_
  have graph : n.graph = m.graph := congrArg TermGraph.graph same
  have signature : n.signature = m.signature := congrArg TermGraph.signature same
  unfold setSuccessor at run ⊢
  rw [same]
  cases found : m.toTermGraph.successor i k with
  | error e =>
    rw [found] at run
    cases run
  | ok l =>
    cases old : m.graph.node i with
    | error e =>
      rw [found, old] at run
      cases run
    | ok node =>
      simp only [found, old] at run ⊢
      cases slots : node.slots with
      | inline a b =>
        simp only [slots] at run ⊢
        cases run
        rw [← signature]
        rfl
      | data l =>
        rw [slots] at run
        cases run
      | pooled b =>
        simp only [slots] at run ⊢
        cases block : m.graph.block? b with
        | none =>
          rw [block] at run
          cases run
        | some links =>
          simp only [block] at run ⊢
          cases written : m.graph.writeBlock? b (links.set k target) with
          | none =>
            rw [written] at run
            cases run
          | some g =>
            simp only [written] at run ⊢
            cases run
            rfl

/-! ## Effects with a footprint -/

/-- A local effect that rewrites slots of `S` only, and slots that were free. -/
structure Confined (S : NodeId → Prop) (e : Eff α) : Prop extends Local e where
  touches : ∀ m a m', m.graph.Sound → (∀ i, S i → i < m.graph.capacity) → e m = .ok a m' →
    m'.collections = m.collections → m.toTermGraph.Touches S m'.toTermGraph

theorem confined_pure (a : α) : (pure a : Eff α).Confined S :=
  ⟨local_pure a, fun m _ _ sound _ run _ => by
    cases run
    exact .refl sound⟩

theorem confined_throw {stop : Stop} (patient : stop ≠ .preempted) : (throw stop : Eff α).Confined S :=
  ⟨local_throw patient, fun _ _ _ _ _ run => by cases run⟩

theorem confined_look {r : Machine → Except Fault α}
    (h : ∀ m n : Machine, n.toTermGraph = m.toTermGraph → r n = r m) : (look r).Confined S :=
  ⟨local_look h, fun m _ _ sound _ run _ => by
    obtain ⟨-, rfl⟩ := look_eq_ok run
    exact .refl sound⟩

theorem Confined.bind (h : e.Confined S) (hf : ∀ a, (f a).Confined S) : (e >>= f).Confined S where
  toLocal := h.toLocal.bind fun a => (hf a).toLocal
  touches m b m' sound bound run uncollected := by
    obtain ⟨a, m₁, first, rest⟩ := bind_eq_ok run
    have counted : m.collections ≤ m₁.collections := (h.pays.ok first).counts
    have counted' : m₁.collections ≤ m'.collections := ((hf a).pays.ok rest).counts
    have touched := h.touches m a m₁ sound bound first (by omega)
    have touched' := (hf a).touches m₁ b m' touched.sound
      (fun i hi => touched.capacity.symm ▸ bound i hi) rest (by omega)
    exact touched.trans touched' fun _ hi => .inl hi

theorem put_confined {node : Node} (hs : S i) (unpooled : ∀ b, node.slots ≠ .pooled b)
    (plain : ∀ type, node.slots.literal? ≠ some (.type type)) : (put i node).Confined S where
  toLocal := put_local i node
  touches m a m' sound bound run _ := by
    obtain ⟨g', run', spares, here, -⟩ := put_spares (n := node) sound (bound i hs)
      fun b hb => absurd hb (unpooled b)
    cases run'.symm.trans run
    exact touches_of_spares hs spares here plain

theorem rewrite_confined (hs : S i) (tag : Tag) (symbol : SymbolId) (aux : Nat)
    (links : List Link) : (rewrite i tag symbol aux links).Confined S where
  toLocal := (storeLinks_local links).bind fun _ => put_local i _
  touches m a m' sound bound run _ := by
    rcases rewrite_spares sound (bound i hs) tag symbol aux links with
      ⟨slots, g', run', spares, here, linked, -⟩ | ⟨err, failed⟩
    · cases run'.symm.trans run
      refine touches_of_spares hs spares here fun type literal => ?_
      rw [linked] at literal
      cases literal
    · cases failed.symm.trans run

theorem tagFor_confined (symbol : SymbolId) : (tagFor symbol).Confined S :=
  confined_look fun _ _ same => congrArg (·.signature.tagFor symbol) same

theorem rewriteTo_confined (hs : S i) (symbol : SymbolId) (links : List Link) :
    (rewriteTo i symbol links).Confined S :=
  (tagFor_confined symbol).bind fun tag => rewrite_confined hs tag symbol 0 links

theorem rewriteInt_confined (hs : S i) (v : Int64) : (rewriteInt i v).Confined S :=
  (tagFor_confined Builtin.int).bind fun _ =>
    put_confined hs (fun _ hb => by cases hb) fun _ hl => by cases hl

theorem rewriteFail_confined (hs : S i) : (rewriteFail i).Confined S :=
  put_confined hs (fun _ hb => by cases hb) fun _ hl => by cases hl

theorem rewriteForward_confined (hs : S i) (target : Link) : (rewriteForward i target).Confined S :=
  put_confined hs (fun _ hb => by cases hb) fun _ hl => by cases hl

theorem Requests.local {n : Nat} {request : Eff (List NodeId)} (h : Requests n request) :
    request.Local where
  pays := h.pays
  patient := h.patient
  same m r m' ends k same := by
    obtain ⟨enough, rfl, rfl⟩ := h.uncollected m r m' ends
    have graph : k.graph = m.graph := congrArg TermGraph.graph same
    have served := h.served k (graph.symm ▸ enough)
    rwa [graph] at served

/-- New nodes belong to the footprint of what is done with them only as free slots. -/
theorem Requests.confined {n : Nat} {request : Eff (List NodeId)} {f : List NodeId → Eff β}
    (h : Requests n request) (hf : ∀ ids, (f ids).Confined fun i => S i ∨ i ∈ ids) :
    (request >>= f).Confined S where
  toLocal := h.local.bind fun ids => (hf ids).toLocal
  touches m b m' sound bound run uncollected := by
    obtain ⟨ids, m₁, first, rest⟩ := bind_eq_ok run
    have counted : m.collections ≤ m₁.collections := (h.pays.ok first).counts
    have counted' : m₁.collections ≤ m'.collections := ((hf ids).pays.ok rest).counts
    obtain ⟨-, taken, rfl⟩ := h.uncollected _ _ _ (ends_of_ok first (by omega))
    cases taken
    have taken := Graph.afterTake_taken (n := n) sound
    have free : ∀ i ∈ m.graph.free.take n, i ∈ m.graph.free := fun i hi => List.mem_of_mem_take hi
    have touched : m.toTermGraph.Touches S (m.setGraph (m.graph.afterTake n)).toTermGraph := by
      refine ⟨rfl, taken.sound, taken.capacity, fun i hi hf => hi ?_, fun i _ hi => ?_, ?_⟩
      · rw [taken.split]
        exact List.mem_append_right _ hf
      · exact taken.kept i fun ht => hi (free i ht)
      · intro i c type hc literal
        by_cases ht : i ∈ m.graph.free.take n
        · cases (taken.blank i ht).symm.trans hc
          cases literal
        · exact (taken.kept i ht).symm.trans hc
    have below : ∀ i, (S i ∨ i ∈ m.graph.free.take n) → i < (m.graph.afterTake n).capacity := by
      intro i hi
      rw [taken.capacity]
      exact hi.elim (bound i) fun ht => sound.free_lt i (free i ht)
    have touched' := (hf _).touches _ b m' taken.sound below rest (by omega)
    exact touched.trans touched' fun i hi => hi.imp_right (free i)

end Eff

end ChoiceGraph
