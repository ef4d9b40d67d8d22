import ChoiceGraph.Proofs.Enumeration
import ChoiceGraph.Proofs.Lineages

/-! # Identifiers along effects

Whatever an effect does has a history, and no frame comes to know an identifier that was not issued.
Writes of given nodes are told one by one. A variable is narrowed after everything below it has been
built; a choice is pulled at once. The constraints that narrowing adds to the frame in front name live
variables and choices. -/
namespace ChoiceGraph

/-! ## What was issued -/

/-- The store names identifiers below `n` only. -/
structure ConstraintStore.Under (n : Nat) (s : ConstraintStore) : Prop where
  bindings : ∀ e ∈ s.bindings, e.1 < n
  ties : ∀ p ∈ s.ties, p.1 < n ∧ p.2 < n

namespace ConstraintStore

variable {n n' : Nat} {s : ConstraintStore} {x y : BoundVar} {a b : ChoiceId}

theorem empty_under (n : Nat) : empty.Under n :=
  ⟨fun _ he => absurd he List.not_mem_nil, fun _ hp => absurd hp List.not_mem_nil⟩

theorem Under.mono (h : s.Under n) (le : n ≤ n') : s.Under n' :=
  ⟨fun e he => Nat.lt_of_lt_of_le (h.bindings e he) le,
    fun p hp => ⟨Nat.lt_of_lt_of_le (h.ties p hp).1 le, Nat.lt_of_lt_of_le (h.ties p hp).2 le⟩⟩

theorem Under.bind (h : s.Under n) (hx : x.id < n) (hy : y.id < n) (isLazy : Bool) :
    (s.bind x y isLazy).Under n := by
  have add : ∀ {s : ConstraintStore} {z : VarId} {b : Binding}, s.Under n → z < n →
      (s.addBinding z b).Under n := by
    intro s z b h hz
    refine ⟨fun e he => ?_, h.ties⟩
    rcases List.mem_append.mp he with he | he
    · exact h.bindings e he
    · rw [List.mem_singleton.mp he]
      exact hz
  unfold ConstraintStore.bind
  cases isLazy with
  | false => exact add (add h hx) hy
  | true => exact add h hx

theorem Under.tie (h : s.Under n) (ha : a < n) (hb : b < n) : (s.tie a b).Under n := by
  have add : ∀ {s : ConstraintStore} {a b : ChoiceId}, s.Under n → a < n → b < n →
      (s.addTie a b).Under n := by
    intro s a b h ha hb
    unfold addTie
    split
    · exact h
    · refine ⟨h.bindings, fun p hp => ?_⟩
      rcases List.mem_append.mp hp with hp | hp
      · exact h.ties p hp
      · rw [List.mem_singleton.mp hp]
        exact ⟨ha, hb⟩
  exact add (add h ha hb) hb ha

end ConstraintStore

/-- The frame knows identifiers below `n` only. -/
structure View.Under (n : Nat) (v : View) : Prop where
  decided : ∀ d ∈ v.decided.decisions, d.1 < n
  bound : v.bound.Under n

namespace View.Under

variable {n n' : Nat} {v : View} {id : ChoiceId}

theorem mono (h : v.Under n) (le : n ≤ n') : v.Under n' :=
  ⟨fun d hd => Nat.lt_of_lt_of_le (h.decided d hd) le, h.bound.mono le⟩

theorem set (h : v.Under n) (hid : id < n) (side : Side) :
    (View.mk (v.decided.set id side) v.bound).Under n := by
  refine ⟨fun d hd => ?_, h.bound⟩
  unfold Fingerprint.set at hd
  split at hd
  · exact h.decided d hd
  · rcases List.mem_cons.mp hd with rfl | hd
    · exact hid
    · exact h.decided d hd

end View.Under

namespace Machine

variable {m m' m'' start : Machine} {ρ : Rank} {v : View} {f : Computation → Computation}
  {log events : List Event} {n : Nat}

/-- The views of all searches. -/
def allViews (m : Machine) : List View := m.computations.flatMap Computation.views

theorem mem_allViews : v ∈ m.allViews ↔ v ∈ m.views ∨ ∃ c ∈ m.computations.tail, v ∈ c.views := by
  unfold allViews views
  cases m.computations with
  | nil => simp
  | cons c rest => simp

theorem mapInnermost_tail : (m.mapInnermost f).computations.tail = m.computations.tail := by
  unfold mapInnermost
  split
  · rfl
  · next hc => rw [hc]; rfl

theorem allViews_of_bare (search : SearchExtends m.computations m'.computations)
    (views : m'.views = m.views) : m'.allViews = m.allViews := by
  unfold allViews Machine.views at *
  generalize m.computations = cs at search views ⊢
  generalize m'.computations = cs' at search views ⊢
  cases search with
  | idle => rfl
  | inner => exact congrArg (· ++ _) views

/-- The identifiers that nodes carry, and those that frames know, were issued. -/
structure Issued (m : Machine) : Prop where
  nodes : m.Issues
  frames : ∀ v ∈ m.allViews, v.Under m.nextId

/-- One machine comes from another: there is a history between them. -/
def Stems (m m' : Machine) : Prop := ∃ log, m.History log m'

instance : IsPreorder Machine Stems where
  refl _ := ⟨[], .start⟩
  trans _ _ _ h k := by
    obtain ⟨log, history⟩ := h
    obtain ⟨log', history'⟩ := k
    exact ⟨_, history.trans history'⟩

theorem Step.stems (step : m.Step events m') : m.Stems m' := ⟨events, step.history⟩

/-- The machine has gone on: it has a history, and frames know issued identifiers only. -/
structure Traced (m m' : Machine) : Prop where
  stems : m.Stems m'
  frames : m.Issued → ∀ v ∈ m'.allViews, v.Under m'.nextId

theorem Traced.nextId (h : m.Traced m') : m.nextId ≤ m'.nextId :=
  h.stems.elim fun _ history => history.nextId

theorem Traced.issued (h : m.Traced m') (issued : m.Issued) : m'.Issued :=
  ⟨h.stems.elim fun _ history => history.issues issued.nodes, h.frames issued⟩

instance : IsPreorder Machine Traced where
  refl m := ⟨refl_of Stems m, Issued.frames⟩
  trans _ _ _ h k := ⟨trans_of Stems h.stems k.stems, fun issued => k.frames (h.issued issued)⟩

theorem Stems.traced (h : m.Stems m') (views : m'.allViews = m.allViews) : m.Traced m' := by
  refine ⟨h, fun issued v hv => ?_⟩
  obtain ⟨log, history⟩ := h
  exact (issued.frames v (views ▸ hv)).mono history.nextId

/-- Nothing that concerns identifiers has changed, though some may have been issued. -/
structure Tacit (m m' : Machine) : Prop where
  names : m.graph.KeepsNames m'.graph
  nextId : m.nextId ≤ m'.nextId
  views : m'.allViews = m.allViews

instance : IsPreorder Machine Tacit where
  refl _ := ⟨.refl _, Nat.le_refl _, rfl⟩
  trans _ _ _ h k := ⟨h.names.trans k.names, Nat.le_trans h.nextId k.nextId, k.views.trans h.views⟩

theorem Tacit.traced (h : m.Tacit m') : m.Traced m' :=
  (Step.plain h.names h.nextId).stems.traced h.views

theorem tacit_of_same (graph : m'.graph = m.graph) (nextId : m'.nextId = m.nextId)
    (computations : m'.computations = m.computations) : m.Tacit m' :=
  ⟨graph ▸ .refl _, nextId.ge, by rw [allViews, allViews, computations]⟩

theorem Quiet.tacit (q : m.Quiet m') (views : m'.views = m.views)
    (blanks : m.graph.Blanks m'.graph) : m.Tacit m' :=
  ⟨blanks.keepsNames, q.nextId.ge, allViews_of_bare q.search views⟩

end Machine

namespace Eff

open Machine

variable {α β : Type} {R S : Machine → Machine → Prop} {e : Eff α} {f : α → Eff β} {m : Machine}
  {ρ : Rank} {a : α} {s : Scope} {links : List Link}

/-! ## Effects that start on a given machine -/

/-- However it ends, the effect leads from this machine to one that is related to it. -/
def Goes (R : Machine → Machine → Prop) (e : Eff α) (m : Machine) : Prop :=
  match e m with
  | .ok _ m' => R m m'
  | .error _ m' => R m m'

theorem Goes.ok {m' : Machine} (h : e.Goes R m) (run : e m = .ok a m') : R m m' := by
  unfold Goes at h
  rwa [run] at h

theorem Goes.error {stop : Stop} {m' : Machine} (h : e.Goes R m) (run : e m = .error stop m') :
    R m m' := by
  unfold Goes at h
  rwa [run] at h

theorem Goes.mono (h : e.Goes R m) (le : ∀ m', R m m' → S m m') : e.Goes S m := by
  unfold Goes
  cases run : e m with
  | ok a m' => exact le m' (h.ok run)
  | error stop m' => exact le m' (h.error run)

theorem Goes.traced (h : e.Goes Tacit m) : e.Goes Traced m := h.mono fun _ => Tacit.traced

theorem Meets.goes {Q : α → Machine → Prop} {P : Machine → Prop} (h : e.Meets m Q P)
    (done : ∀ a m', e m = .ok a m' → Q a m' → R m m') (stopped : ∀ m', P m' → R m m') : e.Goes R m := by
  unfold Meets at h
  unfold Goes
  cases run : e m with
  | ok a m' =>
    rw [run] at h
    exact done a m' run h
  | error stop m' =>
    rw [run] at h
    cases stop with
    | fault f => exact h.elim
    | _ => exact stopped m' h

/-- An effect of which two things are known. -/
theorem Meets.and_goes {Q : α → Machine → Prop} {P : Machine → Prop} (h : e.Meets m Q P)
    (g : e.Goes R m) : e.Meets m (fun a m' => Q a m' ∧ R m m') fun m' => P m' ∧ R m m' := by
  unfold Meets at *
  cases run : e m with
  | ok a m' =>
    rw [run] at h
    exact ⟨h, g.ok run⟩
  | error stop m' =>
    rw [run] at h
    cases stop with
    | fault f => exact h.elim
    | _ => exact ⟨h, g.error run⟩

theorem goes_get {k : Machine → Eff β} (h : (k m).Goes R m) : ((get : Eff Machine) >>= k).Goes R m := h

section Preorder

variable [IsPreorder Machine R]

theorem goes_pure (a : α) : (pure a : Eff α).Goes R m := refl_of R m

theorem goes_throw (stop : Stop) : (throw stop : Eff α).Goes R m := refl_of R m

theorem Goes.bind (h : e.Goes R m) (hf : ∀ a m', e m = .ok a m' → R m m' → (f a).Goes R m') :
    (e >>= f).Goes R m := by
  unfold Goes
  cases run : e m with
  | ok a m' =>
    rw [bind_ok run]
    have rest := hf a m' run (h.ok run)
    cases run' : f a m' with
    | ok b m'' => exact trans_of R (h.ok run) (rest.ok run')
    | error stop m'' => exact trans_of R (h.ok run) (rest.error run')
  | error stop m' =>
    rw [bind_error run]
    exact h.error run

/-- What is known of the machine on the way, if the effect also keeps it. -/
theorem Goes.bind_keeps {Q : α → Machine → Rank → Prop} (h : e.Goes R m) (keeps : e.Keeps s m ρ Q)
    (hf : ∀ a m' ρ', m.Evolves s ρ m' [] ρ' → Q a m' ρ' → R m m' → (f a).Goes R m') :
    (e >>= f).Goes R m :=
  h.bind fun a m' run related => by
    unfold Keeps Meets at keeps
    rw [run] at keeps
    obtain ⟨ρ', ev, q⟩ := keeps
    exact hf a m' ρ' ev q related

theorem goes_look_bind {r : Machine → Except Fault α} (h : ∀ a, r m = .ok a → (f a).Goes R m) :
    (look r >>= f).Goes R m := by
  have looked : (look r).Goes R m := moves_look r m
  refine looked.bind fun a m' run _ => ?_
  obtain ⟨read, rfl⟩ := look_eq_ok run
  exact h a read

theorem goes_read {r : Machine → Except Fault α} (run : r m = .ok a) (h : (f a).Goes R m) :
    (look r >>= f).Goes R m :=
  goes_look_bind fun b read => by
    cases run.symm.trans read
    exact h

/-- Roots that are pushed for a while have no part in it. -/
theorem withRoots_goes (le : ∀ m m', m.Tacit m' → R m m') (h : e.Goes R (m.push links)) :
    (withRoots links e).Goes R m := by
  have push : R m (m.push links) := le _ _ (tacit_of_same rfl rfl rfl)
  have pop : ∀ m' : Machine, R m' (m'.pop links.length) := fun m' => le _ _ (tacit_of_same rfl rfl rfl)
  unfold Goes withRoots
  rw [show { m with roots := links.reverse ++ m.roots } = m.push links from rfl]
  cases run : e (m.push links) with
  | ok a m' => exact trans_of R push (trans_of R (h.ok run) (pop m'))
  | error stop m' => exact trans_of R push (trans_of R (h.error run) (pop m'))

end Preorder

/-! ## Requests -/

theorem collect_tacit (h : m.Inv [] ρ) : collect.Goes Tacit m := by
  have closed : m.graph.Closed m.rootSet := by simpa using h.closed
  obtain ⟨g, run, collected⟩ := Graph.collect_exact h.storage.tenancy closed
  have graph : (collectedTo m g).graph = g := (chargeCollection_same _).1
  have ran : collect m = .ok (g.free.length - m.graph.free.length) (collectedTo m g) := by
    unfold collect
    rw [run]
    rfl
  have quiet := (collect_meets (R := fun _ => True) h).ok ran
  unfold Goes
  rw [ran]
  exact quiet.tacit (chargeCollection_views _) (graph.symm ▸ collected.blanks)

theorem allocate_tacit (h : m.Inv [] ρ) (n : Nat) : (allocate n).Goes Tacit m := by
  have meets := allocate_meets h n
  have blanks := allocate_blanks h n
  unfold Meets at meets
  unfold Goes
  cases run : allocate n m with
  | ok ids m' =>
    rw [run] at meets blanks
    exact meets.1.tacit blanks.1 blanks.2
  | error stop m' =>
    rw [run] at meets blanks
    cases stop with
    | fault f => exact meets.elim
    | _ => exact meets.tacit blanks.1 blanks.2

theorem allocate_rooted_tacit (h : m.Inv [] ρ) (live : ∀ i, some i ∈ links → m.Live [] i) (n : Nat) :
    (withRoots links (allocate n)).Goes Tacit m :=
  withRoots_goes (fun _ _ h => h) (allocate_tacit (h.push live) n)

theorem allocateOne_tacit (h : m.Inv [] ρ) : allocateOne.Goes Tacit m :=
  (allocate_tacit h 1).bind fun ids _ _ _ => by
    cases ids with
    | nil => exact goes_throw _
    | cons i _ => exact goes_pure i

theorem allocateFor_tacit (h : m.Inv [] ρ) (live : ∀ i, some i ∈ links → m.Live [] i) :
    (allocateFor links).Goes Tacit m :=
  withRoots_goes (fun _ _ h => h) (allocateOne_tacit (h.push live))

end Eff

/-! ## Writes -/

/-- Only variables and choices carry a tag of theirs. -/
theorem Signature.Sound.tagFor_unnamed {s : Signature} {id : SymbolId} {tag : Tag} (h : s.Sound)
    (ht : s.tagFor id = .ok tag) (other : id ≠ Builtin.choice ∧ id ≠ Builtin.narrowed ∧ id ≠ Builtin.free) :
    tag ≠ .free ∧ tag ≠ .choice := by
  by_cases lt : id < 10
  · rw [tagFor_builtin h lt] at ht
    have table : ∀ id < 10, id ≠ Builtin.choice ∧ id ≠ Builtin.narrowed ∧ id ≠ Builtin.free →
        Signature.standard.tagFor id ≠ .ok .free ∧ Signature.standard.tagFor id ≠ .ok .choice := by
      decide
    obtain ⟨free, choice⟩ := table id lt other
    exact ⟨fun same => free (same ▸ ht), fun same => choice (same ▸ ht)⟩
  · cases found : s.symbol? id with
    | none =>
      simp only [Signature.tagFor, Signature.symbol, found, bind, Except.bind] at ht
      cases ht
    | some sym =>
      rcases h.proper id sym (Nat.le_of_not_lt lt) found with ⟨type, index, ctor⟩ | call
      · cases (Signature.Symbol.IsConstructor.tagFor found ctor).symm.trans ht
        exact ⟨by simp, by simp⟩
      · cases (Signature.Symbol.IsCall.tagFor found call).symm.trans ht
        exact ⟨by simp, by simp⟩

theorem Builtin.other_of_proper {id : SymbolId} (le : 10 ≤ id) :
    id ≠ choice ∧ id ≠ narrowed ∧ id ≠ free := by
  have later : ∀ b : SymbolId, b < 10 → id ≠ b := fun b lt => (Nat.lt_of_lt_of_le lt le).ne'
  exact ⟨later _ (by decide), later _ (by decide), later _ (by decide)⟩

namespace Machine

variable {S : NodeId → Prop} {m m' : Machine} {i x : NodeId}

/-- Only nodes of `S` were written, and there is a history of it. -/
structure Charted (S : NodeId → Prop) (m m' : Machine) : Prop where
  redrawn : m.Redrawn S m'
  stems : m.Stems m'

/-- The same, as long as the nodes of `S` are slots of a sound graph over a sound signature. -/
def Charts (S : NodeId → Prop) (m m' : Machine) : Prop :=
  m.graph.Sound → m.signature.Sound → (∀ i, S i → i < m.graph.capacity) → m.Charted S m'

instance : IsPreorder Machine (Charts S) where
  refl _ sound _ bound := ⟨refl_of (Redraws S) _ sound bound, refl_of Stems _⟩
  trans _ _ _ h k sound signature bound := by
    have first := h sound signature bound
    have touches := first.redrawn.touches
    have second := k touches.sound (touches.signature.symm ▸ signature) fun i hi =>
      touches.capacity.symm ▸ bound i hi
    exact ⟨trans_of (Redraws S) (fun _ _ => first.redrawn) (fun _ _ => second.redrawn) sound bound,
      trans_of Stems first.stems second.stems⟩

theorem Charted.traced (h : m.Charted S m') : m.Traced m' :=
  h.stems.traced (by rw [allViews, allViews, h.redrawn.computations])

end Machine

namespace Eff

open Machine

variable {α : Type} {S : NodeId → Prop} {e : Eff α} {m : Machine} {i : NodeId} {c : Content}
  {tag : Tag} {symbol : SymbolId} {node : Node}

theorem Moves.charts (h : e.Moves (Redraws S)) (traced : ∀ m : Machine, m.graph.Sound →
    m.signature.Sound → (∀ i, S i → i < m.graph.capacity) → e.Goes Traced m) : e.Moves (Charts S) := by
  intro m
  cases run : e m with
  | ok a m' => exact fun sound signature bound =>
      ⟨h.ok run sound bound, ((traced m sound signature bound).ok run).stems⟩
  | error stop m' => exact fun sound signature bound =>
      ⟨h.error run sound bound, ((traced m sound signature bound).error run).stems⟩

theorem Moves.charted (h : e.Moves (Charts S)) (sound : m.graph.Sound) (signature : m.signature.Sound)
    (bound : ∀ i, S i → i < m.graph.capacity) : e.Goes (Charted S) m := by
  unfold Goes
  cases run : e m with
  | ok a m' => exact h.ok run sound signature bound
  | error stop m' => exact h.error run sound signature bound

theorem Goes.charted_traced (h : e.Goes (Charted S) m) : e.Goes Traced m := h.mono fun _ => Charted.traced

/-! ### Nodes without an identifier -/

theorem Writes.traced {e : Eff Unit} (h : e.Writes i c m)
    (step : ∀ g', m.graph.Sets i c g' → ∃ events, m.Step events (m.setGraph g')) : e.Goes Traced m := by
  unfold Goes
  rcases h with ⟨g', run, sets⟩ | ⟨err, run⟩
  · rw [run]
    obtain ⟨events, step⟩ := step g' sets
    exact step.stems.traced rfl
  · rw [run]
    exact refl_of Traced m

theorem Writes.unnamed {e : Eff Unit} (h : e.Writes i c m) (unnamed : ¬ c.Named) : e.Goes Tacit m := by
  unfold Goes
  rcases h with ⟨g', run, sets⟩ | ⟨err, run⟩
  · rw [run]
    exact ⟨sets.keepsNames unnamed, Nat.le_refl _, rfl⟩
  · rw [run]
    exact refl_of Tacit m

theorem rewrite_traced (sound : m.graph.Sound) (lt : i < m.graph.capacity)
    (unnamed : tag ≠ .free ∧ tag ≠ .choice) (symbol : SymbolId) (aux : Nat) (links : List Link) :
    (rewrite i tag symbol aux links).Goes Traced m := by
  unfold Goes
  rcases rewrite_spares sound lt tag symbol aux links with ⟨slots, g', run, spares, here, -⟩ | ⟨err, run⟩
  · rw [run]
    exact Tacit.traced ⟨spares.keepsNames here unnamed.1 unnamed.2, Nat.le_refl _, rfl⟩
  · rw [run]
    exact refl_of Traced m

theorem put_traced (sound : m.graph.Sound) (lt : i < m.graph.capacity)
    (unpooled : ∀ b, node.slots ≠ .pooled b) (unnamed : node.tag ≠ .free ∧ node.tag ≠ .choice) :
    (put i node).Goes Traced m := by
  obtain ⟨g', run, spares, here, -⟩ := put_spares (n := node) sound lt fun b hb => absurd hb (unpooled b)
  unfold Goes
  rw [run]
  exact Tacit.traced ⟨spares.keepsNames here unnamed.1 unnamed.2, Nat.le_refl _, rfl⟩

theorem rewrite_charts (hs : S i) (unnamed : tag ≠ .free ∧ tag ≠ .choice) (symbol : SymbolId)
    (aux : Nat) (links : List Link) : (rewrite i tag symbol aux links).Moves (Charts S) :=
  (rewrite_redraws hs tag symbol aux links).charts fun _ sound _ bound =>
    rewrite_traced sound (bound i hs) unnamed symbol aux links

theorem rewriteTo_charts (hs : S i)
    (other : symbol ≠ Builtin.choice ∧ symbol ≠ Builtin.narrowed ∧ symbol ≠ Builtin.free)
    (links : List Link) : (rewriteTo i symbol links).Moves (Charts S) :=
  (rewriteTo_redraws hs symbol links).charts fun _ sound signature bound =>
    goes_look_bind fun _ ht =>
      rewrite_traced sound (bound i hs) (signature.tagFor_unnamed ht other) symbol 0 links

/-- A literal other than the type of a variable. -/
theorem rewriteData_traced (sound : m.graph.Sound) (signature : m.signature.Sound)
    (lt : i < m.graph.capacity)
    (other : symbol ≠ Builtin.choice ∧ symbol ≠ Builtin.narrowed ∧ symbol ≠ Builtin.free) (aux : Nat)
    (literal : Literal) : (rewriteData i symbol aux literal).Goes Traced m :=
  goes_look_bind fun _ ht => put_traced sound lt nofun (signature.tagFor_unnamed ht other)

theorem rewriteInt_charts (hs : S i) (v : Int64) : (rewriteInt i v).Moves (Charts S) :=
  (rewriteInt_redraws hs v).charts fun _ sound signature bound =>
    rewriteData_traced sound signature (bound i hs) (by decide) 0 (.int v)

theorem rewriteFail_charts (hs : S i) : (rewriteFail i).Moves (Charts S) :=
  (rewriteFail_redraws hs).charts fun _ sound _ bound =>
    put_traced sound (bound i hs) nofun ⟨nofun, nofun⟩

theorem rewriteForward_charts (hs : S i) (target : Link) : (rewriteForward i target).Moves (Charts S) :=
  (rewriteForward_redraws hs target).charts fun _ sound _ bound =>
    put_traced sound (bound i hs) nofun ⟨nofun, nofun⟩

/-! ### New identifiers -/

/-- A node is given a new identifier; a write that fails leaves the identifier unused. -/
theorem fresh_traced {w : Nat → Eff Unit}
    (writes : (w m.nextId).Writes i c { m with nextId := m.nextId + 1 })
    (step : ∀ g', m.graph.Sets i c g' →
      ∃ events, m.Step events { m with nextId := m.nextId + 1, graph := g' }) :
    (freshId >>= w).Goes Traced m := by
  have drawn : freshId m = .ok m.nextId { m with nextId := m.nextId + 1 } := rfl
  unfold Goes
  rw [bind_ok drawn]
  rcases writes with ⟨g', run, sets⟩ | ⟨err, run⟩
  · rw [run]
    obtain ⟨events, step⟩ := step g' sets
    exact step.stems.traced rfl
  · rw [run]
    exact Tacit.traced ⟨.refl _, Nat.le_succ _, rfl⟩

theorem freshFree_traced (sound : m.graph.Sound) (lt : i < m.graph.capacity) (type : Option TypeId) :
    (freshId >>= fun id => rewriteFree i id type).Goes Traced m :=
  fresh_traced (rewriteFree_writes (m := { m with nextId := m.nextId + 1 }) sound lt m.nextId type)
    fun _ sets => ⟨_, .fresh sets rfl⟩

theorem freshChoice_traced (sound : m.graph.Sound) (lt : i < m.graph.capacity) (left right : NodeId) :
    (freshId >>= fun id => rewrite i .choice Builtin.choice id [some left, some right]).Goes Traced m :=
  fresh_traced (rewrite_writes (m := { m with nextId := m.nextId + 1 }) sound lt .choice
    Builtin.choice m.nextId [left, right]) fun _ sets =>
      ⟨_, .choice (f := ⟨Builtin.choice, m.nextId, left, right⟩) rfl rfl sets rfl⟩

/-- A variable becomes a choice under its identifier. -/
theorem narrowing_traced {id : Nat} {type : Option TypeId} (sound : m.graph.Sound)
    (free : m.graph.content? i = some (freeContent id type)) (left right : NodeId) :
    (rewrite i .choice Builtin.narrowed id [some left, some right]).Goes Traced m := by
  let f : Fork := ⟨Builtin.narrowed, id, left, right⟩
  have free : m.graph.content? i = some (freeContent f.id type) := free
  have writes := rewrite_writes sound (Graph.content_lt free) .choice Builtin.narrowed id [left, right]
  refine (writes.meets (Q := fun _ m' => m.Traced m') (fun g sets => ?_) (refl_of Traced m)).goes
    (fun _ _ _ traced => traced) fun _ traced => traced
  have step : m.Step [.origin f] (m.setGraph g) := .narrowing rfl free sets rfl
  exact step.stems.traced rfl

theorem freshFree_charts (hs : S i) :
    (freshId >>= fun id => rewriteFree i id none).Moves (Charts S) :=
  (freshId_redraws.bind fun id => rewriteFree_redraws hs id).charts fun _ sound _ bound =>
    freshFree_traced sound (bound i hs) none

theorem freshChoice_charts (hs : S i) (left right : NodeId) :
    (freshId >>= fun id => rewrite i .choice Builtin.choice id [some left, some right]).Moves (Charts S) :=
  (freshId_redraws.bind fun _ => rewrite_redraws hs _ _ _ _).charts fun _ sound _ bound =>
    freshChoice_traced sound (bound i hs) left right

end Eff

end ChoiceGraph
