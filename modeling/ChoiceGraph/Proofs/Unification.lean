import ChoiceGraph.Proofs.Derivations
import ChoiceGraph.Proofs.Ground
import ChoiceGraph.Proofs.Operations
import ChoiceGraph.Proofs.Partition

/-! # Equality of ground terms

On ground terms a unification and an equality test decide the same: whether the terms are equal,
literals by value. A unification of two constructors becomes a conjunction of unifications of their
arguments, in fresh nodes, and is decided by the first of them that fails. All of this happens in
the call and in the fresh nodes, so that the terms stay what they are. -/
namespace ChoiceGraph

namespace Machine

variable {m m' m'' : Machine} {S S' : NodeId → Prop} {n n' : Nat} {i : NodeId} {c : Content}
  {g' : Graph}

/-- The slice has no bound. -/
structure Unbounded (m : Machine) : Prop where
  remaining : m.slice.remaining = none
  preempt : m.slice.preempt = false

theorem Unbounded.goes (h : m.Unbounded) : m.slice.isOver = false := by
  rw [Slice.isOver, h.remaining, h.preempt]
  rfl

theorem tick_goes (going : m.slice.isOver = false) :
    Reduction.tick m = .ok () { m with slice := m.slice.spend } := by
  unfold Reduction.tick
  rw [going]
  rfl

theorem Unbounded.spend (h : m.Unbounded) : Unbounded { m with slice := m.slice.spend } :=
  ⟨congrArg (Option.map (· - 1)) h.remaining, h.preempt⟩

/-- Nodes in `S` and at most `n` free slots are used up. -/
structure Uses (m : Machine) (S : NodeId → Prop) (n : Nat) (m' : Machine) : Prop where
  touches : m.toTermGraph.Touches S m'.toTermGraph
  free : m.graph.free.length ≤ m'.graph.free.length + n
  unbounded : m'.Unbounded

theorem Uses.refl (sound : m.graph.Sound) (h : m.Unbounded) : m.Uses S 0 m :=
  ⟨.refl sound, Nat.le_refl _, h⟩

theorem Uses.trans (h : m.Uses S n m') (h' : m'.Uses S' n' m'')
    (sub : ∀ i, S' i → S i ∨ i ∈ m.graph.free) : m.Uses S (n + n') m'' where
  touches := h.touches.trans h'.touches sub
  free := by
    have first := h.free
    have second := h'.free
    omega
  unbounded := h'.unbounded

theorem Uses.mono (h : m.Uses S n m') (sub : ∀ i, S i → S' i ∨ i ∈ m.graph.free) (le : n ≤ n') :
    m.Uses S' n' m' where
  touches := { h.touches with
    others := fun i hi hf => h.touches.others i (fun hs => (sub i hs).elim hi hf) hf }
  free := h.free.trans (Nat.add_le_add_left le _)
  unbounded := h.unbounded

/-- A content in the place of another uses that node only. -/
theorem uses_of_sets (h : m.Unbounded) (hs : S i) (sets : m.graph.Sets i c g')
    (plain : ∀ type, c.cargo ≠ .literal (.type type)) : m.Uses S 0 (m.setGraph g') where
  touches :=
    { signature := rfl
      sound := sets.sound
      capacity := sets.capacity
      unfree := fun j hj => sets.free.symm ▸ hj
      others := fun j hj _ => sets.others j fun same => hj (same ▸ hs)
      typed := fun j d type hd literal => by
        by_cases same : j = i
        · subst same
          cases sets.same.symm.trans hd
          exact absurd literal (plain type)
        · exact (sets.others j same).symm.trans hd }
  free := sets.free.symm ▸ Nat.le_refl _
  unbounded := ⟨h.remaining, h.preempt⟩

theorem uses_of_taken {ids : List NodeId} (h : m.Unbounded)
    (taken : m.graph.Taken ids g') : m.Uses S ids.length (m.setGraph g') where
  touches :=
    { signature := rfl
      sound := taken.sound
      capacity := taken.capacity
      unfree := fun i hi hf => hi (taken.split ▸ List.mem_append_right _ hf)
      others := fun i _ hi => taken.kept i fun ht => hi (taken.split ▸ List.mem_append_left _ ht)
      typed := fun i d type hd literal => by
        by_cases new : i ∈ ids
        · cases (taken.blank i new).symm.trans hd
          cases literal
        · exact (taken.kept i new).symm.trans hd }
  free := by
    rw [taken.split, List.length_append]
    exact (Nat.add_comm _ _).le
  unbounded := ⟨h.remaining, h.preempt⟩

/-- A step that is paid for counts as nothing used. -/
theorem Uses.paid (h : Uses { m with slice := m.slice.spend } S n m') : m.Uses S n m' :=
  ⟨h.touches, h.free, h.unbounded⟩

theorem Retains.spend {m₀ : Machine} (h : m₀.Retains m) :
    m₀.Retains { m with slice := m.slice.spend } :=
  ⟨h.signature, h.sound, h.capacity, h.unfree, h.kept⟩

theorem Retains.uses {m₀ : Machine} (h : m₀.Retains m) (uses : m.Uses S n m')
    (spare : ∀ i, S i → m₀.Spare i) : m₀.Retains m' :=
  h.touches uses.touches spare

end Machine

theorem Graph.Sets.again {g g' g'' : Graph} {i : NodeId} {c d : Content} (h : g.Sets i c g')
    (h' : g'.Sets i d g'') : g.Sets i d g'' where
  sound := h'.sound
  free := h'.free.trans h.free
  capacity := h'.capacity.trans h.capacity
  grow := h'.grow.trans h.grow
  max := h'.max.trans h.max
  pools := h'.pools.trans h.pools
  same := h'.same
  others j hj := (h'.others j hj).trans (h.others j hj)

namespace Eff

variable {α β : Type} {e : Eff α} {f : α → Eff β} {m : Machine} {Q Q' : α → Machine → Prop}
  {P : β → Machine → Prop} {i : NodeId} {c : Content} {ls : List NodeId}

/-- The effect comes to an end, in one of these ways. -/
def Returns (e : Eff α) (m : Machine) (Q : α → Machine → Prop) : Prop :=
  ∃ a m', e m = .ok a m' ∧ Q a m'

theorem Returns.bind (h : e.Returns m Q) (hf : ∀ a m', Q a m' → (f a).Returns m' P) :
    (e >>= f).Returns m P := by
  obtain ⟨a, m', run, q⟩ := h
  obtain ⟨b, m'', run', p⟩ := hf a m' q
  exact ⟨b, m'', (bind_ok run).trans run', p⟩

theorem Returns.mono (h : e.Returns m Q) (sub : ∀ a m', Q a m' → Q' a m') : e.Returns m Q' := by
  obtain ⟨a, m', run, q⟩ := h
  exact ⟨a, m', run, sub a m' q⟩

/-- Writing can fail only for want of a block. -/
theorem Writes.sets {e : Eff Unit} (h : e.Writes i c m) (faults : e.Faults) :
    ∃ g', e m = .ok () (m.setGraph g') ∧ m.graph.Sets i c g' := by
  rcases h with written | ⟨err, failed⟩
  · exact written
  · obtain ⟨fault, same⟩ := faults m _ m failed
    cases same

theorem rewriteTo_faults (i : NodeId) (symbol : SymbolId) (short : ls.length ≤ 2) :
    (rewriteTo i symbol (ls.map some)).Faults := by
  refine (faults_look _).bind fun tag => ?_
  have stored : (storeLinks (ls.map some)).Faults := by
    intro m stop m' run
    match ls, short with
    | [], _ => cases run
    | [a], _ => cases run
    | [a, b], _ => cases run
  exact stored.bind fun slots => faults_put i _

/-- A node is given a symbol with at most two links. -/
theorem rewriteTo_sets (ls : List NodeId) (h : m.graph.Sound) (lt : i < m.graph.capacity) {tag : Tag}
    {symbol : SymbolId} (ht : m.signature.tagFor symbol = .ok tag) (short : ls.length ≤ 2) :
    ∃ g', rewriteTo i symbol (ls.map some) m = .ok () (m.setGraph g') ∧
      m.graph.Sets i ⟨tag, symbol, 0, .links ls⟩ g' :=
  (rewriteTo_writes h lt ht ls).sets (rewriteTo_faults i symbol short)

theorem rewriteFail_sets (h : m.graph.Sound) (lt : i < m.graph.capacity) :
    ∃ g', rewriteFail i m = .ok () (m.setGraph g') ∧ m.graph.Sets i .blank g' :=
  (rewriteFail_writes h lt).sets (faults_put i _)

end Eff

/-! ## Driving calls -/

namespace Reduction

open Eff Machine

variable {m₀ m m₁ : Machine} {ρ : Rank} {i j u p x y a b : NodeId} {c d : Content} {sym : Symbol}
  {s t : Ground} {F k : Nat} {r : Reducer}

/-- What is no call is in head normal form. -/
theorem headNormalize_idle (skip : m.skip i = .ok j) (hc : m.graph.content? j = some c)
    (tag : c.tag ≠ .operation) : headNormalize (F + 1) i m = .ok j m := by
  have idle : isReducible m j = .ok false := by
    unfold isReducible
    simp only [TermGraph.tag_content hc, bind, Except.bind, ne_eq, tag, not_false_eq_true, if_true]
    rfl
  rw [headNormalize_eq]
  exact (bind_ok (look_ok skip)).trans ((bind_ok (look_ok idle)).trans rfl)

/-- A call is paid for, does its work, and is driven on. -/
theorem headNormalize_call (going : m.slice.isOver = false) (skip : m.skip i = .ok j)
    (hc : m.graph.content? j = some c) (tag : c.tag = .operation)
    (found : m.signature.symbol? c.symbol = some sym) (kind : sym.kind = .function) :
    headNormalize (F + 1) i m = (runHead (reducer F) j sym.head >>= fun _ => headNormalize F j)
      { m with slice := m.slice.spend } := by
  have symbol := TermGraph.symbol_content (t := m.toTermGraph) hc found
  have reducible : isReducible m j = .ok true := by
    unfold isReducible
    simp only [TermGraph.tag_content hc, tag, symbol, kind, bind, Except.bind]
    rfl
  have work : headStep (reducer F) j m =
      runHead (reducer F) j sym.head { m with slice := m.slice.spend } := by
    rw [headStep_eq]
    refine (bind_ok (tick_goes going)).trans (bind_ok (look_ok ?_))
    exact symbol
  rw [headNormalize_eq]
  refine (bind_ok (look_ok skip)).trans ((bind_ok (look_ok reducible)).trans ?_)
  rw [if_pos rfl]
  show EStateM.bind _ _ _ = EStateM.bind _ _ _
  unfold EStateM.bind
  rw [work]
  rfl

/-- A node's link is redirected to the head normal form of what it led to. -/
theorem relink_linked {α : Type} {e : Eff α} (sound : m.graph.Sound) (hc : m.graph.content? u = some c)
    (linked : c.Linked m.signature) (hk : c.links[k]? = some p) (x : NodeId) :
    ∃ g', m.graph.Sets u (c.setLink k x) g' ∧
      (do
        if some p ≠ some x then setSuccessor u k (some x)
        e) m = e (m.setGraph g') := by
  by_cases same : p = x
  · subst same
    refine ⟨m.graph, ?_, ?_⟩
    · rw [Content.setLink_stored linked.stored hk]
      exact ⟨sound, rfl, rfl, rfl, rfl, rfl, hc, fun _ _ => rfl⟩
    · simp only [ne_eq, not_true_eq_false, if_false]
      rfl
  · have lt := (List.getElem?_eq_some_iff.mp hk).1
    obtain ⟨g', run, sets⟩ :=
      (setSuccessor_linked sound hc linked lt x).sets (faults_setSuccessor u k (some x))
    refine ⟨g', sets, ?_⟩
    simp only [ne_eq, Option.some.injEq, same, not_false_eq_true, if_true]
    exact bind_ok run

theorem relink_sets {α : Type} {e : Eff α} (sound : m.graph.Sound) (signature : m.signature.Sound)
    (hc : m.graph.content? u = some c) (fits : c.Fits m.signature) (hk : c.links[k]? = some p)
    (x : NodeId) : ∃ g', m.graph.Sets u (c.setLink k x) g' ∧
      (do
        if some p ≠ some x then setSuccessor u k (some x)
        e) m = e (m.setGraph g') :=
  relink_linked sound hc (fits.linked signature (List.getElem?_eq_some_iff.mp hk).1) hk x

/-- The head normal form of an argument takes its place in the node, which is then settled. -/
theorem headArg_linked (reads : m.successor u k = .ok (some p)) (head : r.head p m = .ok x m₁)
    (sound : m₁.graph.Sound) (hc : m₁.graph.content? u = some c) (linked : c.Linked m₁.signature)
    (hk : c.links[k]? = some p) (apart : x ≠ u) (hd : m₁.graph.content? x = some d) (bound : d.tag ≠ .free)
    (ends : d.tag ≠ .forward) :
    ∃ g', m₁.graph.Sets u (c.setLink k x) g' ∧ g'.content? x = some d ∧
      headArg r u k m = settle u k x (m₁.setGraph g') := by
  obtain ⟨g', sets, moved⟩ := relink_linked (e := do
    if (← look (·.tag x)) = .free then narrow x
    settle u k (← look (·.skip x))) sound hc linked hk x
  have there : (m₁.setGraph g').graph.content? x = some d := (sets.others x apart).trans hd
  have tag : (m₁.setGraph g').tag x = .ok d.tag := TermGraph.tag_content there
  have skip : (m₁.setGraph g').skip x = .ok x := TermGraph.skip_self there ends
  refine ⟨g', sets, there, ?_⟩
  calc headArg r u k m
      = _ := (bind_ok (look_ok reads)).trans
          ((bind_ok (look_ok (r := fun _ => Link.target (some p)) rfl)).trans (bind_ok head))
    _ = _ := moved
    _ = (if d.tag = .free then narrow x >>= fun _ => look (·.skip x) >>= settle u k
          else look (·.skip x) >>= settle u k) (m₁.setGraph g') := bind_ok (look_ok tag)
    _ = (look (·.skip x) >>= settle u k) (m₁.setGraph g') := by rw [if_neg bound]
    _ = _ := bind_ok (look_ok skip)

theorem headArg_settles (reads : m.successor u k = .ok (some p)) (head : r.head p m = .ok x m₁)
    (sound : m₁.graph.Sound) (signature : m₁.signature.Sound) (hc : m₁.graph.content? u = some c)
    (fits : c.Fits m₁.signature) (hk : c.links[k]? = some p) (apart : x ≠ u)
    (hd : m₁.graph.content? x = some d) (bound : d.tag ≠ .free) (ends : d.tag ≠ .forward) :
    ∃ g', m₁.graph.Sets u (c.setLink k x) g' ∧ g'.content? x = some d ∧
      headArg r u k m = settle u k x (m₁.setGraph g') :=
  headArg_linked reads head sound hc (fits.linked signature (List.getElem?_eq_some_iff.mp hk).1) hk apart hd
    bound ends

/-- An argument that a reducer drives to a constructor is a value. -/
theorem headArg_data (reads : m.successor u k = .ok (some p)) (head : r.head p m = .ok x m₁)
    (sound : m₁.graph.Sound) (hc : m₁.graph.content? u = some c) (linked : c.Linked m₁.signature)
    (hk : c.links[k]? = some p) (apart : x ≠ u) (hd : m₁.graph.content? x = some d) {index : Nat}
    (tag : d.tag = .constructor index) :
    ∃ g', m₁.graph.Sets u (c.setLink k x) g' ∧
      headArg r u k m = .ok (.value x) (m₁.setGraph g') := by
  obtain ⟨g', sets, there, settles⟩ := headArg_linked reads head sound hc linked hk apart hd
    (by rw [tag]; nofun) (by rw [tag]; nofun)
  refine ⟨g', sets, settles.trans ?_⟩
  have read : (m₁.setGraph g').tag x = .ok (.constructor index) :=
    (TermGraph.tag_content there).trans (congrArg Except.ok tag)
  exact bind_ok (look_ok (r := fun m => m.tag x) read)

theorem headArg_value (reads : m.successor u k = .ok (some p)) (head : r.head p m = .ok x m₁)
    (sound : m₁.graph.Sound) (signature : m₁.signature.Sound) (hc : m₁.graph.content? u = some c)
    (fits : c.Fits m₁.signature) (hk : c.links[k]? = some p) (apart : x ≠ u)
    (hd : m₁.graph.content? x = some d) {index : Nat} (tag : d.tag = .constructor index) :
    ∃ g', m₁.graph.Sets u (c.setLink k x) g' ∧
      headArg r u k m = .ok (.value x) (m₁.setGraph g') :=
  headArg_data reads head sound hc (fits.linked signature (List.getElem?_eq_some_iff.mp hk).1) hk apart hd tag

/-- An argument that a reducer drives to a failure takes the node over. -/
theorem headArg_failure (reads : m.successor u k = .ok (some p)) (head : r.head p m = .ok x m₁)
    (sound : m₁.graph.Sound) (signature : m₁.signature.Sound) (hc : m₁.graph.content? u = some c)
    (fits : c.Fits m₁.signature) (hk : c.links[k]? = some p) (apart : x ≠ u)
    (hd : m₁.graph.content? x = some d) (tag : d.tag = .failure) :
    ∃ g', m₁.graph.Sets u .blank g' ∧ headArg r u k m = .ok .taken (m₁.setGraph g') := by
  obtain ⟨g', sets, there, settles⟩ := headArg_settles reads head sound signature hc fits hk apart hd
    (by rw [tag]; nofun) (by rw [tag]; nofun)
  obtain ⟨g'', failed, sets'⟩ :=
    rewriteFail_sets (m := m₁.setGraph g') sets.sound (Graph.content_lt sets.same)
  refine ⟨g'', sets.again sets', settles.trans ?_⟩
  have read : (m₁.setGraph g').tag x = .ok .failure :=
    (TermGraph.tag_content there).trans (congrArg Except.ok tag)
  exact (bind_ok (look_ok (r := fun m => m.tag x) read)).trans (bind_ok failed)

/-! ## Calls of the prelude -/

end Reduction

namespace Content

/-- A call with two arguments. -/
def binary (symbol : SymbolId) (aux : Nat) (a b : NodeId) : Content :=
  ⟨.operation, symbol, aux, .links [a, b]⟩

/-- What a constructor of the prelude without arguments holds. -/
def constant (index : Nat) (symbol : SymbolId) : Content := ⟨.constructor index, symbol, 0, .links []⟩

/-- What a unification is rewritten to in the end. -/
def verdict (b : Bool) : Content := if b then constant 0 Prelude.standard.success else blank

theorem binary_not_data {symbol aux a b : Nat} : (binary symbol aux a b).tag = .operation := rfl

end Content

/-- A function of the prelude with two arguments. -/
structure Prelude.Binary (id : SymbolId) (head : HeadStep) : Prop where
  le : 10 ≤ id
  lt : id < Signature.preludeEnd
  listed : ∃ name, Signature.standard.symbol? id = some (.function name 2 head)
  reads : head.reads? = some 2

theorem Prelude.unify_binary : Binary standard.unify .unify :=
  ⟨by decide, by decide, ⟨"=:=", rfl⟩, rfl⟩

theorem Prelude.conjunction_binary : Binary standard.conjunction .conjunction :=
  ⟨by decide, by decide, ⟨"&", rfl⟩, rfl⟩

theorem Prelude.equals_binary : Binary standard.equals .equals :=
  ⟨by decide, by decide, ⟨"==", rfl⟩, rfl⟩

theorem Prelude.guard_binary : Binary standard.guard .guard :=
  ⟨by decide, by decide, ⟨"&>", rfl⟩, rfl⟩

namespace Prelude.Binary

variable {id : SymbolId} {head : HeadStep} {σ : Signature}

theorem found (h : Binary id head) (hσ : σ.Sound) :
    ∃ sym, σ.symbol? id = some sym ∧ sym.IsCall ∧ sym.kind = .function ∧ sym.head = head ∧
      sym.arity = 2 := by
  obtain ⟨name, listed⟩ := h.listed
  exact ⟨_, (hσ.prelude id h.lt).trans listed, ⟨rfl, rfl, 2, h.reads, Nat.le_refl 2⟩, rfl, rfl, rfl⟩

theorem tagFor (h : Binary id head) (hσ : σ.Sound) : σ.tagFor id = .ok .operation := by
  obtain ⟨sym, found, call, -⟩ := h.found hσ
  exact Signature.Symbol.IsCall.tagFor found call

theorem fits (h : Binary id head) (hσ : σ.Sound) (aux : Nat) (a b : NodeId) :
    (Content.binary id aux a b).Fits σ := by
  obtain ⟨sym, found, call, -, -, arity⟩ := h.found hσ
  exact .call id sym aux [a, b] h.le found call arity.symm

theorem successor {t : TermGraph} {u a b : NodeId} {aux : Nat} (h : Binary id head)
    (hσ : t.signature.Sound) (hc : t.graph.content? u = some (.binary id aux a b)) :
    t.successor u 0 = .ok (some a) ∧ t.successor u 1 = .ok (some b) := by
  obtain ⟨sym, found, -, -, -, arity⟩ := h.found hσ
  exact ⟨TermGraph.successor_content hc found arity.symm rfl,
    TermGraph.successor_content hc found arity.symm rfl⟩

theorem successorSkip {t : TermGraph} {u a b x y : NodeId} {aux : Nat} (h : Binary id head)
    (hσ : t.signature.Sound) (hc : t.graph.content? u = some (.binary id aux a b))
    (hx : t.skip a = .ok x) (hy : t.skip b = .ok y) :
    t.successorSkip u 0 = .ok x ∧ t.successorSkip u 1 = .ok y := by
  obtain ⟨left, right⟩ := h.successor hσ hc
  simp only [TermGraph.successorSkip, left, right, bind, Except.bind, Link.target]
  exact ⟨hx, hy⟩

end Prelude.Binary

theorem Signature.Sound.constant {σ : Signature} (hσ : σ.Sound) {id : SymbolId} {index : Nat}
    (lt : id < preludeEnd) (listed : standard.tagFor id = .ok (.constructor index)) :
    σ.tagFor id = .ok (.constructor index) := by
  have same := hσ.prelude id lt
  rw [← listed]
  simp only [tagFor, symbol, same]

namespace Reduction

open Eff Machine

variable {m₀ m m₁ : Machine} {ρ : Rank} {i j u p x y a b : NodeId} {c d : Content} {sym : Symbol}
  {s t : Ground} {F k : Nat} {r : Reducer}

theorem succeed_sets (h : m.graph.Sound) (hσ : m.signature.Sound) (lt : u < m.graph.capacity) :
    ∃ g', succeed u m = .ok () (m.setGraph g') ∧ m.graph.Sets u (.verdict true) g' := by
  have tag : m.signature.tagFor Prelude.standard.success = .ok (.constructor 0) :=
    hσ.constant (by decide) rfl
  exact rewriteTo_sets [] h lt tag (Nat.zero_le 2)

theorem verdict_sets (h : m.graph.Sound) (hσ : m.signature.Sound) (lt : u < m.graph.capacity)
    (b : Bool) : ∃ g', (if b = true then succeed u else rewriteFail u) m = .ok () (m.setGraph g') ∧
      m.graph.Sets u (.verdict b) g' := by
  cases b with
  | true => exact succeed_sets h hσ lt
  | false => exact rewriteFail_sets h lt

/-! ## Unifying head normal forms -/

/-- A constructor is no partial application. -/
theorem plain_of_constructor (hσ : m.signature.Sound) (hc : m.graph.content? x = some c)
    (fits : c.Fits m.signature) {index : Nat} (tag : c.tag = .constructor index) :
    ∃ sym, m.symbol x = .ok sym ∧ sym.kind ≠ .partialApplication := by
  obtain ⟨sym, found, tagged, -⟩ := fits.symbol hσ
  refine ⟨sym, TermGraph.symbol_content hc found, fun kind => ?_⟩
  rw [tag] at tagged
  simp only [Signature.tagFor, Signature.symbol_of_some found, kind, bind, Except.bind] at tagged
  cases tagged

theorem unifyHeads_apart (hc : m.graph.content? x = some c) (hd : m.graph.content? y = some d)
    (symbol : c.symbol ≠ d.symbol) : unifyHeads u x y m = rewriteFail u m := by
  obtain ⟨slots, node, -⟩ := TermGraph.node_content (t := m.toTermGraph) hc
  obtain ⟨slots', node', -⟩ := TermGraph.node_content (t := m.toTermGraph) hd
  refine (bind_ok (look_ok node)).trans ((bind_ok (look_ok node')).trans ?_)
  rw [if_pos symbol]

/-- Two literals of one kind are unified by their values. -/
theorem unifyHeads_literals {index symbol aux aux' : Nat} {v w : Literal} (hσ : m.signature.Sound)
    (hc : m.graph.content? x = some ⟨.constructor index, symbol, aux, .literal v⟩)
    (hd : m.graph.content? y = some ⟨.constructor index, symbol, aux', .literal w⟩)
    (fits : Content.Fits m.signature ⟨.constructor index, symbol, aux, .literal v⟩) :
    unifyHeads u x y m = (if v.same w = true then succeed u else rewriteFail u) m := by
  obtain ⟨slots, node, cargo⟩ := TermGraph.node_content (t := m.toTermGraph) hc
  obtain ⟨slots', node', cargo'⟩ := TermGraph.node_content (t := m.toTermGraph) hd
  obtain ⟨sym, read, plain⟩ := plain_of_constructor hσ hc fits rfl
  obtain rfl := slots_of_literal cargo
  obtain rfl := slots_of_literal cargo'
  refine (bind_ok (look_ok node)).trans ((bind_ok (look_ok node')).trans ?_)
  rw [if_neg fun other => other rfl]
  refine (bind_ok (look_ok read)).trans ?_
  rw [if_neg plain]
  rfl

/-- Two constructors of one kind are unified argument by argument. -/
theorem unifyHeads_data {index symbol aux aux' : Nat} {ls ls' : List NodeId}
    (hσ : m.signature.Sound)
    (hc : m.graph.content? x = some ⟨.constructor index, symbol, aux, .links ls⟩)
    (hd : m.graph.content? y = some ⟨.constructor index, symbol, aux', .links ls'⟩)
    (fits : Content.Fits m.signature ⟨.constructor index, symbol, aux, .links ls⟩)
    (length : ls.length = ls'.length) :
    unifyHeads u x y m = (if ls = [] then succeed u
      else unifySuccessors u ((ls.zip ls').map fun p => (some p.1, some p.2))) m := by
  obtain ⟨slots, node, cargo⟩ := TermGraph.node_content (t := m.toTermGraph) hc
  obtain ⟨slots', node', -⟩ := TermGraph.node_content (t := m.toTermGraph) hd
  obtain ⟨sym, read, plain⟩ := plain_of_constructor hσ hc fits rfl
  obtain ⟨sym', found, -, arity⟩ := fits.symbol hσ
  have xs : m.successors x = .ok (ls.map some) := TermGraph.successors_content hc found arity
  have ys : m.successors y = .ok (ls'.map some) :=
    TermGraph.successors_content hd found (length.symm.trans arity)
  have linked : slots.literal? = none := TermGraph.literal_cargo cargo
  refine (bind_ok (look_ok node)).trans ((bind_ok (look_ok node')).trans ?_)
  rw [if_neg fun other => other rfl]
  refine (bind_ok (look_ok read)).trans ?_
  rw [if_neg plain]
  simp only [linked]
  refine (bind_ok (look_ok xs)).trans ((bind_ok (look_ok ys)).trans ?_)
  have pairs : (ls.map some).zip (ls'.map some) =
      (ls.zip ls').map fun p => (some p.1, some p.2) := List.zip_map ..
  rw [pairs, List.isEmpty_map, List.length_map, List.length_map, if_pos length.le]
  cases ls with
  | nil => rfl
  | cons => rfl

/-! ## Conjunctions of unifications -/

/-- Unifications of these pairs, joined by conjunctions nested to the right, in these nodes. -/
inductive Joined (g : Graph) : List (NodeId × NodeId) → List NodeId → NodeId → Prop where
  | last {a b u : NodeId} (hu : g.content? u = some (.binary Prelude.standard.unify 0 a b)) :
    Joined g [(a, b)] [u] u
  | cons {a b u j below : NodeId} {pairs : List (NodeId × NodeId)} {used : List NodeId}
    (hu : g.content? u = some (.binary Prelude.standard.unify 0 a b))
    (hj : g.content? j = some (.binary Prelude.standard.conjunction 0 u below))
    (rest : Joined g pairs used below) (new : u ∉ used) (new' : j ∉ used) (apart : j ≠ u) :
    Joined g ((a, b) :: pairs) (u :: j :: used) j

theorem Joined.congr {g g' : Graph} {pairs : List (NodeId × NodeId)} {used : List NodeId}
    (h : Joined g pairs used j) (same : ∀ i ∈ used, g'.content? i = g.content? i) :
    Joined g' pairs used j := by
  induction h with
  | last hu => exact .last ((same _ List.mem_cons_self).trans hu)
  | cons hu hj _ new new' apart ih =>
    refine .cons ((same _ List.mem_cons_self).trans hu)
      ((same _ (List.mem_cons_of_mem _ List.mem_cons_self)).trans hj) (ih fun i hi => ?_) new new' apart
    exact same i (List.mem_cons_of_mem _ (List.mem_cons_of_mem _ hi))

theorem Joined.mem {g : Graph} {pairs : List (NodeId × NodeId)} {used : List NodeId}
    (h : Joined g pairs used j) : j ∈ used := by
  cases h with
  | last => exact List.mem_cons_self
  | cons => exact List.mem_cons_of_mem _ List.mem_cons_self

/-- The nodes hold unifications of the pairs. -/
abbrev Unify (g : Graph) (ns : List NodeId) (pairs : List (NodeId × NodeId)) : Prop :=
  List.Forall₂ (fun i p => g.content? i = some (.binary Prelude.standard.unify 0 p.1 p.2)) ns pairs

theorem unifyPairs_returns : ∀ (ns : List NodeId) (pairs : List (NodeId × NodeId)) (m : Machine),
    ns.length = pairs.length → ns.Nodup → (∀ i ∈ ns, i < m.graph.capacity ∧ i ∉ m.graph.free) →
    m.graph.Sound → m.signature.Sound → m.Unbounded →
    (unifyPairs ns (pairs.map fun p => (some p.1, some p.2))).Returns m fun _ m' =>
      m.Uses (· ∈ ns) 0 m' ∧ Unify m'.graph ns pairs := by
  intro ns
  induction ns with
  | nil =>
    intro pairs m length _ _ sound _ going
    obtain rfl := List.length_eq_zero_iff.mp length.symm
    exact ⟨(), m, rfl, .refl sound going, .nil⟩
  | cons i ns ih =>
    intro pairs m length nodup room sound hσ going
    cases pairs with
    | nil => cases length
    | cons p pairs =>
      obtain ⟨fresh, nodup⟩ := List.nodup_cons.mp nodup
      obtain ⟨lt, unfree⟩ := room i List.mem_cons_self
      obtain ⟨g', run, sets⟩ := rewriteTo_sets [p.1, p.2] sound lt
        (Prelude.unify_binary.tagFor hσ) (Nat.le_refl 2)
      have first : m.Uses (· ∈ i :: ns) 0 (m.setGraph g') :=
        uses_of_sets going List.mem_cons_self sets nofun
      have room' : ∀ j ∈ ns, j < g'.capacity ∧ j ∉ g'.free := fun j hj => by
        rw [sets.capacity, sets.free]
        exact room j (List.mem_cons_of_mem _ hj)
      obtain ⟨_, m', rest, uses, built⟩ := ih pairs (m.setGraph g') (Nat.succ.inj length) nodup room'
        sets.sound hσ first.unbounded
      refine ⟨(), m', (bind_ok run).trans rest,
        first.trans uses fun j hj => .inl (List.mem_cons_of_mem _ hj), .cons ?_ built⟩
      exact (uses.touches.others i fresh (first.touches.unfree i unfree)).trans sets.same

theorem conjoin_returns : ∀ (ns : List NodeId) (pairs : List (NodeId × NodeId)) (cs : List NodeId)
    (m : Machine), Unify m.graph ns pairs → ns.length = cs.length + 1 → (ns ++ cs).Nodup →
    (∀ i ∈ ns ++ cs, i < m.graph.capacity ∧ i ∉ m.graph.free) → m.graph.Sound →
    m.signature.Sound → m.Unbounded → (conjoin ns cs).Returns m fun top m' =>
      m.Uses (· ∈ cs) 0 m' ∧ ∃ used, Joined m'.graph pairs used top ∧ ∀ i ∈ used, i ∈ ns ++ cs := by
  intro ns
  induction ns with
  | nil => exact fun _ _ _ _ length => absurd length (Nat.succ_ne_zero _).symm
  | cons u ns ih =>
    intro pairs cs m built length nodup room sound hσ going
    cases built with
    | @cons _ p _ pairs hu built =>
    cases ns with
    | nil =>
      cases built
      cases cs with
      | cons => cases length
      | nil => exact ⟨u, m, rfl, .refl sound going, [u], .last hu, fun i hi => by simpa using hi⟩
    | cons u' ns =>
      cases cs with
      | nil => cases length
      | cons j cs =>
        obtain ⟨unlike, nodup⟩ := List.nodup_cons.mp nodup
        obtain ⟨unlike', nodup⟩ := List.nodup_middle.mp nodup |> List.nodup_cons.mp
        have mem : ∀ {i}, i ∈ u' :: ns ++ cs → i ∈ u' :: ns ++ j :: cs := fun hi =>
          (List.mem_append.mp hi).elim (List.mem_append_left _)
            fun hi => List.mem_append_right _ (List.mem_cons_of_mem _ hi)
        have inside : j ∈ u' :: ns ++ j :: cs := List.mem_append_right _ List.mem_cons_self
        have apart : j ≠ u := fun same => unlike (same ▸ inside)
        obtain ⟨top, m₁, run, uses, used, joined, within⟩ := ih pairs cs m built
          (Nat.succ.inj length) nodup (fun i hi => room i (List.mem_cons_of_mem _ (mem hi))) sound hσ
          going
        obtain ⟨lt, -⟩ := room j (List.mem_cons_of_mem _ inside)
        obtain ⟨-, unfree⟩ := room u List.mem_cons_self
        have hσ₁ : m₁.signature.Sound := uses.touches.signature.symm ▸ hσ
        obtain ⟨g', written, sets⟩ := rewriteTo_sets [u, top] uses.touches.sound
          (uses.touches.capacity.symm ▸ lt) (Prelude.conjunction_binary.tagFor hσ₁) (Nat.le_refl 2)
        have here : m.Uses (· ∈ j :: cs) 0 m₁ :=
          uses.mono (fun i hi => .inl (List.mem_cons_of_mem _ hi)) (Nat.le_refl 0)
        have there : m₁.Uses (· ∈ j :: cs) 0 (m₁.setGraph g') :=
          uses_of_sets uses.unbounded List.mem_cons_self sets nofun
        have outside : u ∉ cs := fun hu => unlike (mem (List.mem_append_right _ hu))
        refine ⟨j, _, (bind_ok run).trans (bind_ok written), here.trans there fun i hi => .inl hi,
          u :: j :: used, .cons ?_ sets.same ?_ ?_ ?_ apart, ?_⟩
        · calc g'.content? u = m₁.graph.content? u := sets.others u apart.symm
            _ = m.graph.content? u := uses.touches.others u outside unfree
            _ = _ := hu
        · exact joined.congr fun i hi => sets.others i fun same => unlike' (same ▸ within i hi)
        · exact fun hi => unlike (mem (within u hi))
        · exact fun hi => unlike' (within j hi)
        · intro i hi
          rcases List.mem_cons.mp hi with rfl | hi
          · exact List.mem_cons_self
          · rcases List.mem_cons.mp hi with rfl | hi
            · exact List.mem_cons_of_mem _ inside
            · exact List.mem_cons_of_mem _ (mem (within i hi))

theorem rewriteForward_sets (h : m.graph.Sound) (lt : u < m.graph.capacity) (j : NodeId) :
    ∃ g', rewriteForward u (some j) m = .ok () (m.setGraph g') ∧
      m.graph.Sets u ⟨.forward, Builtin.forward, 0, .links [j]⟩ g' :=
  (rewriteForward_writes h lt j).sets (faults_put u _)

/-- The node becomes an indirection to a conjunction of unifications, all of it in fresh nodes. -/
theorem unifySuccessors_returns {pairs : List (NodeId × NodeId)} (some_ : pairs ≠ [])
    (sound : m.graph.Sound) (hσ : m.signature.Sound) (going : m.Unbounded)
    (lt : u < m.graph.capacity) (unfree : u ∉ m.graph.free)
    (room : 2 * pairs.length ≤ m.graph.free.length) :
    (unifySuccessors u (pairs.map fun p => (some p.1, some p.2))).Returns m fun _ m' =>
      m.Uses (Only u) (2 * pairs.length) m' ∧ ∃ used top, Joined m'.graph pairs used top ∧
        m'.graph.content? u = some ⟨.forward, Builtin.forward, 0, .links [top]⟩ ∧
        ∀ i ∈ used, i ∈ m.graph.free ∧ i ∉ m'.graph.free := by
  have positive : 0 < pairs.length := List.length_pos_iff.mpr some_
  have enough : m.graph.hasFree (2 * pairs.length - 1) = true := by
    unfold Graph.hasFree
    rw [List.length_take, Nat.min_eq_left (by omega), beq_self_eq_true]
  have served := ((allocate_requests (2 * pairs.length - 1)).rooted [some u]).served m enough
  have taken := Graph.afterTake_taken (n := 2 * pairs.length - 1) sound
  generalize hm : m.setGraph (m.graph.afterTake (2 * pairs.length - 1)) = m₁ at served
  generalize hfresh : m.graph.free.take (2 * pairs.length - 1) = fresh at served taken
  have size : fresh.length = 2 * pairs.length - 1 := by
    rw [← hfresh, List.length_take, Nat.min_eq_left (by omega)]
  have allocated : m.Uses (Only u) (2 * pairs.length - 1) m₁ := by
    rw [← size, ← hm]
    exact uses_of_taken going taken
  have free : ∀ i ∈ fresh, i ∈ m.graph.free := fun i hi => taken.split ▸ List.mem_append_left _ hi
  have hσ₁ : m₁.signature.Sound := allocated.touches.signature.symm ▸ hσ
  have room : ∀ i ∈ fresh, i < m₁.graph.capacity ∧ i ∉ m₁.graph.free := by
    intro i hi
    refine ⟨allocated.touches.capacity.symm ▸ sound.free_lt i (free i hi), fun hf => ?_⟩
    rw [← hm] at hf
    have nodup := sound.free_nodup
    rw [taken.split] at nodup
    exact (List.nodup_append.mp nodup).2.2 i hi i hf rfl
  have parts : fresh.take pairs.length ++ fresh.drop pairs.length = fresh := List.take_append_drop _ _
  have inTake : ∀ {i}, i ∈ fresh.take pairs.length → i ∈ fresh := List.mem_of_mem_take
  have inDrop : ∀ {i}, i ∈ fresh.drop pairs.length → i ∈ fresh := List.mem_of_mem_drop
  have width : (fresh.take pairs.length).length = pairs.length := by
    rw [List.length_take, size, Nat.min_eq_left (by omega)]
  obtain ⟨_, m₂, paired, uses₂, built⟩ := unifyPairs_returns (fresh.take pairs.length) pairs m₁ width
    (taken.nodup.sublist (List.take_sublist _ _)) (fun i hi => room i (inTake hi))
    allocated.touches.sound hσ₁ allocated.unbounded
  have hσ₂ : m₂.signature.Sound := uses₂.touches.signature.symm ▸ hσ₁
  obtain ⟨top, m₃, joins, uses₃, used, joined, within⟩ := conjoin_returns (fresh.take pairs.length)
    pairs (fresh.drop pairs.length) m₂ built
    (by rw [width, List.length_drop, size]; omega) (parts.symm ▸ taken.nodup)
    (fun i hi => by
      obtain ⟨lt, unfree⟩ := room i (parts ▸ hi)
      exact ⟨uses₂.touches.capacity.symm ▸ lt, uses₂.touches.unfree i unfree⟩)
    uses₂.touches.sound hσ₂ uses₂.unbounded
  have capacity : m₃.graph.capacity = m.graph.capacity :=
    uses₃.touches.capacity.trans (uses₂.touches.capacity.trans allocated.touches.capacity)
  obtain ⟨g', forwarded, sets⟩ :=
    rewriteForward_sets uses₃.touches.sound (capacity.symm ▸ lt) top
  have fresh_ne : ∀ i ∈ fresh, i ≠ u := fun i hi same => unfree (same ▸ free i hi)
  have used₁ := allocated.trans uses₂ fun i hi => .inr (free i (inTake hi))
  have used₂ := used₁.trans uses₃ fun i hi => .inr (free i (inDrop hi))
  have used₃ := used₂.trans (uses_of_sets (S := Only u) uses₃.unbounded (only_self u) sets nofun)
    fun i hi => .inl hi
  refine ⟨(), m₃.setGraph g', ?_, used₃.mono (fun i hi => .inl hi) (by omega), used, top,
    joined.congr fun i hi => sets.others i (fresh_ne i (parts ▸ within i hi)), sets.same,
    fun i hi => ⟨free i (parts ▸ within i hi), ?_⟩⟩
  · have run : unifySuccessors u (pairs.map fun p => (some p.1, some p.2)) m = _ := bind_ok
      (show allocateBeside u (2 * (pairs.map fun p => (some p.1, some p.2)).length - 1) m =
        .ok fresh m₁ by rw [List.length_map]; exact served)
    rw [run, List.length_map]
    exact (bind_ok paired).trans ((bind_ok joins).trans forwarded)
  · obtain ⟨-, unfree⟩ := room i (parts ▸ within i hi)
    have later := uses₃.touches.unfree i (uses₂.touches.unfree i unfree)
    exact sets.free.symm ▸ later

/-! ## Deciding unifications -/

/-- What a reduction of `u` to a verdict has done. -/
structure Decided (m : Machine) (S : NodeId → Prop) (n : Nat) (u : NodeId) (b : Bool) (e : NodeId)
    (m' : Machine) : Prop where
  uses : m.Uses S n m'
  new : S e ∨ e ∈ m.graph.free
  unfree : e ∉ m'.graph.free
  leads : m'.graph.Leads u e
  content : m'.graph.content? e = some (.verdict b)

/-- An argument that is a failure in the end takes the node over; otherwise it takes its place. -/
theorem withHead_decided (body : NodeId → Eff Unit) {b : Bool}
    (reads : m.successor u k = .ok (some p)) (head : r.head p m = .ok x m₁)
    (sound : m₁.graph.Sound) (signature : m₁.signature.Sound) (hc : m₁.graph.content? u = some c)
    (fits : c.Fits m₁.signature) (hk : c.links[k]? = some p) (apart : x ≠ u)
    (hd : m₁.graph.content? x = some (.verdict b)) :
    ∃ g', m₁.graph.Sets u (if b then c.setLink k x else .blank) g' ∧
      withHead r u k body m = (if b = true then body x else pure ()) (m₁.setGraph g') := by
  cases b with
  | true =>
    obtain ⟨g', sets, run⟩ := headArg_value reads head sound signature hc fits hk apart hd rfl
    exact ⟨g', sets, bind_ok run⟩
  | false =>
    obtain ⟨g', sets, run⟩ := headArg_failure reads head sound signature hc fits hk apart hd rfl
    exact ⟨g', sets, bind_ok run⟩

/-- Unifications of nodes that unfold to these terms are decided. -/
def Decides (m₀ : Machine) (s t : Ground) (bound : Nat) : Prop :=
  ∀ fuel ≥ bound, ∀ (m : Machine) (u aux a b : Nat), m₀.Retains m → m.Unbounded →
    u ∉ m.graph.free → m₀.Spare u →
    m.graph.content? u = some (.binary Prelude.standard.unify aux a b) →
    (m₀.Live [] a ∧ m₀.toTermGraph.Unfolds s a) → (m₀.Live [] b ∧ m₀.toTermGraph.Unfolds t b) →
    2 * s.edges ≤ m.graph.free.length →
    (headNormalize fuel u).Returns m (Decided m (Only u) (2 * s.edges) u (s.same t))

/-- The pairs of nodes unfold to the pairs of terms. -/
def Unfold (m₀ : Machine) (xs ys : List Ground) (pairs : List (NodeId × NodeId)) : Prop :=
  xs.length = pairs.length ∧ ∀ (k : Nat) (x y : Ground) (p : NodeId × NodeId), xs[k]? = some x →
    ys[k]? = some y → pairs[k]? = some p →
      (m₀.Live [] p.1 ∧ m₀.toTermGraph.Unfolds x p.1) ∧ m₀.Live [] p.2 ∧ m₀.toTermGraph.Unfolds y p.2

/-- A node that has been rewritten to a verdict is driven no further. -/
theorem headNormalize_verdict {b : Bool} (hc : m.graph.content? u = some (.verdict b)) :
    headNormalize (F + 1) u m = .ok u m := by
  cases b with
  | true => exact headNormalize_idle (TermGraph.skip_self hc nofun) hc nofun
  | false => exact headNormalize_idle (TermGraph.skip_self hc nofun) hc nofun

theorem Decided.mono {S S' : NodeId → Prop} {n n' : Nat} {b : Bool} {e : NodeId}
    (h : Decided m S n u b e m₁) (sub : ∀ i, S i → S' i) (le : n ≤ n') :
    Decided m S' n' u b e m₁ :=
  ⟨h.uses.mono (fun i hi => .inl (sub i hi)) le, h.new.imp_left (sub e), h.unfree, h.leads, h.content⟩

/-- A node that was rewritten to a verdict. -/
theorem decided_of_sets {S : NodeId → Prop} {n : Nat} {b : Bool} {g' : Graph} (uses : m.Uses S n m₁)
    (hs : S u) (unfree : u ∉ m.graph.free) (sets : m₁.graph.Sets u (.verdict b) g') :
    Decided m S n u b u (m₁.setGraph g') where
  uses := by
    have plain : ∀ type, (Content.verdict b).cargo ≠ .literal (.type type) := by cases b <;> nofun
    exact uses.trans (uses_of_sets (S := S) uses.unbounded hs sets plain) fun i hi => .inl hi
  new := .inl hs
  unfree := sets.free.symm ▸ uses.touches.unfree u unfree
  leads := .refl u
  content := sets.same

/-- A conjunction is decided by its first argument, if that fails, and else by its second one. -/
theorem conjunction_decided {S : NodeId → Prop} {n n' : Nat} {v w : Bool} (hσ : m.signature.Sound)
    (going : m.Unbounded)
    (hc : m.graph.content? j = some (.binary Prelude.standard.conjunction 0 a b))
    (unfree : j ∉ m.graph.free) (apart : j ≠ a) (outside : ¬ S j)
    (first : (headNormalize (F + 1) a).Returns { m with slice := m.slice.spend }
      (Decided { m with slice := m.slice.spend } (Only a) n a v))
    (second : ∀ m', m.Uses (fun i => i = a ∨ i = j) n m' → (headNormalize (F + 1) b).Returns m'
      (Decided m' S n' b w)) :
    (headNormalize (F + 2) j).Returns m
      (Decided m (fun i => i = a ∨ i = j ∨ S i) (n + n') j (v && w)) := by
  obtain ⟨sym, found, -, kind, head, -⟩ := Prelude.conjunction_binary.found hσ
  have start : headNormalize (F + 2) j m = _ :=
    headNormalize_call going.goes (TermGraph.skip_self hc nofun) hc rfl found kind
  rw [head] at start
  obtain ⟨x, m₁, ran, left⟩ := first
  have hσ₁ : m₁.signature.Sound := left.uses.touches.signature.symm ▸ hσ
  have here : m₁.graph.content? j = some (.binary Prelude.standard.conjunction 0 a b) :=
    (left.uses.touches.others j apart unfree).trans hc
  have differ : x ≠ j := by
    rintro rfl
    rcases left.new with same | free
    · exact apart same
    · exact unfree free
  obtain ⟨g₁, sets₁, taken₁⟩ := withHead_decided (r := reducer (F + 1))
    (m := { m with slice := m.slice.spend }) (fun _ => withHead (reducer (F + 1)) j 1 fun _ => succeed j)
    (Prelude.conjunction_binary.successor hσ hc).1 ran left.uses.touches.sound hσ₁ here
    (Prelude.conjunction_binary.fits hσ₁ 0 a b) (k := 0) rfl differ left.content
  have uses₁ : m.Uses (fun i => i = a ∨ i = j) n m₁ :=
    left.uses.paid.mono (fun i hi => .inl (.inl hi)) (Nat.le_refl n)
  cases v with
  | false =>
    have stopped : runHead (reducer (F + 1)) j .conjunction { m with slice := m.slice.spend } =
      .ok () (m₁.setGraph g₁) := taken₁
    refine ⟨j, m₁.setGraph g₁, start.trans ((bind_ok stopped).trans ?_), ?_⟩
    · exact headNormalize_verdict (b := false) sets₁.same
    · exact (decided_of_sets (b := false) uses₁ (.inr rfl) unfree sets₁).mono
        (fun i hi => hi.imp_right .inl) (Nat.le_add_right n n')
  | true =>
    have relinked : m₁.Uses (fun i => i = a ∨ i = j) 0 (m₁.setGraph g₁) :=
      uses_of_sets left.uses.unbounded (.inr rfl) sets₁ nofun
    have uses₂ := uses₁.trans relinked fun i hi => .inl hi
    have there : (m₁.setGraph g₁).graph.content? j =
      some (.binary Prelude.standard.conjunction 0 x b) := sets₁.same
    obtain ⟨y, m₂, ran', right⟩ := second _ uses₂
    have hσ₂ : m₂.signature.Sound := right.uses.touches.signature.symm ▸ hσ₁
    have unfree₁ : j ∉ g₁.free := uses₂.touches.unfree j unfree
    have here' : m₂.graph.content? j = some (.binary Prelude.standard.conjunction 0 x b) :=
      (right.uses.touches.others j outside unfree₁).trans sets₁.same
    have differ' : y ≠ j := by
      rintro rfl
      rcases right.new with same | free
      · exact outside same
      · exact unfree₁ free
    obtain ⟨g₂, sets₂, taken₂⟩ := withHead_decided (r := reducer (F + 1)) (m := m₁.setGraph g₁)
      (fun _ => succeed j)
      (Prelude.conjunction_binary.successor (t := (m₁.setGraph g₁).toTermGraph) hσ₁ there).2 ran'
      right.uses.touches.sound hσ₂ here' (Prelude.conjunction_binary.fits hσ₂ 0 x b) (k := 1) rfl
      differ' right.content
    have uses₃ : m.Uses (fun i => i = a ∨ i = j ∨ S i) (n + n') m₂ :=
      (uses₂.mono (fun i hi => .inl (hi.imp_right .inl)) (Nat.le_refl n)).trans right.uses
        fun i hi => .inl (.inr (.inr hi))
    have step : runHead (reducer (F + 1)) j .conjunction { m with slice := m.slice.spend } =
      (if w = true then succeed j else pure ()) (m₂.setGraph g₂) := taken₁.trans taken₂
    cases w with
    | false =>
      have stopped : runHead (reducer (F + 1)) j .conjunction { m with slice := m.slice.spend } =
        .ok () (m₂.setGraph g₂) := step
      refine ⟨j, m₂.setGraph g₂, start.trans ((bind_ok stopped).trans ?_), ?_⟩
      · exact headNormalize_verdict (b := false) sets₂.same
      · exact decided_of_sets (b := false) uses₃ (.inr (.inl rfl)) unfree sets₂
    | true =>
      obtain ⟨g₃, succeeded, sets₃⟩ := succeed_sets (m := m₂.setGraph g₂) sets₂.sound hσ₂
        (Graph.content_lt sets₂.same)
      refine ⟨j, (m₂.setGraph g₂).setGraph g₃,
        start.trans ((bind_ok (step.trans succeeded)).trans ?_), ?_⟩
      · exact headNormalize_verdict (b := true) sets₃.same
      · show Decided m _ _ j true j (m₂.setGraph g₃)
        exact decided_of_sets uses₃ (.inr (.inl rfl)) unfree (sets₂.again sets₃)

/-- Conjunctions of unifications of nodes that unfold to these terms, in order, are decided. -/
def DecidesAll (m₀ : Machine) (xs ys : List Ground) (bound : Nat) : Prop :=
  ∀ fuel ≥ bound, ∀ (m : Machine) (pairs : List (NodeId × NodeId)) (used : List NodeId)
    (top : NodeId), m₀.Retains m → m.Unbounded → Joined m.graph pairs used top →
    (∀ i ∈ used, i ∉ m.graph.free ∧ m₀.Spare i) → Unfold m₀ xs ys pairs →
    2 * (xs.map Ground.edges).sum ≤ m.graph.free.length →
    (headNormalize fuel top).Returns m
      (Decided m (· ∈ used) (2 * (xs.map Ground.edges).sum) top (Ground.sameAll xs ys))

/-- A conjunction of unifications is decided by the first of them that fails. -/
theorem decidesAll (h₀ : m₀.Inv [] ρ) : ∀ (xs ys : List Ground), xs.length = ys.length →
    (∀ (k : Nat) (x y : Ground), xs[k]? = some x → ys[k]? = some y → ∃ bound, Decides m₀ x y bound) →
    ∃ bound, DecidesAll m₀ xs ys bound := by
  intro xs
  induction xs with
  | nil =>
    refine fun ys _ _ => ⟨0, fun fuel _ m pairs used top _ _ joined _ unfold_ _ => ?_⟩
    obtain rfl := List.length_eq_zero_iff.mp unfold_.1.symm
    cases joined
  | cons x xs ih =>
    intro ys length decides
    cases ys with
    | nil => cases length
    | cons y ys =>
    obtain ⟨bound, first⟩ := decides 0 x y rfl rfl
    obtain ⟨bound', rest⟩ := ih ys (Nat.succ.inj length) fun k => decides (k + 1)
    refine ⟨max bound bound' + 2, fun fuel le m pairs used top retains going joined fresh unfold_ room => ?_⟩
    have total : ((x :: xs).map Ground.edges).sum = x.edges + (xs.map Ground.edges).sum := rfl
    rw [total] at room ⊢
    cases joined with
    | @last a b u hu =>
      obtain rfl : xs = [] := List.length_eq_zero_iff.mp (Nat.succ.inj unfold_.1)
      obtain rfl : ys = [] := List.length_eq_zero_iff.mp (Nat.succ.inj length).symm
      obtain ⟨unfree, spare⟩ := fresh _ List.mem_cons_self
      obtain ⟨left, right⟩ := unfold_.2 0 x y _ rfl rfl rfl
      have decided := first fuel (by omega) m top 0 a b retains going unfree spare hu left right
        (by omega)
      refine decided.mono fun e m' h => ?_
      have same : Ground.sameAll [x] [y] = x.same y := by
        rw [Ground.sameAll, Ground.sameAll, Bool.and_true]
      rw [same]
      exact h.mono (fun i hi => List.mem_singleton.mpr hi) (by omega)
    | @cons a b u j below pairs used hu hj joined new new' apart =>
      obtain ⟨fuel, rfl⟩ : ∃ f, fuel = f + 2 := ⟨fuel - 2, by omega⟩
      obtain ⟨unfree, spare⟩ := fresh u List.mem_cons_self
      obtain ⟨unfree', spare'⟩ := fresh top (List.mem_cons_of_mem _ List.mem_cons_self)
      obtain ⟨left, right⟩ := unfold_.2 0 x y _ rfl rfl rfl
      have hσ : m.signature.Sound := retains.signature.symm ▸ h₀.signature
      have decided := first (fuel + 1) (by omega) { m with slice := m.slice.spend } u 0 a b
        retains.spend going.spend unfree spare hu left right (by show _ ≤ m.graph.free.length; omega)
      have others : ∀ m', m.Uses (fun i => i = u ∨ i = top) (2 * x.edges) m' →
          (headNormalize (fuel + 1) below).Returns m' (Decided m' (· ∈ used)
            (2 * (xs.map Ground.edges).sum) below (Ground.sameAll xs ys)) := by
        intro m' uses
        have later : ∀ i ∈ used, i ∉ m.graph.free ∧ m₀.Spare i := fun i hi =>
          fresh i (List.mem_cons_of_mem _ (List.mem_cons_of_mem _ hi))
        have outside : ∀ i ∈ used, ¬ (i = u ∨ i = top) := by
          rintro i hi (rfl | rfl)
          · exact new hi
          · exact new' hi
        have spares : ∀ i, (i = u ∨ i = top) → m₀.Spare i := by
          rintro i (rfl | rfl)
          · exact spare
          · exact spare'
        refine rest (fuel + 1) (by omega) m' pairs used below (retains.uses uses spares) uses.unbounded
          (joined.congr fun i hi => uses.touches.others i (outside i hi) (later i hi).1)
          (fun i hi => ⟨uses.touches.unfree i (later i hi).1, (later i hi).2⟩)
          ⟨Nat.succ.inj unfold_.1, fun k => unfold_.2 (k + 1)⟩ ?_
        have free := uses.free
        omega
      have joint := conjunction_decided hσ going hj unfree' apart new' decided others
      refine joint.mono fun e m' h => ?_
      rw [Ground.sameAll]
      refine h.mono (fun i hi => ?_) (by omega)
      rcases hi with rfl | rfl | hi
      · exact List.mem_cons_self
      · exact List.mem_cons_of_mem _ List.mem_cons_self
      · exact List.mem_cons_of_mem _ (List.mem_cons_of_mem _ hi)

/-! ## Unifying ground terms -/

/-- A unification of nodes that unfold to ground terms forces both, and unifies their roots. -/
theorem unify_forces (h₀ : m₀.Inv [] ρ) (retains : m₀.Retains m) (going : m.Unbounded)
    (spare : m₀.Spare u) {aux : Nat}
    (hc : m.graph.content? u = some (.binary Prelude.standard.unify aux a b))
    (hs : m₀.Live [] a ∧ m₀.toTermGraph.Unfolds s a)
    (ht : m₀.Live [] b ∧ m₀.toTermGraph.Unfolds t b) :
    ∃ x y c d g', Shows m₀ ρ (m.setGraph g') s a x c ∧ Shows m₀ ρ (m.setGraph g') t b y d ∧
      m.graph.Sets u (.binary Prelude.standard.unify aux x y) g' ∧
      runHead (reducer (F + 1)) u .unify m = unifyHeads u x y (m.setGraph g') := by
  have hσ : m.signature.Sound := retains.signature.symm ▸ h₀.signature
  have apart : ∀ {i}, m₀.Live [] i → (∃ c₀, m₀.graph.content? i = some c₀ ∧
      ∃ index, c₀.tag = .constructor index) → i ≠ u := by
    rintro i live ⟨c₀, hc₀, index, tag⟩ rfl
    have call := spare c₀ live hc₀
    cases tag.symm.trans call.1
  obtain ⟨x, c, sx⟩ := retains.shows h₀ hs.1 hs.2
  obtain ⟨y, d, sy⟩ := retains.shows h₀ ht.1 ht.2
  obtain ⟨index, tag⟩ := sx.depicts.tag
  obtain ⟨index', tag'⟩ := sy.depicts.tag
  obtain ⟨g₁, sets₁, run₁⟩ := headArg_value (r := reducer (F + 1))
    (Prelude.unify_binary.successor hσ hc).1
    (headNormalize_idle sx.skip sx.hc (by rw [tag]; nofun)) retains.sound hσ hc
    (Prelude.unify_binary.fits hσ aux a b) rfl (apart sx.live sx.root) sx.hc tag
  have here : (m.setGraph g₁).graph.content? u =
    some (.binary Prelude.standard.unify aux x b) := sets₁.same
  have retains₁ : m₀.Retains (m.setGraph g₁) :=
    retains.uses (uses_of_sets (S := Only u) going (only_self u) sets₁ nofun)
      fun i hi => hi.symm ▸ spare
  obtain ⟨y', d', sy'⟩ := retains₁.shows h₀ ht.1 ht.2
  obtain rfl := sy.unique sy'
  obtain ⟨index'', tag''⟩ := sy'.depicts.tag
  obtain ⟨g₂, sets₂, run₂⟩ := headArg_value (r := reducer (F + 1)) (m := m.setGraph g₁)
    (Prelude.unify_binary.successor (t := (m.setGraph g₁).toTermGraph) hσ here).2
    (headNormalize_idle sy'.skip sy'.hc (by rw [tag'']; nofun)) sets₁.sound hσ here
    (Prelude.unify_binary.fits hσ aux x b) rfl (apart sy'.live sy'.root) sy'.hc tag''
  have sets := sets₁.again sets₂
  have retains₂ : m₀.Retains (m.setGraph g₂) :=
    retains.uses (uses_of_sets (S := Only u) going (only_self u) sets nofun)
      fun i hi => hi.symm ▸ spare
  obtain ⟨x', e, sx₂⟩ := retains₂.shows h₀ hs.1 hs.2
  obtain rfl := sx.unique sx₂
  obtain ⟨y', e', sy₂⟩ := retains₂.shows h₀ ht.1 ht.2
  obtain rfl := sy.unique sy₂
  obtain ⟨left, right⟩ := Prelude.unify_binary.successorSkip hσ hc sx.skip sy.skip
  have bound : ¬ (c.tag = .free ∧ d.tag = .free) := fun free => by cases tag.symm.trans free.1
  refine ⟨x, y, e, e', g₂, sx₂, sy₂, sets, ?_⟩
  calc runHead (reducer (F + 1)) u .unify m
      = (if c.tag = .free ∧ d.tag = .free then bindHeads u x y
          else force (reducer (F + 1)) u [.head 0, .head 1] (onPair (unifyHeads u))) m :=
        (bind_ok (look_ok left)).trans ((bind_ok (look_ok right)).trans
          ((bind_ok (look_ok (TermGraph.tag_content sx.hc))).trans
            (bind_ok (look_ok (TermGraph.tag_content sy.hc)))))
    _ = force (reducer (F + 1)) u [.head 0, .head 1] (onPair (unifyHeads u)) m := by rw [if_neg bound]
    _ = _ := (bind_ok run₁).trans (bind_ok run₂)

theorem headNormalize_skip (skip : m.skip i = .ok j) (skip' : m.skip j = .ok j) :
    headNormalize (F + 1) i m = headNormalize (F + 1) j m := by
  rw [headNormalize_eq, headNormalize_eq]
  refine (bind_ok (look_ok skip)).trans (Eq.symm ?_)
  exact bind_ok (look_ok skip')

/-- A unification whose work ends with a verdict in its place. -/
theorem decided_at_once {g g' : Graph} {aux n : Nat} {v : Bool} (hσ : m.signature.Sound)
    (sound : m.graph.Sound) (going : m.Unbounded) (unfree : u ∉ m.graph.free)
    (hc : m.graph.content? u = some (.binary Prelude.standard.unify aux a b))
    (sets : m.graph.Sets u c g) (sets' : g.Sets u (.verdict v) g')
    (run : runHead (reducer (F + 1)) u .unify { m with slice := m.slice.spend } =
      .ok () ({ m with slice := m.slice.spend }.setGraph g')) :
    (headNormalize (F + 2) u).Returns m (Decided m (Only u) n u v) := by
  obtain ⟨sym, found, -, kind, head, -⟩ := Prelude.unify_binary.found hσ
  have start : headNormalize (F + 2) u m = _ :=
    headNormalize_call going.goes (TermGraph.skip_self hc nofun) hc rfl found kind
  rw [head] at start
  have both := sets.again sets'
  refine ⟨u, _, start.trans ((bind_ok run).trans (headNormalize_verdict (b := v) both.same)), ?_⟩
  have nothing : m.Uses (Only u) n { m with slice := m.slice.spend } :=
    ⟨.refl sound, Nat.le_add_right _ _, going.spend⟩
  exact decided_of_sets nothing (only_self u) unfree both

/-- A unification whose work ends with an indirection to a conjunction that is decided. -/
theorem decided_below {n n' : Nat} {v : Bool} {used : List NodeId} {top aux : Nat}
    {pairs : List (NodeId × NodeId)} (hσ : m.signature.Sound) (going : m.Unbounded)
    (unfree : u ∉ m.graph.free)
    (hc : m.graph.content? u = some (.binary Prelude.standard.unify aux a b))
    (run : runHead (reducer (F + 1)) u .unify { m with slice := m.slice.spend } = .ok () m₁)
    (uses : m.Uses (Only u) n m₁) (joined : Joined m₁.graph pairs used top)
    (forward : m₁.graph.content? u = some ⟨.forward, Builtin.forward, 0, .links [top]⟩)
    (fresh : ∀ i ∈ used, i ∈ m.graph.free)
    (rest : (headNormalize (F + 1) top).Returns m₁ (Decided m₁ (· ∈ used) n' top v)) :
    (headNormalize (F + 2) u).Returns m (Decided m (Only u) (n + n') u v) := by
  obtain ⟨sym, found, -, kind, head, -⟩ := Prelude.unify_binary.found hσ
  have start : headNormalize (F + 2) u m = _ :=
    headNormalize_call going.goes (TermGraph.skip_self hc nofun) hc rfl found kind
  rw [head] at start
  obtain ⟨symbol, p, q, hd⟩ : ∃ symbol p q, m₁.graph.content? top = some (.binary symbol 0 p q) := by
    cases joined with
    | last hu => exact ⟨_, _, _, hu⟩
    | cons _ hj => exact ⟨_, _, _, hj⟩
  have skip : m₁.skip u = .ok top := TermGraph.skip_forward forward hd nofun
  have skip' : m₁.skip top = .ok top := TermGraph.skip_self hd nofun
  obtain ⟨e, m₂, ran, decided⟩ := rest
  have outside : u ∉ used := fun hu => unfree (fresh u hu)
  have forward' := (decided.uses.touches.others u outside (uses.touches.unfree u unfree)).trans forward
  refine ⟨e, m₂, start.trans ((bind_ok run).trans ((headNormalize_skip skip skip').trans ran)),
    uses.trans decided.uses fun i hi => .inr (fresh i hi), ?_, decided.unfree,
    .step forward' decided.leads, decided.content⟩
  rcases decided.new with new | new
  · exact .inr (fresh e new)
  · by_contra used_
    exact uses.touches.unfree e (fun hf => used_ (.inr hf)) new

/-- Two terms that are not constructors with arguments are compared at once; constructors are
compared argument by argument. -/
theorem decides (h₀ : m₀.Inv [] ρ) (s t : Ground) : ∃ bound, Decides m₀ s t bound := by
  induction hn : s.edges using Nat.strong_induction_on generalizing s t with
  | _ n ih =>
  subst hn
  obtain ⟨bound, all⟩ : ∃ bound, ∀ symbol xs ys, s = .data symbol xs → t = .data symbol ys →
      xs.length = ys.length → DecidesAll m₀ xs ys bound := by
    cases s with
    | literal v => exact ⟨0, by simp⟩
    | data symbol xs =>
      cases t with
      | literal v => exact ⟨0, by simp⟩
      | data symbol' ys =>
        by_cases length : xs.length = ys.length
        · obtain ⟨bound, all⟩ := decidesAll h₀ xs ys length fun k x y hx hy =>
            ih x.edges (Ground.edges_lt hx) x y rfl
          refine ⟨bound, ?_⟩
          rintro _ _ _ ⟨⟩ ⟨⟩ -
          exact all
        · refine ⟨0, ?_⟩
          rintro _ _ _ ⟨⟩ ⟨⟩ same
          exact absurd same length
  refine ⟨bound + 2, fun fuel le m u aux a b retains going unfree spare hc hs ht room => ?_⟩
  obtain ⟨F, rfl⟩ : ∃ F, fuel = F + 2 := ⟨fuel - 2, by omega⟩
  have hσ : m.signature.Sound := retains.signature.symm ▸ h₀.signature
  obtain ⟨x, y, c, d, g, sx, sy, sets, run⟩ :=
    unify_forces (F := F) h₀ retains.spend going.spend spare hc hs ht
  have lt : u < g.capacity := Graph.content_lt sets.same
  have compared := sx.depicts.compare hσ sy.depicts sx.fits sy.fits
  cases compared with
  | apart symbol other =>
    obtain ⟨g', failed, sets'⟩ :=
      rewriteFail_sets (m := { m with slice := m.slice.spend }.setGraph g) sets.sound lt
    rw [other]
    exact decided_at_once (v := false) hσ retains.sound going unfree hc sets sets'
      (run.trans ((unifyHeads_apart sx.hc sy.hc symbol).trans failed))
  | @literals index symbol aux aux' v w =>
    obtain ⟨g', done, sets'⟩ := verdict_sets (m := { m with slice := m.slice.spend }.setGraph g)
      sets.sound hσ lt (v.same w)
    exact decided_at_once (v := v.same w) hσ retains.sound going unfree hc sets sets'
      (run.trans ((unifyHeads_literals (m := { m with slice := m.slice.spend }.setGraph g) hσ sx.hc
        sy.hc sx.fits).trans done))
  | @data index symbol aux aux' xs ys ls ls' hx hy alike left right =>
    have heads := unifyHeads_data (m := { m with slice := m.slice.spend }.setGraph g) (u := u) hσ
      sx.hc sy.hc sx.fits (hx.symm.trans (alike.trans hy))
    have same : Ground.same (.data symbol xs) (.data symbol ys) = Ground.sameAll xs ys := by
      rw [Ground.same, beq_self_eq_true, Bool.true_and]
    rw [same]
    by_cases none : ls = []
    · obtain rfl : xs = [] := List.length_eq_zero_iff.mp (hx.trans (congrArg List.length none))
      obtain rfl : ys = [] := List.length_eq_zero_iff.mp alike.symm
      obtain ⟨g', done, sets'⟩ := succeed_sets (m := { m with slice := m.slice.spend }.setGraph g)
        sets.sound hσ lt
      rw [if_pos none] at heads
      exact decided_at_once (v := true) hσ retains.sound going unfree hc sets sets'
        (run.trans (heads.trans done))
    · rw [if_neg none] at heads
      have width : (ls.zip ls').length = xs.length := by
        rw [List.length_zip, ← hx, ← hy, ← alike, Nat.min_self]
      have some_ : ls.zip ls' ≠ [] := fun empty => none (List.length_eq_zero_iff.mp
        (hx.symm.trans (width.symm.trans (congrArg List.length empty))))
      have count : Ground.edges (.data symbol xs) = xs.length + (xs.map Ground.edges).sum :=
        Ground.edgesAll_eq xs
      rw [count] at room ⊢
      have going' : Unbounded ({ m with slice := m.slice.spend }.setGraph g) :=
        ⟨going.spend.remaining, going.spend.preempt⟩
      have unfree' : u ∉ g.free := sets.free.symm ▸ unfree
      have first : m.Uses (Only u) 0 ({ m with slice := m.slice.spend }.setGraph g) :=
        (uses_of_sets (S := Only u) going.spend (only_self u) sets (by simp [Content.binary])).paid
      have enough : 2 * (ls.zip ls').length ≤ g.free.length := by
        rw [width, sets.free]
        have : m.graph.free.length = { m with slice := m.slice.spend }.graph.free.length := rfl
        omega
      obtain ⟨_, m₁, built, uses, used, top, joined, forward, fresh⟩ :=
        unifySuccessors_returns (m := { m with slice := m.slice.spend }.setGraph g) some_ sets.sound
          hσ going' lt unfree' enough
      have all₁ := first.trans uses fun i hi => .inl hi
      have free : ∀ i ∈ used, i ∈ m.graph.free := fun i hi => sets.free ▸ (fresh i hi).1
      have unfold_ : Unfold m₀ xs ys (ls.zip ls') := by
        refine ⟨width.symm, fun k x y p hx hy hp => ?_⟩
        obtain ⟨hl, hl'⟩ := List.getElem?_zip_eq_some.mp hp
        have below := left k x p.1 hx hl
        have below' := right k y p.2 hy hl'
        exact ⟨⟨below.1, below.2.2⟩, below'.1, below'.2.2⟩
      have retains₁ : m₀.Retains m₁ := retains.uses all₁ fun i hi => hi.symm ▸ spare
      have spares : ∀ i ∈ used, i ∉ m₁.graph.free ∧ m₀.Spare i := fun i hi =>
        ⟨(fresh i hi).2, retains.spare_of_free (free i hi)⟩
      have left_ := all₁.free
      have rest := all symbol xs ys rfl rfl alike (F + 1) (by omega) m₁ (ls.zip ls') used top retains₁
        uses.unbounded joined spares unfold_ (by omega)
      refine (decided_below hσ going unfree hc (run.trans (heads.trans built)) all₁ joined forward
        free rest).mono fun e m' h => ?_
      exact h.mono (fun i hi => hi) (by omega)

/-! ## Unifying variables

A unification looks for variables among its arguments as they are, indirections skipped. Only then
does it force them, so that an argument which first has to be reduced to a variable is no longer
bound. -/

theorem bindVars_returns {y : NodeId} (hc : m.graph.content? x = some c)
    (hd : m.graph.content? y = some d) (isLazy : Bool) : ∃ bound m',
      bindVars x y isLazy m = .ok bound m' ∧ m'.toTermGraph = m.toTermGraph := by
  let record : Machine → Machine := fun m => m.mapInnermost fun f =>
    f.updateConstraints 0 fun s => s.bind ⟨c.aux, x⟩ ⟨d.aux, y⟩ isLazy
  have got : (get : Eff Machine) m = .ok m m := rfl
  have start : bindVars x y isLazy m = (if m.front?.isSome = true then
      modify record >>= fun _ => pure true else pure false : Eff Bool) m :=
    (bind_ok (look_ok (TermGraph.aux_content hc))).trans
      ((bind_ok (look_ok (TermGraph.aux_content hd))).trans (bind_ok got))
  rw [start]
  by_cases front : m.front?.isSome = true
  · rw [if_pos front]
    exact ⟨true, _, rfl, mapInnermost_same m _⟩
  · rw [if_neg front]
    exact ⟨false, m, rfl, rfl⟩

/-- Two variables unify. -/
theorem unify_variables {y : NodeId} (sound : m.graph.Sound) (hσ : m.signature.Sound)
    (lt : u < m.graph.capacity) (left : m.successorSkip u 0 = .ok x)
    (right : m.successorSkip u 1 = .ok y) (hc : m.graph.content? x = some c)
    (hd : m.graph.content? y = some d) (free : c.tag = .free ∧ d.tag = .free) :
    ∃ m', runHead r u .unify m = .ok () m' ∧ m'.graph.content? u = some (.verdict true) := by
  have done : ∀ m₁ : Machine, m₁.toTermGraph = m.toTermGraph →
      ∃ m', succeed u m₁ = .ok () m' ∧ m'.graph.content? u = some (.verdict true) := by
    intro m₁ same
    have graph : m₁.graph = m.graph := congrArg TermGraph.graph same
    have signature : m₁.signature = m.signature := congrArg TermGraph.signature same
    obtain ⟨g, run, sets⟩ := succeed_sets (graph.symm ▸ sound) (signature.symm ▸ hσ)
      (graph.symm ▸ lt : u < m₁.graph.capacity)
    exact ⟨_, run, sets.same⟩
  have start : runHead r u .unify m = bindHeads u x y m := by
    refine (bind_ok (look_ok left)).trans ((bind_ok (look_ok right)).trans
      ((bind_ok (look_ok (TermGraph.tag_content hc))).trans
        ((bind_ok (look_ok (TermGraph.tag_content hd))).trans ?_)))
    rw [if_pos free]
    rfl
  have ends : bindHeads u x y m =
      (if c.aux ≠ d.aux then bindVars x y false >>= fun _ => succeed u else succeed u) m :=
    (bind_ok (look_ok (TermGraph.aux_content hc))).trans (bind_ok (look_ok (TermGraph.aux_content hd)))
  rw [start, ends]
  by_cases same : c.aux ≠ d.aux
  · obtain ⟨bound, m₁, binds, kept⟩ := bindVars_returns hc hd false
    rw [if_pos same, bind_ok binds]
    exact done m₁ kept
  · rw [if_neg same]
    exact done m rfl

/-- An argument that is reduced to a variable of no type suspends the unification. -/
theorem unify_suspends {v : VarId} {y : NodeId} {e : Content}
    (left : m.successorSkip u 0 = .ok a) (right : m.successorSkip u 1 = .ok y)
    (hd : m.graph.content? a = some d) (call : d.tag = .operation) (he : m.graph.content? y = some e)
    (reads : m.successor u 0 = .ok (some p)) (head : r.head p m = .ok x m₁)
    (sound : m₁.graph.Sound) (signature : m₁.signature.Sound) (hc : m₁.graph.content? u = some c)
    (fits : c.Fits m₁.signature) (hk : c.links[0]? = some p) (apart : x ≠ u)
    (hx : m₁.graph.content? x = some ⟨.free, Builtin.free, v, .links []⟩) :
    ∃ g, m₁.graph.Sets u (c.setLink 0 x) g ∧
      runHead r u .unify m = .error (.suspended v) (m₁.setGraph g) := by
  have unbound : ¬ (d.tag = .free ∧ e.tag = .free) := fun free => by cases call.symm.trans free.1
  have start : runHead r u .unify m = withHead r u 0 (fun x => withHead r u 1 (unifyHeads u x)) m := by
    refine (bind_ok (look_ok left)).trans ((bind_ok (look_ok right)).trans
      ((bind_ok (look_ok (TermGraph.tag_content hd))).trans
        ((bind_ok (look_ok (TermGraph.tag_content he))).trans ?_)))
    rw [if_neg unbound]
  obtain ⟨g, sets, moved⟩ := relink_sets (e := do
    if (← look (·.tag x)) = .free then narrow x
    settle u 0 (← look (·.skip x))) sound signature hc fits hk x
  have there : (m₁.setGraph g).graph.content? x = some ⟨.free, Builtin.free, v, .links []⟩ :=
    (sets.others x apart).trans hx
  have narrows : narrow x (m₁.setGraph g) = .error (.suspended v) (m₁.setGraph g) := by
    have aux := TermGraph.aux_content (t := (m₁.setGraph g).toTermGraph) there
    have literal := TermGraph.literal_content (t := (m₁.setGraph g).toTermGraph) there
    have none : instantiate x (m₁.setGraph g) = .error (.suspended v) (m₁.setGraph g) :=
      (bind_ok (look_ok aux)).trans ((bind_ok (look_ok (r := fun m => m.literal? x) literal)).trans rfl)
    exact (bind_ok (look_ok aux)).trans (bind_error none)
  have suspends : headArg r u 0 m = .error (.suspended v) (m₁.setGraph g) := by
    calc headArg r u 0 m
        = _ := (bind_ok (look_ok reads)).trans
            ((bind_ok (look_ok (r := fun _ => Link.target (some p)) rfl)).trans (bind_ok head))
      _ = _ := moved
      _ = _ := bind_ok (look_ok (TermGraph.tag_content there))
      _ = _ := bind_error narrows
  exact ⟨g, sets, start.trans (bind_error suspends)⟩

/-- What a head normalization comes to: the kind of node found, or the variable it waits for. -/
def headOutcome : EStateM.Result Stop Machine NodeId → Option (Tag ⊕ VarId)
  | .ok i m => (m.graph.content? i).map fun c => .inl c.tag
  | .error (.suspended v) _ => some (.inr v)
  | .error _ _ => none

/-- Reducing the arguments of a unification first may change what it comes to: `() &> x` is no variable
until it has been reduced to one. -/
theorem unification_depends_on_order : ¬ ∀ (m m₁ m₂ : Machine) (fuel u a b x y aux : Nat) (c d : Content),
    Operation.Run (.ofConfig (.fixedPool 64)) m → m.Reachable u →
      m.graph.content? u = some (.binary Prelude.standard.unify aux a b) →
      m.headNormalize fuel a = .ok x m₁ → m₁.headNormalize fuel b = .ok y m₂ →
      m₂.graph.content? x = some c → m₂.graph.content? y = some d → c.tag = .free → d.tag = .free →
      headOutcome (m.headNormalize fuel u) = headOutcome (m₂.headNormalize fuel u) := by
  intro agree
  let free (v : VarId) : Content := ⟨.free, Builtin.free, v, .links []⟩
  let facts (m : Machine) : Bool :=
    match m.headNormalize 100 3 with
    | .ok x m₁ =>
      match m₁.headNormalize 100 1 with
      | .ok y m₂ => decide (m.graph.content? 4 = some (.binary Prelude.standard.unify 0 3 1) ∧
          m₂.graph.content? x = some (free 0) ∧ m₂.graph.content? y = some (free 1) ∧
          headOutcome (m.headNormalize 100 4) ≠ headOutcome (m₂.headNormalize 100 4))
      | .error _ _ => false
    | .error _ _ => false
  have result : (Operation.script (.ofConfig (.fixedPool 64)) Schedule.guardedVariable).map
      (fun m => (m.roots.contains (some 4), facts m)) = some (true, true) := by decide +kernel
  obtain ⟨m, ran, result⟩ := Option.map_eq_some_iff.mp result
  obtain ⟨rooted, result⟩ := Prod.mk.inj result
  dsimp only [facts] at result
  split at result
  · next x m₁ first =>
    split at result
    · next y m₂ second =>
      obtain ⟨content, hx, hy, differ⟩ := of_decide_eq_true result
      exact differ (agree m m₁ m₂ 100 4 3 1 x y 0 _ _ (Operation.Run.start.script ran)
        (Operation.reachable_of_contains rooted) content first second hx hy rfl rfl)
    · cases result
  · cases result

end Reduction

end ChoiceGraph
