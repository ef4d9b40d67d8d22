import ChoiceGraph.Reduction.Reduce

/-! # Laws that effects abide by

Every step of a reduction is assembled from a few primitive effects, by sequencing them and by rooting
links around them. What these keep to is kept to by whatever is assembled from them, so that it has to
be shown of them only. Nothing that is assembled so reads the configuration, or the slice, by itself. -/
namespace ChoiceGraph

/-! ## Functions that search -/

mutual

/-- The rule may run a search of its own. -/
def Rule.searches : Rule → Bool
  | .force _ next => next.searches
  | .normal _ next => next.searches
  | .branch _ branches => branches.searches
  | .bind _ _ _ next => next.searches
  | .count _ => true
  | .first _ => true
  | .body _ _ => false
  | .fail => false

def Branches.searches : Branches → Bool
  | .otherwise rule => rule.searches
  | .alternative _ rule rest => rule.searches || rest.searches

end

def HeadStep.searches : HeadStep → Bool
  | .rule body => body.searches
  | _ => false

/-- No function runs a search of its own. -/
def Signature.SearchFree (σ : Signature) : Prop := ∀ sym ∈ σ.symbols, sym.head.searches = false

instance (σ : Signature) : Decidable σ.SearchFree := inferInstanceAs (Decidable (∀ sym ∈ σ.symbols, _))

theorem Signature.SearchFree.symbol {σ : Signature} {id : SymbolId} {sym : Symbol} (h : σ.SearchFree)
    (found : σ.symbol? id = some sym) : sym.head.searches = false := by
  obtain ⟨bound, rfl⟩ := Array.getElem?_eq_some_iff.mp found
  exact h _ (Array.getElem_mem bound)

/-- Neither the configuration nor the slice makes a difference. -/
def Machine.Blind {α : Type} (r : Machine → α) : Prop :=
  ∀ (m : Machine) (config : Config) (slice : Slice), r { m with config := config, slice := slice } = r m

/-- Nothing but the term graph makes a difference. -/
def Machine.Graphic {α : Type} (r : Machine → α) : Prop :=
  ∀ m n : Machine, r { n with toTermGraph := m.toTermGraph } = r m

/-- Nothing but the term graph and the constraints in front makes a difference. -/
def Machine.Frontal {α : Type} (r : Machine → α) : Prop :=
  ∀ m n : Machine, n.toTermGraph = m.toTermGraph → n.frontConstraints? = m.frontConstraints? → r n = r m

theorem Machine.Graphic.blind {α : Type} {r : Machine → α} (graphic : Graphic r) : Blind r :=
  fun m config slice => graphic m { m with config := config, slice := slice }

theorem Machine.Frontal.blind {α : Type} {r : Machine → α} (frontal : Frontal r) : Blind r :=
  fun m config slice => frontal m { m with config := config, slice := slice } rfl rfl

/-- There is a frame in front just when there are constraints in front. -/
theorem Machine.front_isSome (m : Machine) : m.front?.isSome = m.frontConstraints?.isSome := by
  unfold front? frontConstraints?
  cases m.computations.head? with
  | none => rfl
  | some c => exact Option.isSome_map.symm

namespace Eff

open Machine

variable {α β : Type}

/-! ## Laws -/

/-- What primitive effects keep to, and what is kept to by effects assembled from others. -/
structure Law where
  Holds : {α : Type} → Eff α → Prop
  returns : ∀ {α : Type} (a : α), Holds (pure a : Eff α)
  throws : ∀ {α : Type} (stop : Stop), Holds (throw stop : Eff α)
  sequence : ∀ {α β : Type} {e : Eff α} {f : α → Eff β}, Holds e → (∀ a, Holds (f a)) → Holds (e >>= f)
  reads : ∀ {α : Type} {r : Machine → Except Fault α}, Graphic r → Holds (look r)
  gets : ∀ {α : Type} {f : Machine → Eff α}, Frontal f → (∀ m, Holds (f m)) → Holds (get >>= f)
  roots : ∀ {α : Type} {e : Eff α} (links : List Link), Holds e → Holds (withRoots links e)
  freshId : Holds freshId
  collect : Holds collect
  take : ∀ n, Holds (take? n)
  grow : ∀ n, Holds (grow? n)
  exhausted : ∀ {α : Type} n, Holds (exhausted n : Eff α)
  put : ∀ i n, Holds (put i n)
  storeLinks : ∀ links, Holds (storeLinks links)
  setSuccessor : ∀ i k target, Holds (setSuccessor i k target)
  constrain : ∀ update,
    Holds (modify fun m => m.mapInnermost fun c => c.updateConstraints 0 update : Eff Unit)
  tick : Holds Reduction.tick

/-- The effect keeps to the law. -/
def Abides (L : Law) (e : Eff α) : Prop := L.Holds e

/-- What a law says of searches. Unless searches may be nested, the rules that are run have none. -/
structure Law.Searching (L : Law) (nested : Prop) : Prop where
  symbol : ∀ {α : Type} {i : NodeId} {f : Symbol → Eff α},
    (∀ sym, nested ∨ sym.head.searches = false → (f sym).Abides L) → (look (·.symbol i) >>= f).Abides L
  gather : nested → ∀ {σ : Type} {normal : NodeId → Eff Unit} {visit : Schedule.Visitor σ}, Blind visit →
    (∀ i, (normal i).Abides L) → ∀ turns root s, (Schedule.gather normal turns visit root s).Abides L

variable {L : Law} {e : Eff α} {f : α → Eff β}

theorem abides_pure (a : α) : (pure a : Eff α).Abides L := L.returns a

theorem abides_throw (stop : Stop) : (throw stop : Eff α).Abides L := L.throws stop

theorem Abides.bind (h : e.Abides L) (hf : ∀ a, (f a).Abides L) : (e >>= f).Abides L := L.sequence h hf

theorem abides_look {r : Machine → Except Fault α} (graphic : Graphic r) : (look r).Abides L := L.reads graphic

theorem abides_read {r : Machine → Except Fault α} {f : α → Eff β} (graphic : Graphic r)
    (h : ∀ a, (f a).Abides L) : (look r >>= f).Abides L := (abides_look graphic).bind h

theorem abides_get {f : Machine → Eff β} (frontal : Frontal f) (h : ∀ m, (f m).Abides L) :
    ((get : Eff Machine) >>= f).Abides L := L.gets frontal h

theorem withRoots_abides {links : List Link} (h : e.Abides L) : (withRoots links e).Abides L :=
  L.roots links h

/-! ## The heap -/

theorem freshId_abides : freshId.Abides L := L.freshId

theorem collect_abides : collect.Abides L := L.collect

theorem take_abides (n : Nat) : (take? n).Abides L := L.take n

theorem grow_abides (n : Nat) : (grow? n).Abides L := L.grow n

theorem exhausted_abides (n : Nat) : (exhausted n : Eff α).Abides L := L.exhausted n

theorem put_abides (i : NodeId) (n : Node) : (put i n).Abides L := L.put i n

theorem storeLinks_abides (links : List Link) : (storeLinks links).Abides L := L.storeLinks links

theorem setSuccessor_abides (i : NodeId) (k : Nat) (target : Link) : (setSuccessor i k target).Abides L :=
  L.setSuccessor i k target

theorem constrain_abides (update : ConstraintStore → ConstraintStore) :
    (modify fun m => m.mapInnermost fun c => c.updateConstraints 0 update : Eff Unit).Abides L :=
  L.constrain update

theorem tick_abides : Reduction.tick.Abides L := L.tick

theorem allocate_abides (n : Nat) : (allocate n).Abides L := by
  unfold allocate
  refine (take_abides n).bind fun first => ?_
  cases first with
  | some ids => exact abides_pure ids
  | none =>
    refine collect_abides.bind fun _ => (take_abides n).bind fun second => ?_
    cases second with
    | some ids => exact abides_pure ids
    | none =>
      refine (grow_abides n).bind fun grown => ?_
      cases grown with
      | false => exact exhausted_abides n
      | true =>
        refine (take_abides n).bind fun third => ?_
        cases third with
        | some ids => exact abides_pure ids
        | none => exact exhausted_abides n

theorem allocateOne_abides : allocateOne.Abides L := by
  refine (allocate_abides 1).bind fun ids => ?_
  cases ids with
  | nil => exact abides_throw _
  | cons i _ => exact abides_pure i

theorem rewrite_abides (i : NodeId) (tag : Tag) (symbol : SymbolId) (aux : Nat)
    (links : List Link) : (rewrite i tag symbol aux links).Abides L :=
  (storeLinks_abides links).bind fun _ => put_abides i _

theorem rewriteTo_abides (i : NodeId) (symbol : SymbolId) (links : List Link) :
    (rewriteTo i symbol links).Abides L :=
  abides_read (fun _ _ => rfl) fun _ => rewrite_abides i _ symbol 0 links

theorem rewriteData_abides (i : NodeId) (symbol : SymbolId) (aux : Nat) (literal : Literal) :
    (rewriteData i symbol aux literal).Abides L :=
  abides_read (fun _ _ => rfl) fun _ => put_abides i _

theorem rewriteInt_abides (i : NodeId) (v : Int64) : (rewriteInt i v).Abides L :=
  rewriteData_abides i Builtin.int 0 (.int v)

theorem rewriteFail_abides (i : NodeId) : (rewriteFail i).Abides L := put_abides i _

theorem rewriteForward_abides (i : NodeId) (target : Link) :
    (rewriteForward i target).Abides L := put_abides i _

theorem rewriteFree_abides (i : NodeId) (id : Nat) (type : Option TypeId) :
    (rewriteFree i id type).Abides L := put_abides i _

theorem makeData_abides (symbol : SymbolId) (aux : Nat) (literal : Literal) :
    (makeData symbol aux literal).Abides L :=
  allocateOne_abides.bind fun i =>
    (rewriteData_abides i symbol aux literal).bind fun _ => abides_pure i

theorem makeFree_abides (type : Option TypeId) : (makeFree type).Abides L :=
  allocateOne_abides.bind fun i => freshId_abides.bind fun id =>
    (rewriteFree_abides i id type).bind fun _ => abides_pure i

theorem allocateFor_abides (links : List Link) : (allocateFor links).Abides L :=
  withRoots_abides allocateOne_abides

theorem make_abides (symbol : SymbolId) (links : List Link) : (make symbol links).Abides L :=
  (allocateFor_abides links).bind fun i => (rewriteTo_abides i symbol links).bind fun _ => abides_pure i

theorem makeChoice_abides (left right : Link) : (makeChoice left right).Abides L :=
  (allocateFor_abides _).bind fun i => freshId_abides.bind fun _ =>
    (rewrite_abides i _ _ _ _).bind fun _ => abides_pure i

theorem makeFunctionValue_abides (symbol : SymbolId) : (makeFunctionValue symbol).Abides L := by
  refine abides_get (fun _ _ graph _ => by rw [graph]) fun m => ?_
  cases m.signature.symbol? symbol with
  | none => exact abides_throw _
  | some s => exact makeData_abides _ _ _

end Eff

namespace Reduction

open Eff Machine

variable {L : Law} {nested : Prop} {r : Reducer} {root : NodeId} {k : Nat}

/-! ## Narrowing -/

theorem allocateBeside_abides (root : NodeId) (n : Nat) : (allocateBeside root n).Abides L :=
  withRoots_abides (allocate_abides n)

theorem pullTab_abides (root : NodeId) (k : Nat) : (pullTab root k).Abides L := by
  refine (allocateBeside_abides root 2).bind fun fresh => ?_
  split
  · next left right =>
    refine abides_read (fun _ _ => rfl) fun choice => abides_read (fun _ _ => rfl) fun c =>
      abides_read (fun _ _ => rfl) fun l => abides_read (fun _ _ => rfl) fun r =>
      abides_read (fun _ _ => rfl) fun node => abides_read (fun _ _ => rfl) fun links => ?_
    exact (rewrite_abides left _ _ _ _).bind fun _ => (rewrite_abides right _ _ _ _).bind
      fun _ => rewrite_abides root _ _ _ _
  · exact abides_throw _

theorem bindVars_abides (x y : NodeId) (isLazy : Bool) : (bindVars x y isLazy).Abides L := by
  refine abides_read (fun _ _ => rfl) fun i => abides_read (fun _ _ => rfl) fun j =>
    abides_get (fun m n _ front => by rw [n.front_isSome, m.front_isSome, front]) fun m => ?_
  split
  · exact (constrain_abides _).bind fun _ => abides_pure true
  · exact abides_pure false

theorem makeFields_abides (fields : List NodeId) : (makeFields fields).Abides L := by
  induction fields with
  | nil => exact abides_pure ()
  | cons i rest ih =>
    exact freshId_abides.bind fun id => (rewriteFree_abides i id none).bind fun _ => ih

theorem buildAlternatives_abides (constructors : List (SymbolId × Nat)) (fresh : List NodeId) :
    (buildAlternatives constructors fresh).Abides L := by
  induction constructors generalizing fresh with
  | nil => exact abides_pure _
  | cons constructor rest ih =>
    obtain ⟨symbol, arity⟩ := constructor
    cases fresh with
    | nil => exact abides_throw _
    | cons node fresh =>
      refine (makeFields_abides _).bind fun _ => (rewriteTo_abides node symbol _).bind fun _ => ?_
      exact (ih _).bind fun built => abides_pure _

theorem nestChoices_abides (alternatives fresh : List NodeId) :
    (nestChoices alternatives fresh).Abides L := by
  induction alternatives with
  | nil => exact abides_throw _
  | cons alternative rest ih =>
    cases rest with
    | nil => exact abides_pure _
    | cons next rest =>
      refine ih.bind fun ⟨below, left⟩ => ?_
      cases left with
      | nil => exact abides_throw _
      | cons node left =>
        exact freshId_abides.bind fun id => (rewrite_abides node _ _ _ _).bind fun _ =>
          abides_pure _

theorem instantiate_abides (var : NodeId) : (instantiate var).Abides L := by
  refine abides_read (fun _ _ => rfl) fun id => abides_read (fun _ _ => rfl) fun literal => ?_
  split
  · refine abides_read (fun _ _ => rfl) fun constructors => ?_
    split
    · exact (rewriteFail_abides var).bind fun _ => abides_pure _
    · refine (allocateBeside_abides var _).bind fun fresh => ?_
      refine (buildAlternatives_abides constructors fresh).bind fun ⟨alternatives, fresh⟩ => ?_
      cases alternatives with
      | nil => exact (abides_throw _).bind fun _ => abides_pure _
      | cons first rest =>
        cases rest with
        | nil => exact (rewriteForward_abides var _).bind fun _ => abides_pure _
        | cons second rest =>
          exact (nestChoices_abides _ fresh).bind fun nested =>
            (rewrite_abides var _ _ _ _).bind fun _ => abides_pure _
  · exact abides_throw _

theorem link_abides (x y : BoundVar) : (link x y).Abides L := by
  refine abides_get (fun _ _ _ front => by rw [front]) fun m => ?_
  split
  · exact abides_pure ()
  · split
    · exact abides_pure ()
    · refine abides_read (fun _ _ => rfl) fun a => abides_read (fun _ _ => rfl) fun b =>
        abides_read (fun _ _ => rfl) fun same => ?_
      split
      · exact abides_read (fun _ _ => rfl) fun fields => constrain_abides _
      · exact abides_pure ()

theorem instantiateEnd_abides (i : NodeId) : (instantiateEnd i).Abides L := by
  refine abides_read (fun _ _ => rfl) fun j => abides_read (fun _ _ => rfl) fun tag =>
    abides_read (fun _ _ => rfl) fun literal => ?_
  split
  · exact (instantiate_abides j).bind fun _ => abides_pure ()
  · exact abides_pure ()

theorem linkPairs_abides (pairs : List (BoundVar × BoundVar)) : (linkPairs pairs).Abides L := by
  induction pairs with
  | nil => exact abides_pure ()
  | cons pair rest ih =>
    obtain ⟨x, y⟩ := pair
    exact (instantiateEnd_abides x.node).bind fun _ => (instantiateEnd_abides y.node).bind
      fun _ => (link_abides x y).bind fun _ => ih

theorem bindGenerators_abides (var : VarId) : (bindGenerators var).Abides L := by
  refine abides_get (fun _ _ _ front => by rw [front]) fun m => ?_
  split
  · exact abides_pure ()
  · exact abides_read (fun _ _ => rfl) fun pairs => linkPairs_abides pairs

theorem narrow_abides (var : NodeId) : (narrow var).Abides L := by
  refine abides_read (fun _ _ => rfl) fun id => (instantiate_abides var).bind fun count => ?_
  split
  · exact bindGenerators_abides id
  · exact abides_pure ()

theorem pull_abides (root : NodeId) (k : Nat) : (pull root k).Abides L := by
  refine abides_read (fun _ _ => rfl) fun choice => abides_read (fun _ _ => rfl) fun symbol => ?_
  split
  · exact abides_read (fun _ _ => rfl) fun choice => abides_read (fun _ _ => rfl) fun var =>
      (pullTab_abides root k).bind fun _ => bindGenerators_abides var
  · exact pullTab_abides root k

/-! ## Forcing arguments -/

/-- The reductions of other nodes keep to the law. -/
structure Reducer.Abides (L : Law) (r : Reducer) : Prop where
  normal : ∀ i, (r.normal i).Abides L
  head : ∀ i, (r.head i).Abides L

theorem settle_abides (root : NodeId) (k : Nat) (arg : NodeId) : (settle root k arg).Abides L := by
  refine abides_read (fun _ _ => rfl) fun tag => ?_
  cases tag with
  | failure => exact (rewriteFail_abides root).bind fun _ => abides_pure _
  | choice => exact (pull_abides root k).bind fun _ => abides_pure _
  | free => exact abides_read (fun _ _ => rfl) fun id => abides_throw _
  | operation => exact abides_pure _
  | constructor _ => exact abides_pure _
  | forward => exact abides_throw _
  | unassigned _ => exact abides_throw _

/-- A variable is narrowed before it is settled. -/
def settleArg (root : NodeId) (k : Nat) (arg : NodeId) : Eff Argument := do
  if (← look (·.tag arg)) = .free then narrow arg
  settle root k (← look (·.skip arg))

/-- What a step does with the head normal form of an argument. -/
def takeArg (root : NodeId) (k : Nat) (link : Link) (arg : NodeId) : Eff Argument := do
  if link ≠ some arg then setSuccessor root k (some arg)
  settleArg root k arg

theorem settleArg_abides (root : NodeId) (k : Nat) (arg : NodeId) :
    (settleArg root k arg).Abides L := by
  have settled : ∀ i, (settle root k i).Abides L := settle_abides root k
  refine abides_read (fun _ _ => rfl) fun tag => ?_
  dsimp only
  split
  · exact (narrow_abides arg).bind fun _ => (abides_look fun _ _ => rfl).bind settled
  · exact (abides_look fun _ _ => rfl).bind settled

theorem takeArg_abides (root : NodeId) (k : Nat) (link : Link) (arg : NodeId) :
    (takeArg root k link arg).Abides L := by
  unfold takeArg
  dsimp only
  split
  · exact (setSuccessor_abides root k _).bind fun _ => settleArg_abides root k arg
  · exact settleArg_abides root k arg

theorem headArg_abides (hr : r.Abides L) (root : NodeId) (k : Nat) :
    (headArg r root k).Abides L :=
  abides_read (fun _ _ => rfl) fun l =>
    abides_read (fun _ _ => rfl) fun i => (hr.head i).bind fun arg =>
    takeArg_abides root k l arg

theorem normalArg_abides (hr : r.Abides L) (root : NodeId) (k : Nat) :
    (normalArg r root k).Abides L := by
  refine (headArg_abides hr root k).bind fun forced => ?_
  cases forced with
  | taken => exact abides_pure _
  | value arg =>
    exact (hr.normal arg).bind fun _ => abides_read (fun _ _ => rfl) fun i => settle_abides root k i

theorem withHead_abides (hr : r.Abides L) {body : NodeId → Eff Unit}
    (h : ∀ i, (body i).Abides L) : (withHead r root k body).Abides L := by
  refine (headArg_abides hr root k).bind fun forced => ?_
  cases forced with
  | taken => exact abides_pure ()
  | value arg => exact h arg

theorem withNormal_abides (hr : r.Abides L) {body : NodeId → Eff Unit}
    (h : ∀ i, (body i).Abides L) : (withNormal r root k body).Abides L := by
  refine (normalArg_abides hr root k).bind fun forced => ?_
  cases forced with
  | taken => exact abides_pure ()
  | value arg => exact h arg

/-! ## Steps of the prelude -/

theorem succeed_abides (root : NodeId) : (succeed root).Abides L := rewriteTo_abides root _ _

theorem stepArithmetic_abides (hr : r.Abides L) (op : Arithmetic) (root : NodeId) :
    (stepArithmetic r op root).Abides L := by
  refine withHead_abides hr fun x => withHead_abides hr fun y => ?_
  refine abides_read (fun _ _ => rfl) fun a => abides_read (fun _ _ => rfl) fun b => ?_
  split
  · split
    · exact rewriteInt_abides root _
    · exact rewriteFail_abides root
  · exact rewriteFail_abides root

theorem stepEquals_abides (hr : r.Abides L) (root : NodeId) : (stepEquals r root).Abides L :=
  withNormal_abides hr fun _ => withNormal_abides hr fun _ =>
    abides_read (fun _ _ => rfl) fun _ => rewriteTo_abides root _ _

theorem stepCompare_abides (hr : r.Abides L) (root : NodeId) : (stepCompare r root).Abides L :=
  withNormal_abides hr fun _ => withNormal_abides hr fun _ =>
    abides_read (fun _ _ => rfl) fun order => by cases order <;> exact rewriteTo_abides root _ _

theorem stepChoose_abides (root : NodeId) : (stepChoose root).Abides L :=
  abides_read (fun _ _ => rfl) fun _ =>
    abides_read (fun _ _ => rfl) fun _ => freshId_abides.bind fun _ =>
    rewrite_abides root _ _ _ _

theorem unifyPairs_abides (nodes : List NodeId) (pairs : List (Link × Link)) :
    (unifyPairs nodes pairs).Abides L := by
  induction nodes generalizing pairs with
  | nil => exact abides_pure ()
  | cons node nodes ih =>
    cases pairs with
    | nil => exact abides_pure ()
    | cons pair pairs => exact (rewriteTo_abides node _ _).bind fun _ => ih pairs

theorem conjoin_abides (nodes conjunctions : List NodeId) :
    (conjoin nodes conjunctions).Abides L := by
  induction nodes generalizing conjunctions with
  | nil => exact abides_throw _
  | cons node rest ih =>
    cases rest with
    | nil => exact abides_pure node
    | cons next rest =>
      cases conjunctions with
      | nil => exact abides_throw _
      | cons conjunction conjunctions =>
        exact (ih conjunctions).bind fun below =>
          (rewriteTo_abides conjunction _ _).bind fun _ => abides_pure conjunction

theorem unifySuccessors_abides (root : NodeId) (pairs : List (Link × Link)) :
    (unifySuccessors root pairs).Abides L :=
  (allocateBeside_abides root _).bind fun _ => (unifyPairs_abides _ pairs).bind fun _ =>
    (conjoin_abides _ _).bind fun _ => rewriteForward_abides root _

theorem unifyHeads_abides (root x y : NodeId) : (unifyHeads root x y).Abides L := by
  refine abides_read (fun _ _ => rfl) fun a => abides_read (fun _ _ => rfl) fun b => ?_
  split
  · exact rewriteFail_abides root
  · refine abides_read (fun _ _ => rfl) fun symbol => ?_
    split
    · exact rewriteFail_abides root
    · split
      · split
        · exact succeed_abides root
        · exact rewriteFail_abides root
      · refine abides_read (fun _ _ => rfl) fun xs => abides_read (fun _ _ => rfl) fun ys => ?_
        split
        · exact succeed_abides root
        · split
          · exact unifySuccessors_abides root _
          · exact abides_throw _

theorem stepUnify_abides (hr : r.Abides L) (root : NodeId) : (stepUnify r root).Abides L := by
  refine abides_read (fun _ _ => rfl) fun a => abides_read (fun _ _ => rfl) fun b =>
    abides_read (fun _ _ => rfl) fun s =>
    abides_read (fun _ _ => rfl) fun t => ?_
  split
  · refine abides_read (fun _ _ => rfl) fun i => abides_read (fun _ _ => rfl) fun j => ?_
    dsimp only
    split
    · exact (bindVars_abides a b false).bind fun _ => succeed_abides root
    · exact succeed_abides root
  · exact withHead_abides hr fun x => withHead_abides hr fun y => unifyHeads_abides root x y

theorem stepConjunction_abides (hr : r.Abides L) (root : NodeId) :
    (stepConjunction r root).Abides L :=
  withHead_abides hr fun _ => withHead_abides hr fun _ => succeed_abides root

theorem stepGuard_abides (hr : r.Abides L) (root : NodeId) : (stepGuard r root).Abides L :=
  withHead_abides hr fun _ => abides_read (fun _ _ => rfl) fun _ => rewriteForward_abides root _

theorem stepEnsureNotFree_abides (hr : r.Abides L) (root : NodeId) :
    (stepEnsureNotFree r root).Abides L :=
  withHead_abides hr fun _ => rewriteForward_abides root _

theorem stepStrictApply_abides (hr : r.Abides L) (root : NodeId) :
    (stepStrictApply r root).Abides L :=
  withHead_abides hr fun _ => abides_read (fun _ _ => rfl) fun _ =>
    abides_read (fun _ _ => rfl) fun _ =>
    rewriteTo_abides root _ _

theorem stepApply_abides (hr : r.Abides L) (root : NodeId) : (stepApply r root).Abides L := by
  refine withHead_abides hr fun f => abides_read (fun _ _ => rfl) fun x =>
    abides_read (fun _ _ => rfl) fun missing => abides_read (fun _ _ => rfl) fun symbol => ?_
  split
  · exact rewriteFail_abides root
  · split
    · exact rewrite_abides root _ _ _ _
    · refine abides_read (fun _ _ => rfl) fun spine => ?_
      split
      · exact rewriteFail_abides root
      · exact rewriteTo_abides root _ _

theorem stepSpin_abides : stepSpin.Abides L :=
  (makeData_abides _ _ _).bind fun _ => abides_pure ()

/-! ## Rules -/

theorem resolve_abides (s : SymbolRef) : (resolve s).Abides L := by
  refine abides_get (fun _ _ graph _ => by rw [graph]) fun m => ?_
  split
  · exact abides_pure _
  · exact abides_throw _

theorem freshVariable_abides (vars : List NodeId) (index : Nat) :
    (freshVariable vars index).Abides L := by
  unfold freshVariable
  split
  · exact abides_pure _
  · exact abides_throw _

mutual

theorem writeTemplate_abides (root : NodeId) (vars : List NodeId) :
    ∀ (template : Template) (i : NodeId) (fresh : List NodeId),
      (writeTemplate root vars template i fresh).Abides L
  | .int v, i, fresh => by
    rw [writeTemplate]
    exact (rewriteInt_abides i v).bind fun _ => abides_pure fresh
  | .path first rest, i, fresh => by
    rw [writeTemplate]
    exact abides_read (fun _ _ => rfl) fun l => (rewriteForward_abides i l).bind fun _ =>
      abides_pure fresh
  | .fresh index, i, fresh => by
    rw [writeTemplate]
    exact (freshVariable_abides vars index).bind fun l =>
      (rewriteForward_abides i l).bind fun _ => abides_pure fresh
  | .app symbol args, i, fresh => by
    rw [writeTemplate]
    exact (writeArgs_abides root vars args fresh).bind fun written =>
      (resolve_abides symbol).bind fun s => (rewriteTo_abides i s _).bind fun _ => abides_pure _

theorem writeArgs_abides (root : NodeId) (vars : List NodeId) :
    ∀ (args : List Template) (fresh : List NodeId), (writeArgs root vars args fresh).Abides L
  | [], fresh => by
    rw [writeArgs]
    exact abides_pure _
  | .path first rest :: args, fresh => by
    rw [writeArgs]
    exact abides_read (fun _ _ => rfl) fun l => (writeArgs_abides root vars args fresh).bind fun _ =>
      abides_pure _
  | .fresh index :: args, fresh => by
    rw [writeArgs]
    exact (freshVariable_abides vars index).bind fun l =>
      (writeArgs_abides root vars args fresh).bind fun _ => abides_pure _
  | .int v :: args, [] => by
    simp only [writeArgs]
    exact abides_throw _
  | .app symbol inner :: args, [] => by
    simp only [writeArgs]
    exact abides_throw _
  | .int v :: args, i :: fresh => by
    simp only [writeArgs]
    exact (writeTemplate_abides root vars (.int v) i fresh).bind fun fresh =>
      (writeArgs_abides root vars args fresh).bind fun _ => abides_pure _
  | .app symbol inner :: args, i :: fresh => by
    simp only [writeArgs]
    exact (writeTemplate_abides root vars (.app symbol inner) i fresh).bind fun fresh =>
      (writeArgs_abides root vars args fresh).bind fun _ => abides_pure _

end

theorem withFreshVariables_abides {α : Type} (types : List (Option TypeId))
    {body : List NodeId → Eff α} (h : ∀ vars, (body vars).Abides L) :
    (withFreshVariables types body).Abides L := by
  induction types generalizing body with
  | nil => exact h []
  | cons type types ih =>
    exact (makeFree_abides type).bind fun v => withRoots_abides (ih fun vars => h (v :: vars))

theorem instantiateTemplate_abides (root : NodeId) (template : Template)
    (free : List (Option TypeId)) : (instantiateTemplate root template free).Abides L := by
  refine (withRoots_abides (withFreshVariables_abides free fun vars =>
    (allocate_abides _).bind fun _ => abides_pure _)).bind fun made => ?_
  exact (writeTemplate_abides root _ template root _).bind fun _ => abides_pure ()

theorem bindArgs_abides (root : NodeId) (x y : Nat) (isLazy : Bool) :
    (bindArgs root x y isLazy).Abides L := by
  refine abides_read (fun _ _ => rfl) fun a => abides_read (fun _ _ => rfl) fun b =>
    abides_read (fun _ _ => rfl) fun s =>
    abides_read (fun _ _ => rfl) fun t => ?_
  split
  · exact (bindVars_abides a b isLazy).bind fun _ => abides_pure ()
  · exact abides_pure ()

/-! ## Rules that search -/

theorem countValues_abides (s : L.Searching nested) (allowed : nested) (hr : r.Abides L) (root : NodeId)
    (arg : Nat) : (countValues r root arg).Abides L :=
  abides_read (fun _ _ => rfl) fun l => (s.gather allowed (fun _ _ _ => rfl) hr.normal r.turns l 0).bind
    fun _ => rewriteInt_abides root _

theorem firstValue_abides (s : L.Searching nested) (allowed : nested) (hr : r.Abides L) (root : NodeId)
    (arg : Nat) : (firstValue r root arg).Abides L := by
  refine abides_read (fun _ _ => rfl) fun l =>
    (s.gather allowed (fun _ _ _ => rfl) hr.normal r.turns l none).bind fun ⟨value, _⟩ => ?_
  cases value with
  | some i => exact rewriteForward_abides root _
  | none => exact rewriteFail_abides root

mutual

theorem runRule_abides (s : L.Searching nested) (hr : r.Abides L) (root : NodeId) :
    ∀ rule : Rule, (nested ∨ rule.searches = false) → (runRule r root rule).Abides L
  | .force arg next, allowed => by
    rw [runRule]
    exact withHead_abides hr fun _ => runRule_abides s hr root next allowed
  | .normal arg next, allowed => by
    rw [runRule]
    exact withNormal_abides hr fun _ => runRule_abides s hr root next allowed
  | .branch arg branches, allowed => by
    rw [runRule]
    exact withHead_abides hr fun i => abides_read (fun _ _ => rfl) fun sym =>
      runBranch_abides s hr root sym.name branches allowed
  | .bind x y isLazy next, allowed => by
    rw [runRule]
    exact (bindArgs_abides root x y isLazy).bind fun _ => runRule_abides s hr root next allowed
  | .count arg, allowed => by
    rw [runRule]
    exact countValues_abides s (allowed.resolve_right Bool.noConfusion) hr root arg
  | .first arg, allowed => by
    rw [runRule]
    exact firstValue_abides s (allowed.resolve_right Bool.noConfusion) hr root arg
  | .body template free, _ => by
    rw [runRule]
    exact instantiateTemplate_abides root template free
  | .fail, _ => by
    rw [runRule]
    exact rewriteFail_abides root

theorem runBranch_abides (s : L.Searching nested) (hr : r.Abides L) (root : NodeId) (name : String) :
    ∀ branches : Branches, (nested ∨ branches.searches = false) → (runBranch r root name branches).Abides L
  | .otherwise rule, allowed => by
    rw [runBranch]
    exact runRule_abides s hr root rule allowed
  | .alternative n rule rest, allowed => by
    rw [runBranch]
    have both : nested ∨ rule.searches = false ∧ rest.searches = false :=
      allowed.imp_right Bool.or_eq_false_iff.mp
    by_cases same : n = name
    · rw [if_pos same]
      exact runRule_abides s hr root rule (both.imp_right And.left)
    · rw [if_neg same]
      exact runBranch_abides s hr root name rest (both.imp_right And.right)

end

/-! ## Reduction -/

/-- What a head step of this kind does at a node. -/
def runHead (r : Reducer) (i : NodeId) : HeadStep → Eff Unit
  | .none => pure ()
  | .forward => do
    let next ← look (·.successor i 0)
    let _ ← r.head (← look fun _ => next.target)
  | .arithmetic op => stepArithmetic r op i
  | .equals => stepEquals r i
  | .compare => stepCompare r i
  | .choose => stepChoose i
  | .fail => rewriteFail i
  | .unify => stepUnify r i
  | .conjunction => stepConjunction r i
  | .guard => stepGuard r i
  | .strictApply => stepStrictApply r i
  | .ensureNotFree => stepEnsureNotFree r i
  | .apply => stepApply r i
  | .spin => stepSpin
  | .rule rule => runRule r i rule

/-- What a head step does once it is paid for. -/
def headWork (r : Reducer) (i : NodeId) : Eff Unit := do
  runHead r i (← look (·.symbol i)).head

theorem headStep_eq (r : Reducer) (i : NodeId) : headStep r i = tick >>= fun _ => headWork r i := rfl

theorem headNormalize_eq (fuel : Nat) (i : NodeId) : headNormalize (fuel + 1) i = (do
    let i ← look (·.skip i)
    if ← look fun m => isReducible m i then
      headStep (reducer fuel) i
      (reducer fuel).head i
    else
      return i) := by
  rw [headNormalize]
  rfl

/-- What is done with the head normal form of a call. -/
def takeHead (r : Reducer) (j : NodeId) : Eff Unit := do
  match ← look (·.tag j) with
  | .constructor _ => r.normal j
  | .unassigned _ => fault .dangling
  | _ => pure ()

/-- What a step toward normal form does once it is paid for. -/
def normalWork (r : Reducer) (i : NodeId) : Eff Unit := do
  match (← look (·.symbol i)).normal with
  | .none => pure ()
  | .forward =>
    let next ← look (·.successor i 0)
    r.normal (← look fun _ => next.target)
  | .call => do takeHead r (← r.head i)
  | .constructor => normalizeFields r i (← look (·.arity i)) 0

theorem normalize_eq (fuel : Nat) (i : NodeId) :
    normalize (fuel + 1) i = tick >>= fun _ => normalWork (reducer fuel) i := by
  rw [normalize]
  rfl

theorem runHead_abides (s : L.Searching nested) (hr : r.Abides L) (i : NodeId) (h : HeadStep)
    (allowed : nested ∨ h.searches = false) : (runHead r i h).Abides L := by
  cases h with
  | none => exact abides_pure ()
  | forward =>
    exact abides_read (fun _ _ => rfl) fun next =>
      abides_read (fun _ _ => rfl) fun j => (hr.head j).bind
      fun _ => abides_pure ()
  | arithmetic op => exact stepArithmetic_abides hr op i
  | equals => exact stepEquals_abides hr i
  | compare => exact stepCompare_abides hr i
  | choose => exact stepChoose_abides i
  | fail => exact rewriteFail_abides i
  | unify => exact stepUnify_abides hr i
  | conjunction => exact stepConjunction_abides hr i
  | guard => exact stepGuard_abides hr i
  | strictApply => exact stepStrictApply_abides hr i
  | ensureNotFree => exact stepEnsureNotFree_abides hr i
  | apply => exact stepApply_abides hr i
  | spin => exact stepSpin_abides
  | rule rule => exact runRule_abides s hr i rule allowed

theorem headWork_abides (s : L.Searching nested) (hr : r.Abides L) (i : NodeId) :
    (headWork r i).Abides L :=
  s.symbol fun sym allowed => runHead_abides s hr i sym.head allowed

/-- The arguments after one in normal form are normalized, unless that one takes the node over. -/
def passField (r : Reducer) (root : NodeId) (count k : Nat) (j : NodeId) : Eff Unit := do
  match ← look (·.tag j) with
  | .failure => rewriteFail root
  | .choice => pull root k
  | .unassigned _ => fault .dangling
  | _ => normalizeFields r root count (k + 1)

/-- What is done with an argument of a constructor once it is normalized. -/
def takeField (r : Reducer) (root : NodeId) (count k : Nat) (i : NodeId) : Eff Unit := do
  let j ← look (·.skip i)
  if j ≠ i then setSuccessor root k (some j)
  passField r root count k j

theorem passField_abides {count k : Nat} (rest : (normalizeFields r root count (k + 1)).Abides L)
    (j : NodeId) : (passField r root count k j).Abides L := by
  refine abides_read (fun _ _ => rfl) fun tag => ?_
  cases tag with
  | failure => exact rewriteFail_abides root
  | choice => exact pull_abides root k
  | unassigned _ => exact abides_throw _
  | _ => exact rest

theorem takeField_abides {count k : Nat} (rest : (normalizeFields r root count (k + 1)).Abides L)
    (i : NodeId) : (takeField r root count k i).Abides L := by
  refine abides_read (fun _ _ => rfl) fun j => ?_
  dsimp only
  split
  · exact (setSuccessor_abides root k _).bind fun _ => passField_abides rest j
  · exact passField_abides rest j

theorem normalizeFields_abides (hr : r.Abides L) (root : NodeId) (count k : Nat) :
    (normalizeFields r root count k).Abides L := by
  induction count generalizing k with
  | zero => exact abides_pure ()
  | succ count ih =>
    exact abides_read (fun _ _ => rfl) fun l =>
      abides_read (fun _ _ => rfl) fun i => (hr.normal i).bind fun _ =>
      takeField_abides (ih (k + 1)) i

theorem takeHead_abides (hr : r.Abides L) (j : NodeId) : (takeHead r j).Abides L := by
  refine abides_read (fun _ _ => rfl) fun tag => ?_
  cases tag with
  | constructor _ => exact hr.normal j
  | unassigned _ => exact abides_throw _
  | _ => exact abides_pure ()

theorem normalWork_abides (hr : r.Abides L) (i : NodeId) : (normalWork r i).Abides L := by
  refine abides_read (fun _ _ => rfl) fun symbol => ?_
  cases symbol.normal with
  | none => exact abides_pure ()
  | forward => exact abides_read (fun _ _ => rfl) fun next =>
      abides_read (fun _ _ => rfl) fun j => hr.normal j
  | call => exact (hr.head i).bind (takeHead_abides hr)
  | constructor => exact abides_read (fun _ _ => rfl) fun n => normalizeFields_abides hr i n 0

/-- Every reduction keeps to a law that its primitive effects and its searches keep to. -/
theorem reducer_abides (s : L.Searching nested) (fuel : Nat) : (reducer fuel).Abides L := by
  induction fuel with
  | zero => exact ⟨fun _ => abides_throw _, fun _ => abides_throw _⟩
  | succ fuel ih =>
    refine ⟨fun i => ?_, fun i => ?_⟩
    · show (normalize (fuel + 1) i).Abides L
      rw [normalize_eq]
      exact tick_abides.bind fun _ => normalWork_abides ih i
    · show (headNormalize (fuel + 1) i).Abides L
      rw [headNormalize_eq]
      refine abides_read (fun _ _ => rfl) fun j => abides_read (fun _ _ => rfl) fun reducible => ?_
      split
      · exact (tick_abides.bind fun _ => headWork_abides s ih j).bind fun _ => ih.head j
      · exact abides_pure j

end Reduction

end ChoiceGraph
