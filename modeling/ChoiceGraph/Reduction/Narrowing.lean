import ChoiceGraph.Reduction.PullTab

/-! # Narrowing

A free variable of a data type becomes, in place, a choice between the constructors of its type,
each applied to fresh variables: its generator. The outermost choice carries the identifier of
the variable and the symbol of narrowed variables, the inner ones are ordinary choices, nested to
the right. A single constructor needs no choice and none at all is a failure. Variables that are
bound to each other are narrowed together, and their generators are tied choice by choice and
bound field by field.
-/
namespace ChoiceGraph.Reduction

open Eff

/-- Binds two variables in the frame being reduced; there may be none. -/
def bindVars (x y : NodeId) (isLazy : Bool) : Eff Bool := do
  let from_ : BoundVar := ⟨← look (·.aux x), x⟩
  let to_ : BoundVar := ⟨← look (·.aux y), y⟩
  if (← get).front?.isSome then
    modify fun m => m.mapInnermost fun c => c.updateConstraints 0 fun s => s.bind from_ to_ isLazy
    return true
  else
    return false

/-- Makes each node a fresh variable of no type. -/
def makeFields : List NodeId → Eff Unit
  | [] => pure ()
  | i :: rest => do
    rewriteFree i (← freshId) none
    makeFields rest

/-- Builds the constructors applied to fresh variables, out of allocated nodes; the alternatives
and the nodes that are left. -/
def buildAlternatives : List (SymbolId × Nat) → List NodeId → Eff (List NodeId × List NodeId)
  | [], fresh => pure ([], fresh)
  | _ :: _, [] => fault .dangling
  | (symbol, arity) :: rest, node :: fresh => do
    let fields := fresh.take arity
    makeFields fields
    rewriteTo node symbol (fields.map some)
    let (alternatives, fresh) ← buildAlternatives rest (fresh.drop arity)
    return (node :: alternatives, fresh)

/-- Nests alternatives to the right under fresh choices; the last one stands alone. -/
def nestChoices : List NodeId → List NodeId → Eff (NodeId × List NodeId)
  | [], _ => fault .dangling
  | [last], fresh => pure (last, fresh)
  | alternative :: rest, fresh => do
    let (below, fresh) ← nestChoices rest fresh
    match fresh with
    | [] => fault .dangling
    | node :: fresh =>
      let id ← freshId
      rewrite node .choice Builtin.choice id [some alternative, some below]
      return (node, fresh)

/-- The constructors of a type with their arities. -/
def constructorsOf (m : Machine) (type : TypeId) : Except Fault (List (SymbolId × Nat)) := do
  (← m.signature.dataType type).constructors.mapM fun c => do
    return (c, (← m.signature.symbol c).arity)

/-- The fields of all constructors together. -/
def fieldCount : List (SymbolId × Nat) → Nat
  | [] => 0
  | (_, arity) :: rest => arity + fieldCount rest

/-- One node for each constructor and each field, and the inner choices. -/
def generatorSize (constructors : List (SymbolId × Nat)) : Nat :=
  constructors.length + fieldCount constructors + (constructors.length - 2)

/-- Builds the generator of a variable in its place; the number of its constructors. A variable of
no type suspends. -/
def instantiate (var : NodeId) : Eff Nat := do
  let id ← look (·.aux var)
  match ← look (·.literal? var) with
  | some (.type type) =>
    let constructors ← look fun m => constructorsOf m type
    if constructors.isEmpty then
      rewriteFail var
    else
      let fresh ← allocateBeside var (generatorSize constructors)
      let (alternatives, fresh) ← buildAlternatives constructors fresh
      match alternatives with
      | [] => fault .dangling
      | [only] => rewriteForward var (some only)
      | first :: rest =>
        let (below, _) ← nestChoices rest fresh
        rewrite var .choice Builtin.narrowed id [some first, some below]
    return constructors.length
  | _ => throw (.suspended id)

/-! ## Tying bound variables -/

/-- What a narrowed variable chooses from: the inner choices and the alternatives, in order. -/
structure Generator where
  choices : List ChoiceId
  alternatives : List NodeId

namespace Generator

/-- The part of a generator below its outermost choice. -/
def tailWithin (t : TermGraph) : Nat → NodeId → Except Fault Generator
  | 0, _ => .error .endless
  | bound + 1, i => do
    let n ← t.node i
    if n.symbol = Builtin.choice then
      let alternative ← t.successorSkip i 0
      let below ← tailWithin t bound (← t.successorSkip i 1)
      return ⟨n.aux :: below.choices, alternative :: below.alternatives⟩
    else
      match n.tag with
      | .constructor _ => return ⟨[], [i]⟩
      | .unassigned _ => throw .dangling
      | _ => return ⟨[], []⟩

/-- Reads the generator of a variable back; of one that is not narrowed there is none. -/
def ofVar (t : TermGraph) (var : NodeId) : Except Fault Generator := do
  let i ← t.skip var
  if (← t.symbolId i) = Builtin.narrowed then
    let first ← t.successorSkip i 0
    let below ← tailWithin t t.depthBound (← t.successorSkip i 1)
    return ⟨below.choices, first :: below.alternatives⟩
  else
    match ← t.tag i with
    | .constructor _ => return ⟨[], [i]⟩
    | .unassigned _ => throw .dangling
    | _ => return ⟨[], []⟩

/-- Both have the same symbols in the same places. -/
def sameShape (t : TermGraph) (a b : Generator) : Except Fault Bool := do
  if a.alternatives.length = b.alternatives.length ∧ a.choices.length = b.choices.length then
    return (← a.alternatives.mapM t.symbolId) = (← b.alternatives.mapM t.symbolId)
  else
    return false

/-- Two fields, if both are variables. -/
def fieldPair? (t : TermGraph) (x y : Link) : Except Fault (Option (BoundVar × BoundVar)) := do
  let a ← x.target
  let b ← y.target
  match ← t.variableOf a, ← t.variableOf b with
  | some i, some j => return some (BoundVar.mk i a, BoundVar.mk j b)
  | _, _ => return none

/-- The fields of two alternatives that are variables on both sides. -/
def fieldPairs (t : TermGraph) (x y : NodeId) : Except Fault (List (BoundVar × BoundVar)) := do
  let pairs ← ((← t.successors x).zip (← t.successors y)).mapM fun p => fieldPair? t p.1 p.2
  return pairs.filterMap fun p => p

/-- The fields of all alternatives that are variables on both sides. -/
def allFieldPairs (t : TermGraph) (a b : Generator) :
    Except Fault (List (BoundVar × BoundVar)) := do
  return (← (a.alternatives.zip b.alternatives).mapM fun p => fieldPairs t p.1 p.2).flatten

end Generator

/-- What linking two variables adds to a store: a tie for the variables, one for each place of
their generators, and a binding for each pair of fields. -/
def linkConstraints (x y : BoundVar) (a b : Generator) (fields : List (BoundVar × BoundVar))
    (s : ConstraintStore) : ConstraintStore :=
  let s := s.tie x.id y.id
  let s := (a.choices.zip b.choices).foldl (fun s (c, d) => s.tie c d) s
  fields.foldl (fun s (u, v) => s.bind u v false) s

/-- Ties two narrowed variables together, unless they are tied or their generators differ. -/
def link (x y : BoundVar) : Eff Unit := do
  match (← get).frontConstraints? with
  | none => pure ()
  | some store =>
    if store.Tied x.id y.id then
      pure ()
    else
      let a ← look fun m => Generator.ofVar m.toTermGraph x.node
      let b ← look fun m => Generator.ofVar m.toTermGraph y.node
      if ← look fun m => Generator.sameShape m.toTermGraph a b then
        let fields ← look fun m => Generator.allFieldPairs m.toTermGraph a b
        modify fun m => m.mapInnermost fun c => c.updateConstraints 0 (linkConstraints x y a b fields)

/-- Instantiates the variable at one end of a binding, if it still is one and has a type. -/
def instantiateEnd (i : NodeId) : Eff Unit := do
  let i ← look (·.skip i)
  if (← look (·.tag i)) = .free ∧ (← look (·.literal? i)).isSome then
    let _ ← instantiate i

def linkPairs : List (BoundVar × BoundVar) → Eff Unit
  | [] => pure ()
  | (x, y) :: rest => do
    instantiateEnd x.node
    instantiateEnd y.node
    link x y
    linkPairs rest

/-- Narrows every variable bound to `var` in the frame being reduced, and ties them together. -/
def bindGenerators (var : VarId) : Eff Unit := do
  match (← get).frontConstraints? with
  | none => pure ()
  | some store => linkPairs (← look fun m => store.boundPairs var m.variableOf)

/-- Narrows a variable. A single constructor decides nothing later on, so the variables bound to
this one are narrowed right away. -/
def narrow (var : NodeId) : Eff Unit := do
  let id ← look (·.aux var)
  if (← instantiate var) = 1 then
    bindGenerators id

/-- Pulls the choice of a narrowed variable, and narrows the variables bound to it. -/
def pullBind (root : NodeId) (k : Nat) : Eff Unit := do
  let choice ← look fun m => m.successorSkip root k
  let var ← look (·.aux choice)
  pullTab root k
  bindGenerators var

/-- Pulls the choice at successor `k` above a node. -/
def pull (root : NodeId) (k : Nat) : Eff Unit := do
  let choice ← look fun m => m.successorSkip root k
  if (← look (·.symbolId choice)) = Builtin.narrowed then pullBind root k else pullTab root k

/-- The variables bound to `var`, directly or not, in the frame being reduced: in order of their
nodes, without `var` itself. -/
def boundVariables (m : Machine) (var : NodeId) : Except Fault (List NodeId) := do
  let id? ← m.variableOf var
  match m.frontConstraints?, id? with
  | some store, some id =>
    let pairs ← store.boundPairs id m.variableOf
    let nodes := (pairs.map fun p => p.2.node).filter (· ≠ var)
    return (nodes.mergeSort (fun a b => a ≤ b)).eraseDups
  | _, _ => return []

end ChoiceGraph.Reduction
