import ChoiceGraph.Reduction.Argument
import ChoiceGraph.Schedule.Search

/-! # Head steps of defined functions

A rule runs on the call node. Its template is instantiated in place: all the nodes it needs are
allocated in one request while the call and the fresh variables stay rooted, and are then taken
in the order in which the template mentions them; the call itself is written last.
-/
namespace ChoiceGraph.Reduction

open Eff

/-- The symbol that is meant; a rule that means none is refused. -/
def resolve (r : SymbolRef) : Eff SymbolId := do
  match (← get).signature.resolve? r with
  | some id => return id
  | none => throw .refused

/-- Goes down from a link along successors, indirections skipped. -/
def follow (t : TermGraph) (l : Link) : List Nat → Except Fault Link
  | [] => .ok l
  | k :: rest => do
    follow t (← t.successor (← t.skip (← l.target)) k) rest

/-- What a path of a template leads to. -/
def pathTarget (root : NodeId) (first : Nat) (rest : List Nat) : Eff Link :=
  look fun m => do follow m.toTermGraph (← m.successor root first) rest

def freshVariable (vars : List NodeId) (index : Nat) : Eff Link :=
  match vars[index]? with
  | some v => pure (some v)
  | none => fault .dangling

mutual

/-- Writes a literal or a call to node `i`, taking further nodes from `fresh`; the nodes left. A
path or a variable becomes an indirection. -/
def writeTemplate (root : NodeId) (vars : List NodeId) :
    Template → NodeId → List NodeId → Eff (List NodeId)
  | .int v, i, fresh => do
    rewriteInt i v
    return fresh
  | .path first rest, i, fresh => do
    rewriteForward i (← pathTarget root first rest)
    return fresh
  | .fresh index, i, fresh => do
    rewriteForward i (← freshVariable vars index)
    return fresh
  | .app symbol args, i, fresh => do
    let (links, fresh) ← writeArgs root vars args fresh
    rewriteTo i (← resolve symbol) links
    return fresh

/-- The links for the arguments of a call, from left to right; paths and variables need no node. -/
def writeArgs (root : NodeId) (vars : List NodeId) :
    List Template → List NodeId → Eff (List Link × List NodeId)
  | [], fresh => return ([], fresh)
  | .path first rest :: args, fresh => do
    let l ← pathTarget root first rest
    let (ls, fresh) ← writeArgs root vars args fresh
    return (l :: ls, fresh)
  | .fresh index :: args, fresh => do
    let l ← freshVariable vars index
    let (ls, fresh) ← writeArgs root vars args fresh
    return (l :: ls, fresh)
  | _ :: _, [] => fault .dangling
  | arg :: args, i :: fresh => do
    let fresh ← writeTemplate root vars arg i fresh
    let (ls, fresh) ← writeArgs root vars args fresh
    return (some i :: ls, fresh)

end

/-- Makes fresh variables of the given types and goes on while they stay rooted. -/
def withFreshVariables {α : Type} :
    List (Option TypeId) → (List NodeId → Eff α) → Eff α
  | [], body => body []
  | type :: types, body => do
    let v ← makeFree type
    withRoots [some v] (withFreshVariables types fun vs => body (v :: vs))

/-- Instantiates a template in place of the call. -/
def instantiateTemplate (root : NodeId) (template : Template) (free : List (Option TypeId)) :
    Eff Unit := do
  let (vars, fresh) ← withRoots [some root] (withFreshVariables free fun vars => do
    return (vars, ← allocate template.innerSize))
  let _ ← writeTemplate root vars template root fresh

/-- Binds two arguments of the call if both are variables. -/
def bindArgs (root : NodeId) (x y : Nat) (isLazy : Bool) : Eff Unit := do
  let a ← look fun m => m.successorSkip root x
  let b ← look fun m => m.successorSkip root y
  if (← look (·.tag a)) = .free ∧ (← look (·.tag b)) = .free then
    let _ ← bindVars a b isLazy

/-- The number of values of an argument takes the place of the call. -/
def countValues (r : Reducer) (root : NodeId) (arg : Nat) : Eff Unit := do
  let l ← look (·.successor root arg)
  let (n, _) ← Schedule.gather r.normal r.turns (fun _ _ n => .ok (n + 1, .more)) l 0
  rewriteInt root (Int64.ofInt (n : Nat))

/-- The first value of an argument takes the place of the call, or a failure if there is none. -/
def firstValue (r : Reducer) (root : NodeId) (arg : Nat) : Eff Unit := do
  let l ← look (·.successor root arg)
  let (value, _) ← Schedule.gather r.normal r.turns (fun _ i _ => .ok (some i, .enough)) l none
  match value with
  | some i => rewriteForward root (some i)
  | none => rewriteFail root

mutual

/-- Runs a rule on a call. -/
def runRule (r : Reducer) (root : NodeId) : Rule → Eff Unit
  | .force arg next => withHead r root arg fun _ => runRule r root next
  | .normal arg next => withNormal r root arg fun _ => runRule r root next
  | .branch arg branches => withHead r root arg fun i => do
    runBranch r root (← look (·.symbol i)).name branches
  | .bind x y isLazy next => do
    bindArgs root x y isLazy
    runRule r root next
  | .count arg => countValues r root arg
  | .first arg => firstValue r root arg
  | .body template free => instantiateTemplate root template free
  | .fail => rewriteFail root

/-- Runs the alternative for a symbol of this name. -/
def runBranch (r : Reducer) (root : NodeId) (name : String) : Branches → Eff Unit
  | .otherwise rule => runRule r root rule
  | .alternative n rule rest =>
    if n = name then runRule r root rule else runBranch r root name rest

end

end ChoiceGraph.Reduction
