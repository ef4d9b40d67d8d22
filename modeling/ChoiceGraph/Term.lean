import ChoiceGraph.Reduction.RuleStep

/-! # Terms

A term is a description of a graph to build: literals, applications, choices, and names of nodes
that exist already. Building goes from left to right; what has been built for one application
stays rooted until the application itself is there. A term that means nothing is refused when it
is reached, not before.
-/
namespace ChoiceGraph

inductive Term
  | int (value : Int64)
  | float (value : Double)
  | char (value : Char)
  | var (name : String)
  | free (type : Option TypeId)
  | fail
  | functionValue (symbol : SymbolRef)
  | forward (target : Term)
  | choice (left right : Term)
  | app (symbol : SymbolRef) (args : List Term)
  /-- No term. -/
  | malformed

instance : Inhabited Term := ⟨.malformed⟩

namespace Term

open Eff

/-- The symbol of an application with this many arguments. -/
def resolveFor (symbol : SymbolRef) (args : Nat) : Eff SymbolId := do
  let id ← Reduction.resolve symbol
  if (← look fun m => m.signature.symbol id).arity = args then return id else throw .refused

mutual

/-- Builds a term; names are looked up in `env`. -/
def build (env : String → Option Link) : Term → Eff Link
  | .int v => return some (← makeInt v)
  | .float v => return some (← makeFloat v)
  | .char c => return some (← makeChar c)
  | .var name =>
    match env name with
    | some l => pure l
    | none => throw .refused
  | .free type => return some (← makeFree type)
  | .fail => return some (← makeFail)
  | .functionValue symbol => do return some (← makeFunctionValue (← Reduction.resolve symbol))
  | .forward target => do
    let l ← build env target
    withRoots [l] do return some (← makeForward l)
  | .choice left right => do
    let l ← build env left
    withRoots [l] do
      let r ← build env right
      withRoots [r] do return some (← makeChoice l r)
  | .app symbol args => do
    let id ← resolveFor symbol args.length
    buildAll env args fun links => do return some (← make id links)
  | .malformed => throw .refused

/-- Builds terms from left to right and goes on while all of them are rooted. -/
def buildAll (env : String → Option Link) : List Term → (List Link → Eff Link) → Eff Link
  | [], body => body []
  | t :: ts, body => do
    let l ← build env t
    withRoots [l] (buildAll env ts fun ls => body (l :: ls))

end

end Term

end ChoiceGraph
