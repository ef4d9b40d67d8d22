import ChoiceGraph.Config

/-! # Errors and interrupts

Three kinds of stop are kept apart. An `Error` is fatal and reported to the caller. A `Fault` is
an access that no well-formed graph makes. A `Stop` is whatever ends a reduction before its
rewrite is done: an interrupt, an error, a fault, or a bound of this library that ran out.
-/
namespace ChoiceGraph

inductive Error
  | exhausted (requested live capacity : Nat)
  | arityOutOfRange (arity bound : Nat)
  | unknownSymbol (symbol : Nat)
  | invalidConfig (fault : ConfigFault)
  deriving DecidableEq

def Error.message : Error → String
  | exhausted requested live capacity =>
    s!"node pool exhausted: requested {requested} slots with {live} live of {capacity}"
  | arityOutOfRange arity bound =>
    s!"arity {arity} is outside the pooled range (bound {bound})"
  | unknownSymbol symbol => s!"no operation table registered for OpsId({symbol})"
  | invalidConfig fault => s!"invalid configuration: {fault.message}"

/-- An access that no well-formed acyclic graph makes. -/
inductive Fault
  /-- An empty link, or an index outside its table, was followed. -/
  | dangling
  /-- A path was longer than the graph is large, so it runs in a circle. -/
  | endless
  deriving DecidableEq

/-- Why a reduction stopped before finishing its rewrite. -/
inductive Stop
  /-- The slice of the frame in front ran out. -/
  | preempted
  /-- A strict position holds a variable that nothing has bound yet. -/
  | suspended (variable_ : Nat)
  | fatal (error : Error)
  | fault (fault : Fault)
  /-- A rule or a term mentions something that does not exist. -/
  | refused
  /-- The nesting bound given to the reducer ran out; a larger bound may go on. -/
  | outOfFuel
  deriving DecidableEq

end ChoiceGraph
