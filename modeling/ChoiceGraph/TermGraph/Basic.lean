import ChoiceGraph.Graph.Basic
import ChoiceGraph.Symbol.Signature

/-! # Term graphs

A graph whose nodes carry symbols of a signature. The arity of a node is that of its symbol; it
decides how many of the inline links are successors. Nothing here changes the graph.
-/
namespace ChoiceGraph

structure TermGraph where
  signature : Signature
  graph : Graph

/-- The node in a link. -/
def Link.target (l : Link) : Except Fault NodeId :=
  match l with
  | some i => .ok i
  | none => .error .dangling

namespace TermGraph

def node (t : TermGraph) (i : NodeId) : Except Fault Node := t.graph.node i

def skip (t : TermGraph) (i : NodeId) : Except Fault NodeId := t.graph.skip i

def tag (t : TermGraph) (i : NodeId) : Except Fault Tag := return (← t.node i).tag

def aux (t : TermGraph) (i : NodeId) : Except Fault Nat := return (← t.node i).aux

def symbolId (t : TermGraph) (i : NodeId) : Except Fault SymbolId := return (← t.node i).symbol

/-- The symbol of a node, looked up in the signature. -/
def symbol (t : TermGraph) (i : NodeId) : Except Fault Symbol := do
  t.signature.symbol (← t.symbolId i)

def arity (t : TermGraph) (i : NodeId) : Except Fault Nat := return (← t.symbol i).arity

/-- The literal in a node. -/
def literal? (t : TermGraph) (i : NodeId) : Except Fault (Option Literal) :=
  return (← t.node i).slots.literal?

def intValue? (t : TermGraph) (i : NodeId) : Except Fault (Option Int64) := do
  match ← t.literal? (← t.skip i) with
  | some (.int v) => return some v
  | _ => return none

/-- The successors of a node: as many inline links as the arity says, or the whole block. -/
def successors (t : TermGraph) (i : NodeId) : Except Fault (List Link) := do
  let arity ← t.arity i
  match (← t.node i).slots with
  | .inline a b => return [a, b].take arity
  | .pooled b => t.graph.block b
  | .data _ => return []

/-- Successor `k` of a node. There is none at or beyond the arity. -/
def successor (t : TermGraph) (i : NodeId) (k : Nat) : Except Fault Link := do
  if (← t.arity i) ≤ k then throw .dangling
  let links ←
    match (← t.node i).slots with
    | .inline a b => pure [a, b]
    | .pooled b => t.graph.block b
    | .data _ => throw .dangling
  match links[k]? with
  | some l => return l
  | none => throw .dangling

/-- The node at successor `k`, indirections skipped. -/
def successorSkip (t : TermGraph) (i : NodeId) (k : Nat) : Except Fault NodeId := do
  t.skip (← (← t.successor i k).target)

/-- A bound on the length of a path without a circle. -/
def depthBound (t : TermGraph) : Nat := t.graph.capacity + 1

/-- The identifier of a node that is, or was narrowed from, a free variable. -/
def variableOf (t : TermGraph) (i : NodeId) : Except Fault (Option Nat) := do
  let n ← t.node (← t.skip i)
  return if n.symbol = Builtin.free ∨ n.symbol = Builtin.narrowed then some n.aux else none

/-! ## Partial applications -/

/-- The function and the arguments collected so far, seen from the last argument inward. -/
def spineWithin (t : TermGraph) :
    Nat → NodeId → List Link → Except Fault (Option (SymbolId × List Link))
  | 0, _, _ => .error .endless
  | bound + 1, i, args => do
    let n ← t.node i
    if n.symbol = Builtin.partialApplication then
      let arg ← t.successor i 1
      t.spineWithin bound (← t.successorSkip i 0) (arg :: args)
    else if n.symbol = Builtin.function then
      match n.slots with
      | .data (.symbol target) => return some (target, args)
      | _ => return none
    else
      return none

/-- The function that a partial application applies, and the arguments it has, in order. -/
def partialSpine (t : TermGraph) (i : NodeId) :
    Except Fault (Option (SymbolId × List Link)) := do
  t.spineWithin t.depthBound (← t.skip i) []

end TermGraph

end ChoiceGraph
