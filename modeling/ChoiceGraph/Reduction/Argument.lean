import ChoiceGraph.Reduction.Narrowing

/-! # Forcing arguments

A step needs some arguments of its node in head normal form, or in normal form. A failure or a
choice found there takes over the whole node: the node fails, or the choice is pulled above it. A
variable is narrowed first; one without a type suspends the step. How to reduce another node is
given from outside.
-/
namespace ChoiceGraph.Reduction

open Eff

/-- The reductions a step may call on other nodes, and how many turns a search of its own may
take. -/
structure Reducer where
  normal : NodeId → Eff Unit
  head : NodeId → Eff NodeId
  turns : Nat

/-- What became of a forced argument. -/
inductive Argument
  | value (node : NodeId)
  /-- The node itself was rewritten to a failure or a choice. -/
  | taken

/-- Charges one step to the frame in front, or stops if it has none left. -/
def tick : Eff Unit := fun m =>
  if m.slice.isOver then .error .preempted m else .ok () { m with slice := m.slice.spend }

/-- Acts on what successor `k` of a node was reduced to. -/
def settle (root : NodeId) (k : Nat) (arg : NodeId) : Eff Argument := do
  match ← look (·.tag arg) with
  | .failure =>
    rewriteFail root
    return .taken
  | .choice =>
    pull root k
    return .taken
  | .free => throw (.suspended (← look (·.aux arg)))
  | .operation => return .value arg
  | .constructor _ => return .value arg
  | .forward => fault .dangling
  | .unassigned _ => fault .dangling

/-- Brings successor `k` of a node into head normal form. -/
def headArg (r : Reducer) (root : NodeId) (k : Nat) : Eff Argument := do
  let link ← look (·.successor root k)
  let arg ← r.head (← look fun _ => link.target)
  if link ≠ some arg then setSuccessor root k (some arg)
  if (← look (·.tag arg)) = .free then narrow arg
  settle root k (← look (·.skip arg))

/-- Brings successor `k` of a node into normal form. -/
def normalArg (r : Reducer) (root : NodeId) (k : Nat) : Eff Argument := do
  match ← headArg r root k with
  | .taken => return .taken
  | .value arg =>
    r.normal arg
    settle root k (← look (·.skip arg))

/-- Goes on with the value of successor `k` in head normal form, if the node is not taken over. -/
def withHead (r : Reducer) (root : NodeId) (k : Nat) (body : NodeId → Eff Unit) : Eff Unit := do
  match ← headArg r root k with
  | .taken => pure ()
  | .value arg => body arg

/-- Goes on with the value of successor `k` in normal form, if the node is not taken over. -/
def withNormal (r : Reducer) (root : NodeId) (k : Nat) (body : NodeId → Eff Unit) : Eff Unit := do
  match ← normalArg r root k with
  | .taken => pure ()
  | .value arg => body arg

end ChoiceGraph.Reduction
