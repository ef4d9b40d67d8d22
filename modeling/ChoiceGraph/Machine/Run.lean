import ChoiceGraph.Reduction.Reduce
import ChoiceGraph.TermGraph.Show

/-! # Running a machine

The operations on a whole machine. Reduction outside a search keeps its node rooted, pulls choices
up to it and does not explore them; a search explores them. All take a bound on how deep
reductions may nest.
-/
namespace ChoiceGraph.Machine

open Eff

/-- Drives a node to normal form in place. -/
def normalize (fuel : Nat) (i : NodeId) : Eff Unit :=
  withRoots [some i] (Reduction.normalize fuel i)

/-- Drives a node to head normal form in place; the node it led to. -/
def headNormalize (fuel : Nat) (i : NodeId) : Eff NodeId :=
  withRoots [some i] (Reduction.headNormalize fuel i)

/-- One head step at a node that nothing roots. -/
def headStep (fuel : Nat) (i : NodeId) : Eff Unit :=
  Reduction.headStep (Reduction.reducer fuel) i

def headArg (fuel : Nat) (root : NodeId) (k : Nat) : Eff Reduction.Argument :=
  withRoots [some root] (Reduction.headArg (Reduction.reducer fuel) root k)

def normalArg (fuel : Nat) (root : NodeId) (k : Nat) : Eff Reduction.Argument :=
  withRoots [some root] (Reduction.normalArg (Reduction.reducer fuel) root k)

/-- Enumerates the values of a node. -/
def evaluate {σ : Type} (fuel : Nat) (visit : Schedule.Visitor σ) (root : NodeId) (s : σ)
    (m : Machine) : Schedule.Found σ :=
  Schedule.search (Reduction.normalize fuel) fuel visit (some root) s m

/-- The texts of all values of a node. -/
def values (fuel : Nat) (root : NodeId) : Eff (List String) := do
  let visit : Schedule.Visitor (List String) := fun m i texts => do
    return (texts ++ [← m.showTerm i], .more)
  return (← Schedule.gather (Reduction.normalize fuel) fuel visit (some root) []).1

/-- Nodes reachable through stored links from the pending ones, each when it is first taken. -/
def reachableFrom (g : Graph) : Nat → List NodeId → List NodeId → Except Fault (List NodeId)
  | 0, found, _ => .ok found.reverse
  | rounds + 1, found, pending =>
    match pending.dropWhile (· ∈ found) with
    | [] => .ok found.reverse
    | i :: rest => do
      let links ← g.storedSuccessors i
      if links.any Option.isNone then throw .dangling
      reachableFrom g rounds (i :: found) (links.filterMap (fun l => l) ++ rest)

/-- Everything below a node, in depth-first order. -/
def reachable (m : Machine) (i : NodeId) : Except Fault (List NodeId) :=
  reachableFrom m.graph m.depthBound [] [i]

end ChoiceGraph.Machine
