import ChoiceGraph.Reduction.PreludeStep
import ChoiceGraph.Reduction.RuleStep

/-! # Reduction

Two reductions call each other. One drives a node to normal form, successors included; the other
drives it to head normal form, in place, and returns the node it led to. Each dispatch of a step
is charged to the frame in front and may be refused, always before the step has changed anything.
The number given first bounds how deep the calls may nest; running out of it is an outcome of its
own.
-/
namespace ChoiceGraph.Reduction

open Eff

/-- One head step of a call. -/
def headStep (r : Reducer) (i : NodeId) : Eff Unit := do
  tick
  match (← look (·.symbol i)).head with
  | .none => pure ()
  | .forward =>
    let next ← look (·.successor i 0)
    let _ ← r.head (← look fun _ => next.target)
  | .arithmetic op => stepArithmetic r op i
  | .equals => stepEquals r i
  | .compare => stepCompare r i
  | .choose => stepChoose i
  | .fail => rewriteFail i
  | .unify => stepUnify r i
  | .conjunction => stepConjunction r i
  | .guard => stepGuard r i
  | .strictApply => stepStrictApply r i
  | .ensureNotFree => stepEnsureNotFree r i
  | .apply => stepApply r i
  | .spin => stepSpin
  | .rule rule => runRule r i rule

/-- A call that is no partial application still has to be reduced. -/
def isReducible (m : Machine) (i : NodeId) : Except Fault Bool := do
  if (← m.tag i) ≠ .operation then return false
  return (← m.symbol i).kind ≠ .partialApplication

/-- Normalizes `count` successors from `k` on, from left to right. A failing one fails the node, a
choice is pulled above it, and either ends the work on the node. -/
def normalizeFields (r : Reducer) (root : NodeId) : Nat → Nat → Eff Unit
  | 0, _ => pure ()
  | count + 1, k => do
    let link ← look (·.successor root k)
    let i ← look fun _ => link.target
    r.normal i
    let j ← look (·.skip i)
    if j ≠ i then setSuccessor root k (some j)
    match ← look (·.tag j) with
    | .failure => rewriteFail root
    | .choice => pull root k
    | .unassigned _ => fault .dangling
    | _ => normalizeFields r root count (k + 1)

/-- One step toward normal form. -/
def normalStep (r : Reducer) (i : NodeId) : Eff Unit := do
  tick
  match (← look (·.symbol i)).normal with
  | .none => pure ()
  | .forward =>
    let next ← look (·.successor i 0)
    r.normal (← look fun _ => next.target)
  | .call =>
    let j ← r.head i
    match ← look (·.tag j) with
    | .constructor _ => r.normal j
    | .unassigned _ => fault .dangling
    | _ => pure ()
  | .constructor => normalizeFields r i (← look (·.arity i)) 0

mutual

/-- Drives a node to normal form. -/
def normalize : Nat → NodeId → Eff Unit
  | 0, _ => throw .outOfFuel
  | fuel + 1, i => normalStep ⟨normalize fuel, headNormalize fuel, fuel⟩ i

/-- Drives a node to head normal form; the node it led to. -/
def headNormalize : Nat → NodeId → Eff NodeId
  | 0, _ => throw .outOfFuel
  | fuel + 1, i => do
    let i ← look (·.skip i)
    if ← look fun m => isReducible m i then
      headStep ⟨normalize fuel, headNormalize fuel, fuel⟩ i
      headNormalize fuel i
    else
      return i

end

/-- The reducer whose calls nest at most `fuel` deep. -/
def reducer (fuel : Nat) : Reducer := ⟨normalize fuel, headNormalize fuel, fuel⟩

end ChoiceGraph.Reduction
