import ChoiceGraph.Number.Floored
import ChoiceGraph.Reduction.Argument
import ChoiceGraph.TermGraph.Order

/-! # Head steps of the prelude

Each step forces the arguments its function is strict in, from left to right, and then rewrites
the call in place.
-/
namespace ChoiceGraph

/-- Sums, differences and products wrap; a quotient or remainder may be undefined. -/
def Arithmetic.apply : Arithmetic → Int64 → Int64 → Option Int64
  | add, a, b => some (a + b)
  | sub, a, b => some (a - b)
  | mul, a, b => some (a * b)
  | div, a, b => Floored.quotient? a b
  | mod, a, b => Floored.remainder? a b

namespace Reduction

open Eff

def stepArithmetic (r : Reducer) (op : Arithmetic) (root : NodeId) : Eff Unit :=
  withHead r root 0 fun x => withHead r root 1 fun y => do
    match ← look (·.literal? x), ← look (·.literal? y) with
    | some (.int a), some (.int b) =>
      match op.apply a b with
      | some v => rewriteInt root v
      | none => rewriteFail root
    | _, _ => rewriteFail root

def stepEquals (r : Reducer) (root : NodeId) : Eff Unit :=
  withNormal r root 0 fun x => withNormal r root 1 fun y => do
    let same ← look (·.equals x y)
    rewriteTo root (if same then Prelude.standard.true_ else Prelude.standard.false_) []

def stepCompare (r : Reducer) (root : NodeId) : Eff Unit :=
  withNormal r root 0 fun x => withNormal r root 1 fun y => do
    let symbol :=
      match ← look (·.order x y) with
      | .lt => Prelude.standard.lt
      | .eq => Prelude.standard.eq
      | .gt => Prelude.standard.gt
    rewriteTo root symbol []

/-- A call of the choice function becomes a choice of its arguments. -/
def stepChoose (root : NodeId) : Eff Unit := do
  let left ← look (·.successor root 0)
  let right ← look (·.successor root 1)
  let id ← freshId
  rewrite root .choice Builtin.choice id [left, right]

def succeed (root : NodeId) : Eff Unit := rewriteTo root Prelude.standard.success []

/-- Rewrites each node to a unification of one pair. -/
def unifyPairs : List NodeId → List (Link × Link) → Eff Unit
  | node :: nodes, (x, y) :: pairs => do
    rewriteTo node Prelude.standard.unify [x, y]
    unifyPairs nodes pairs
  | _, _ => pure ()

/-- Joins nodes by conjunctions nested to the right, the last conjunction first. -/
def conjoin : List NodeId → List NodeId → Eff NodeId
  | [], _ => fault .dangling
  | [last], _ => pure last
  | _ :: _, [] => fault .dangling
  | node :: rest, conjunction :: conjunctions => do
    let below ← conjoin rest conjunctions
    rewriteTo conjunction Prelude.standard.conjunction [some node, some below]
    return conjunction

/-- One unification for each pair of successors, and the conjunctions that join them. -/
def unifySuccessors (root : NodeId) (pairs : List (Link × Link)) : Eff Unit := do
  let n := pairs.length
  let fresh ← allocateBeside root (2 * n - 1)
  unifyPairs (fresh.take n) pairs
  rewriteForward root (some (← conjoin (fresh.take n) (fresh.drop n)))

/-- Unifies two head normal forms. -/
def unifyHeads (root x y : NodeId) : Eff Unit := do
  let a ← look (·.node x)
  let b ← look (·.node y)
  if a.symbol ≠ b.symbol then rewriteFail root
  else if (← look (·.symbol x)).kind = .partialApplication then rewriteFail root
  else
    match a.slots.literal?, b.slots.literal? with
    | some v, some w => if v.same w then succeed root else rewriteFail root
    | _, _ =>
      let xs ← look (·.successors x)
      let ys ← look (·.successors y)
      if xs.isEmpty then succeed root
      else if xs.length ≤ ys.length then unifySuccessors root (xs.zip ys)
      else fault .dangling

/-- Two variables are bound to each other; anything else is unified by its constructors. -/
def stepUnify (r : Reducer) (root : NodeId) : Eff Unit := do
  let a ← look fun m => m.successorSkip root 0
  let b ← look fun m => m.successorSkip root 1
  if (← look (·.tag a)) = .free ∧ (← look (·.tag b)) = .free then
    if (← look (·.aux a)) ≠ (← look (·.aux b)) then
      let _ ← bindVars a b false
    succeed root
  else
    withHead r root 0 fun x => withHead r root 1 fun y => unifyHeads root x y

def stepConjunction (r : Reducer) (root : NodeId) : Eff Unit :=
  withHead r root 0 fun _ => withHead r root 1 fun _ => succeed root

/-- The second argument, once the first is in head normal form. -/
def stepGuard (r : Reducer) (root : NodeId) : Eff Unit :=
  withHead r root 0 fun _ => do
    rewriteForward root (← look (·.successor root 1))

def stepEnsureNotFree (r : Reducer) (root : NodeId) : Eff Unit :=
  withHead r root 0 fun x => rewriteForward root (some x)

/-- An application of the first argument, once the second is in head normal form. -/
def stepStrictApply (r : Reducer) (root : NodeId) : Eff Unit :=
  withHead r root 1 fun _ => do
    let f ← look (·.successor root 0)
    let x ← look (·.successor root 1)
    rewriteTo root Prelude.standard.apply [f, x]

/-- Gives a partial application one more argument; with the last one it becomes a call. -/
def stepApply (r : Reducer) (root : NodeId) : Eff Unit :=
  withHead r root 0 fun f => do
    let x ← look (·.successor root 1)
    let missing ← look (·.aux f)
    if (← look (·.symbol f)).kind ≠ .partialApplication ∨ missing = 0 then
      rewriteFail root
    else if 1 < missing then
      rewrite root .operation Builtin.partialApplication (missing - 1) [some f, x]
    else
      match ← look (·.partialSpine f) with
      | none => rewriteFail root
      | some (target, args) => rewriteTo root target (args ++ [x])

/-- Never reaches a value; it allocates, so that it also runs the collector. -/
def stepSpin : Eff Unit := do
  let _ ← makeInt 0

end Reduction

end ChoiceGraph
