import ChoiceGraph.Machine.Heap

/-! # Pulling a choice above a node

A node that needs the value of a choice is copied, once for each alternative, and the choice is
put above the two copies under its own identifier. Everything else the node points at is shared
by the copies.
-/
namespace ChoiceGraph.Reduction

open Eff

/-- Allocates nodes while the node that is being worked on stays rooted. -/
def allocateBeside (root : NodeId) (n : Nat) : Eff (List NodeId) :=
  withRoots [some root] (allocate n)

/-- Turns `f(.., l ?c r, ..)` into `f(.., l, ..) ?c f(.., r, ..)`, in place. -/
def pullTab (root : NodeId) (k : Nat) : Eff Unit := do
  match ← allocateBeside root 2 with
  | [left, right] =>
    let choice ← look fun m => m.successorSkip root k
    let c ← look (·.node choice)
    let l ← look (·.successor choice 0)
    let r ← look (·.successor choice 1)
    let node ← look (·.node root)
    let links ← look (·.successors root)
    rewrite left node.tag node.symbol node.aux (links.set k l)
    rewrite right node.tag node.symbol node.aux (links.set k r)
    rewrite root .choice c.symbol c.aux [some left, some right]
  | _ => fault .dangling

end ChoiceGraph.Reduction
