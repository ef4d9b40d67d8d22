import ChoiceGraph.Graph.Basic

/-! # The collector

Marking follows links from the roots, each slot once. Sweeping goes through the slots from the
highest down: an unmarked one gives back its block, becomes a placeholder and joins the free
list, so that the lowest free slot is handed out first.
-/
namespace ChoiceGraph.Graph

/-- Marks what the pending slots lead to. One round marks one slot, so that as many rounds as there
are slots, and one more to find nothing pending, are enough. -/
def markFrom (g : Graph) : Nat → Array Bool → List NodeId → Except Fault (Array Bool)
  | 0, marks, _ => .ok marks
  | rounds + 1, marks, pending =>
    match pending.dropWhile (fun i => marks[i]? == some true) with
    | [] => .ok marks
    | i :: rest => do
      let links ← g.storedSuccessors i
      if links.any Option.isNone then throw .dangling
      g.markFrom rounds (marks.setIfInBounds i true) (links.filterMap id ++ rest)

/-- The slots reachable from the non-empty roots. -/
def marked (g : Graph) (roots : List Link) : Except Fault (Array Bool) :=
  g.markFrom (g.capacity + 1) (Array.replicate g.capacity false) (roots.filterMap id)

/-- Gives back slot `i` and the block it may own. -/
def reclaim (g : Graph) (i : NodeId) : Except Fault Graph := do
  let released ←
    match (← g.node i).slots with
    | .pooled b =>
      match g.releaseBlock? b with
      | some g => pure g
      | none => throw .dangling
    | _ => pure g
  return { released.setNode i .placeholder with free := i :: released.free }

/-- Reclaims the unmarked ones of the first `n` slots, the highest first. -/
def sweepBelow (marks : Array Bool) : Nat → Graph → Except Fault Graph
  | 0, g => .ok g
  | n + 1, g => do
    if marks[n]? = some true then sweepBelow marks n g
    else sweepBelow marks n (← g.reclaim n)

/-- Frees every slot that no root reaches; the number of slots gained. -/
def collect (g : Graph) (roots : List Link) : Except Fault (Nat × Graph) := do
  let marks ← g.marked roots
  let swept ← sweepBelow marks g.capacity { g with free := [] }
  return (swept.free.length - g.free.length, swept)

end ChoiceGraph.Graph
