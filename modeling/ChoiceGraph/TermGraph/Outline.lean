import ChoiceGraph.TermGraph.Show

/-! # Outlines

An outline is a bounded picture of the graph below a node, with its indirections and its
sharing. A node met a second time is only mentioned; beyond a fixed depth, a fixed number of
nodes or a fixed number of arguments it says that there is more.
-/
namespace ChoiceGraph.TermGraph

namespace Outline

def levels : Nat := 7
def nodeLimit : Nat := 200
def argLimit : Nat := 6

end Outline

/-- Draws the node in a link, given the nodes drawn before, each once. -/
def outlineWithin (t : TermGraph) :
    Nat → Link → StateT (List NodeId) (Except Fault) String
  | 0, _ => return "..."
  | levels + 1, l => do
    let seen ← get
    if Outline.nodeLimit ≤ seen.length then return "..."
    let i ← l.target
    if i ∈ seen then return s!"<shared {i}>"
    set (i :: seen)
    let links ← t.successors i
    if (← t.tag i) = .forward then
      match links with
      | next :: _ => return s!"fwd#{i} " ++ (← t.outlineWithin levels next)
      | [] => throw Fault.dangling
    else if links.isEmpty then
      t.label i
    else
      let head ← t.label i
      let args ← (links.take Outline.argLimit).mapM (t.outlineWithin levels)
      let more := if Outline.argLimit < links.length then " ..." else ""
      return "(" ++ String.intercalate " " (head :: args) ++ more ++ ")"

/-- A bounded picture of the graph below a node. -/
def outline (t : TermGraph) (i : NodeId) : Except Fault String := do
  return (← (t.outlineWithin Outline.levels (some i)).run []).1

end ChoiceGraph.TermGraph
