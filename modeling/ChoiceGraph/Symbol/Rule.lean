import ChoiceGraph.Graph.Node

/-! # Rules

What a call of a defined function does, as data: force arguments, branch on a constructor, bind
two variables, run a search of its own, and at the end instantiate a template in place of the
call. A symbol is mentioned by name or by number; a name means the first symbol that has it at
the time the rule runs, so that functions may call each other.
-/
namespace ChoiceGraph

inductive SymbolRef
  | name (name : String)
  | id (id : SymbolId)

/-- A right-hand side. Paths lead from the call to one of its arguments, or below one. -/
inductive Template
  | int (value : Int64)
  /-- Successor `first` of the call, then the successors in `rest`, indirections skipped. -/
  | path (first : Nat) (rest : List Nat)
  /-- The `index`-th fresh variable of the rule. -/
  | fresh (index : Nat)
  | app (symbol : SymbolRef) (args : List Template)

mutual

inductive Rule
  /-- Head-normalizes argument `arg`, then goes on. -/
  | force (arg : Nat) (next : Rule)
  /-- Normalizes argument `arg`, then goes on. -/
  | normal (arg : Nat) (next : Rule)
  /-- Branches on the symbol that argument `arg` has in head normal form. -/
  | branch (arg : Nat) (branches : Branches)
  /-- Binds arguments `x` and `y` if both are variables, then goes on. -/
  | bind (x y : Nat) (isLazy : Bool) (next : Rule)
  /-- The number of values of argument `arg`. -/
  | count (arg : Nat)
  /-- The first value of argument `arg`. -/
  | first (arg : Nat)
  /-- The template, with fresh variables of the given types. -/
  | body (template : Template) (free : List (Option TypeId))
  | fail

/-- Alternatives by the name of a symbol; the last rule is for every other symbol. -/
inductive Branches
  | otherwise (rule : Rule)
  | alternative (name : String) (rule : Rule) (rest : Branches)

end

namespace Template

mutual

/-- Nodes that a template needs when it is no outermost one: one for each literal and call. -/
def size : Template → Nat
  | int _ => 1
  | path _ _ => 0
  | fresh _ => 0
  | app _ args => 1 + sizeAll args

def sizeAll : List Template → Nat
  | [] => 0
  | t :: ts => t.size + sizeAll ts

end

/-- Nodes to allocate for a template whose outermost node is the call itself. -/
def innerSize (t : Template) : Nat := t.size - 1

end Template

end ChoiceGraph
