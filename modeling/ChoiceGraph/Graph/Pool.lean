import ChoiceGraph.Graph.Node

/-! # Pools of successor blocks

One pool serves one arity: its blocks all have that many links, a released block is emptied and
handed out again before a new one is made, the block released last first.
-/
namespace ChoiceGraph

structure BlockPool where
  arity : Nat
  blocks : Array (List Link)
  free : List Nat

namespace BlockPool

def empty (arity : Nat) : BlockPool := { arity := arity, blocks := #[], free := [] }

def alloc (p : BlockPool) : Nat × BlockPool :=
  match p.free with
  | block :: rest => (block, { p with free := rest })
  | [] => (p.blocks.size, { p with blocks := p.blocks.push (List.replicate p.arity none) })

def release? (p : BlockPool) (block : Nat) : Option BlockPool :=
  if block < p.blocks.size then
    some { p with
      blocks := p.blocks.setIfInBounds block (List.replicate p.arity none)
      free := block :: p.free }
  else
    none

def write? (p : BlockPool) (block : Nat) (links : List Link) : Option BlockPool :=
  if block < p.blocks.size then
    some { p with blocks := p.blocks.setIfInBounds block links }
  else
    none

def inUse (p : BlockPool) : Nat := p.blocks.size - p.free.length

end BlockPool

end ChoiceGraph
