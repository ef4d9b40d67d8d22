import ChoiceGraph.Error
import ChoiceGraph.Graph.Pool

/-! # The graph

A pool of node slots with a free list, and the block pools. Taking slots is all or nothing and
hands out the head of the free list; growing puts the new slots in front of it, lowest first.
Reading a slot that does not exist is a fault.
-/
namespace ChoiceGraph

structure Graph where
  nodes : Array Node
  free : List NodeId
  pools : Array BlockPool
  growNodes : Nat
  maxNodes : Nat

namespace Graph

def capacity (g : Graph) : Nat := g.nodes.size

def liveCount (g : Graph) : Nat := g.capacity - g.free.length

/-- Adds `n` placeholder slots; they are handed out before the slots that are free already. -/
def extend (g : Graph) (n : Nat) : Graph :=
  { g with
    nodes := g.nodes ++ Array.replicate n .placeholder
    free := List.range' g.capacity n ++ g.free }

def ofConfig (c : Config) : Graph :=
  extend
    { nodes := #[], free := [], pools := (Array.range c.arityBound).map BlockPool.empty
      growNodes := c.growNodes, maxNodes := c.maxNodes }
    c.initialNodes

def node (g : Graph) (i : NodeId) : Except Fault Node :=
  match g.nodes[i]? with
  | some n => .ok n
  | none => .error .dangling

/-- Overwrites a slot. The block that the old node may own is not released. -/
def setNode (g : Graph) (i : NodeId) (n : Node) : Graph :=
  { g with nodes := g.nodes.setIfInBounds i n }

/-- At least `n` slots are free. -/
def hasFree (g : Graph) (n : Nat) : Bool := (g.free.take n).length == n

/-- The graph after the first `n` free slots were handed out. They hold placeholders. -/
def afterTake (g : Graph) (n : Nat) : Graph :=
  { g with
    nodes := (g.free.take n).foldl (fun nodes i => nodes.setIfInBounds i .placeholder) g.nodes
    free := g.free.drop n }

/-- Takes `n` slots off the free list, or none at all. -/
def take? (g : Graph) (n : Nat) : Option (List NodeId × Graph) :=
  if g.hasFree n then some (g.free.take n, g.afterTake n) else none

/-- Adds slots so that `needed` of them are free, by `growNodes` at least and up to `maxNodes`. -/
def grow? (g : Graph) (needed : Nat) : Option Graph :=
  let room := g.maxNodes - g.capacity
  let wanted := max (needed - g.free.length) g.growNodes
  let added := min wanted room
  if added = 0 ∨ g.free.length + added < needed then none else some (g.extend added)

/-! ## Blocks -/

def modifyPool (g : Graph) (arity : Nat) (p : BlockPool) : Graph :=
  { g with pools := g.pools.setIfInBounds arity p }

def allocBlock (g : Graph) (arity : Nat) : Except Error (BlockId × Graph) :=
  if arity < inlineBound then .error (.arityOutOfRange arity g.pools.size)
  else
    match g.pools[arity]? with
    | none => .error (.arityOutOfRange arity g.pools.size)
    | some pool =>
      let (index, pool) := pool.alloc
      .ok (⟨arity, index⟩, g.modifyPool arity pool)

def releaseBlock? (g : Graph) (b : BlockId) : Option Graph := do
  let pool ← g.pools[b.arity]?
  let pool ← pool.release? b.index
  return g.modifyPool b.arity pool

def block? (g : Graph) (b : BlockId) : Option (List Link) := do
  let pool ← g.pools[b.arity]?
  pool.blocks[b.index]?

def block (g : Graph) (b : BlockId) : Except Fault (List Link) :=
  match g.block? b with
  | some links => .ok links
  | none => .error .dangling

def writeBlock? (g : Graph) (b : BlockId) (links : List Link) : Option Graph := do
  let pool ← g.pools[b.arity]?
  let pool ← pool.write? b.index links
  return g.modifyPool b.arity pool

/-- Blocks of this arity that are handed out. -/
def blocksInUse (g : Graph) (arity : Nat) : Nat :=
  match g.pools[arity]? with
  | some pool => if arity = 0 then 0 else pool.inUse
  | none => 0

/-! ## Following links -/

/-- The links a node holds; empty ones among two inline links are left out. -/
def storedLinks (g : Graph) (n : Node) : Except Fault (List Link) :=
  match n.slots with
  | .inline a b => .ok ([a, b].filter Option.isSome)
  | .pooled r => g.block r
  | .data _ => .ok []

def storedSuccessors (g : Graph) (i : NodeId) : Except Fault (List Link) := do
  g.storedLinks (← g.node i)

def skipWithin (g : Graph) : Nat → NodeId → Except Fault NodeId
  | 0, _ => .error .endless
  | bound + 1, i => do
    match (← g.node i).forward? with
    | none => return i
    | some none => throw .dangling
    | some (some next) => g.skipWithin bound next

/-- The first node on the way from `i` that is no indirection. -/
def skip (g : Graph) (i : NodeId) : Except Fault NodeId :=
  g.skipWithin (g.capacity + 1) i

end Graph

end ChoiceGraph
