import ChoiceGraph.Graph.Collector
import ChoiceGraph.Machine.Basic

/-! # Allocation and rewriting

Nodes are allocated in one request, all or none; when the pool cannot serve it, the machine
collects, then grows, and gives up with an error. Every change of a node goes through `put`,
which gives back the block the node had. New links are stored before that, so that a request
that fails leaves the node as it was.
-/
namespace ChoiceGraph.Eff

def freshId : Eff Nat := fun m => .ok m.nextId { m with nextId := m.nextId + 1 }

/-- Takes one collection off the front frame; a frame without any left loses its turn. -/
def chargeCollection (m : Machine) : Machine :=
  match m.front? with
  | none => m
  | some f =>
    let left := f.allotment - 1
    let m := m.mapInnermost fun c => c.putFrame 0 { f with allotment := left }
    if left = 0 then { m with slice := { m.slice with preempt := true } } else m

/-- Frees every node that the root set does not reach; the number of slots gained. -/
def collect : Eff Nat := fun m =>
  match m.graph.collect m.rootSet with
  | .error e => .error (.fault e) m
  | .ok (freed, g) =>
    .ok freed (chargeCollection { m.setGraph g with collections := m.collections + 1 })

/-- Takes nodes off the free list, if there are enough. -/
def take? (n : Nat) : Eff (Option (List NodeId)) := fun m =>
  if m.graph.hasFree n then
    .ok (some (m.graph.free.take n)) { m with graph := m.graph.afterTake n }
  else
    .ok none m

/-- Grows the pool for a request, if it may grow that far. -/
def grow? (n : Nat) : Eff Bool := fun m =>
  match m.graph.grow? n with
  | some g => .ok true (m.setGraph g)
  | none => .ok false m

def exhausted {α : Type} (n : Nat) : Eff α := fun m =>
  .error (.fatal (.exhausted n m.graph.liveCount m.graph.capacity)) m

/-- Allocates `n` nodes together. -/
def allocate (n : Nat) : Eff (List NodeId) := do
  if let some ids ← take? n then return ids
  let _ ← collect
  if let some ids ← take? n then return ids
  if ← grow? n then
    if let some ids ← take? n then return ids
  exhausted n

def allocateOne : Eff NodeId := do
  match ← allocate 1 with
  | id :: _ => return id
  | [] => fault .dangling

/-- Overwrites a node and gives back the block it had. -/
def put (i : NodeId) (n : Node) : Eff Unit := fun m =>
  match m.graph.node i with
  | .error e => .error (.fault e) m
  | .ok old =>
    match old.slots with
    | .pooled b =>
      match m.graph.releaseBlock? b with
      | some g =>
        let m := m.setGraph g
        .ok () { m with graph := m.graph.setNode i n }
      | none => .error (.fault .dangling) m
    | _ => .ok () { m with graph := m.graph.setNode i n }

/-- Stores links where their number demands. -/
def storeLinks (links : List Link) : Eff Slots := fun m =>
  match links with
  | [] => .ok (.inline none none) m
  | [a] => .ok (.inline a none) m
  | [a, b] => .ok (.inline a b) m
  | _ =>
    match m.graph.allocBlock links.length with
    | .error e => .error (.fatal e) m
    | .ok (b, g) =>
      match g.writeBlock? b links with
      | some g => .ok (.pooled b) (m.setGraph g)
      | none => .error (.fault .dangling) m

def rewrite (i : NodeId) (tag : Tag) (symbol : SymbolId) (aux : Nat) (links : List Link) :
    Eff Unit := do
  let slots ← storeLinks links
  put i { tag := tag, symbol := symbol, aux := aux, slots := slots }

def tagFor (symbol : SymbolId) : Eff Tag := look fun m => m.signature.tagFor symbol

/-- Rewrites a node to a symbol with its successors. -/
def rewriteTo (i : NodeId) (symbol : SymbolId) (links : List Link) : Eff Unit := do
  rewrite i (← tagFor symbol) symbol 0 links

def rewriteData (i : NodeId) (symbol : SymbolId) (aux : Nat) (literal : Literal) : Eff Unit := do
  put i { tag := ← tagFor symbol, symbol := symbol, aux := aux, slots := .data literal }

def rewriteInt (i : NodeId) (value : Int64) : Eff Unit := rewriteData i Builtin.int 0 (.int value)

def rewriteFail (i : NodeId) : Eff Unit := put i .placeholder

def rewriteForward (i : NodeId) (target : Link) : Eff Unit :=
  put i { tag := .forward, symbol := Builtin.forward, aux := 0, slots := .inline target none }

/-- Makes a node the free variable `id` of a type, or of none. -/
def rewriteFree (i : NodeId) (id : Nat) (type : Option TypeId) : Eff Unit :=
  put i
    { tag := .free, symbol := Builtin.free, aux := id
      slots := match type with
        | some t => .data (.type t)
        | none => .inline none none }

/-- Redirects successor `k` of a node. -/
def setSuccessor (i : NodeId) (k : Nat) (target : Link) : Eff Unit := fun m =>
  match m.toTermGraph.successor i k, m.graph.node i with
  | .ok _, .ok n =>
    match n.slots with
    | .inline a b =>
      let slots := if k = 0 then Slots.inline target b else Slots.inline a target
      .ok () { m with graph := m.graph.setNode i { n with slots := slots } }
    | .pooled b =>
      match m.graph.block? b with
      | none => .error (.fault .dangling) m
      | some links =>
        match m.graph.writeBlock? b (links.set k target) with
        | some g => .ok () (m.setGraph g)
        | none => .error (.fault .dangling) m
    | .data _ => .error (.fault .dangling) m
  | .error e, _ => .error (.fault e) m
  | _, .error e => .error (.fault e) m

/-! ## New nodes -/

/-- Allocates a node while `links` stay rooted. -/
def allocateFor (links : List Link) : Eff NodeId := withRoots links allocateOne

/-- A new node with a symbol and its successors. -/
def make (symbol : SymbolId) (links : List Link) : Eff NodeId := do
  let i ← allocateFor links
  rewriteTo i symbol links
  return i

def makeData (symbol : SymbolId) (aux : Nat) (literal : Literal) : Eff NodeId := do
  let i ← allocateOne
  rewriteData i symbol aux literal
  return i

def makeInt (v : Int64) : Eff NodeId := makeData Builtin.int 0 (.int v)

def makeFloat (v : Double) : Eff NodeId := makeData Builtin.float 0 (.float v)

def makeChar (c : Char) : Eff NodeId := makeData Builtin.char 0 (.char c)

def makeFail : Eff NodeId := make Builtin.fail []

def makeForward (target : Link) : Eff NodeId := make Builtin.forward [target]

/-- A new choice, with an identifier of its own. -/
def makeChoice (left right : Link) : Eff NodeId := do
  let i ← allocateFor [left, right]
  let id ← freshId
  rewrite i .choice Builtin.choice id [left, right]
  return i

/-- A new free variable, with an identifier of its own. -/
def makeFree (type : Option TypeId) : Eff NodeId := do
  let i ← allocateOne
  let id ← freshId
  rewriteFree i id type
  return i

/-- A function or constructor as a value that misses all its arguments. -/
def makeFunctionValue (symbol : SymbolId) : Eff NodeId := do
  match (← get).signature.symbol? symbol with
  | none => fatal (.unknownSymbol symbol)
  | some s => makeData Builtin.function s.arity (.symbol symbol)

end ChoiceGraph.Eff
