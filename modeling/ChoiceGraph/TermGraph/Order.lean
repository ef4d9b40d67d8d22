import ChoiceGraph.TermGraph.Basic

/-! # Equality and order of terms

Both look through indirections and stop at a node that the two terms share. Equality compares
tags and symbols, the identifiers of variables and choices, literals as values, and successors.
The order compares tags, symbols and auxiliary numbers, then literals by rank or successors from
left to right. Both are a fault on a graph with a circle.
-/
namespace ChoiceGraph.TermGraph

/-- Nodes of this kind are told apart by their identifiers. Undefined for no kind of node. -/
def comparesAux : Tag → Except Fault Bool
  | .free => .ok true
  | .choice => .ok true
  | .unassigned _ => .error .dangling
  | _ => .ok false

/-- Every pair is equal, looked at from left to right as far as needed. -/
def allEqual (sub : Link → Link → Except Fault Bool) :
    List Link → List Link → Except Fault Bool
  | x :: xs, y :: ys => do if ← sub x y then allEqual sub xs ys else return false
  | _, _ => .ok true

def equalsNodes (t : TermGraph) (sub : Link → Link → Except Fault Bool) (i j : NodeId) :
    Except Fault Bool := do
  if i = j then return true
  let x ← t.node i
  let y ← t.node j
  if x.tag ≠ y.tag ∨ x.symbol ≠ y.symbol then return false
  if (← comparesAux x.tag) && x.aux ≠ y.aux then return false
  match x.slots, y.slots with
  | .data a, .data b => return a.same b
  | _, _ => do
    let xs ← t.successors i
    allEqual sub xs (← t.successors j)

def equalsWithin (t : TermGraph) : Nat → Link → Link → Except Fault Bool
  | 0, _, _ => .error .endless
  | bound + 1, a, b => do
    let i ← a.target
    let _ ← t.symbol i
    t.equalsNodes (t.equalsWithin bound) (← t.skip i) (← t.skip (← b.target))

/-- The two terms have one unfolding. -/
def equals (t : TermGraph) (i j : NodeId) : Except Fault Bool :=
  t.equalsWithin t.depthBound (some i) (some j)

def literalOrder : Literal → Literal → Ordering
  | .int a, .int b => compare a.toInt b.toInt
  | .float a, .float b => compare a.rank b.rank
  | .char a, .char b => compare a.toNat b.toNat
  | .symbol a, .symbol b => compare a b
  | .type a, .type b => compare a b
  | _, _ => .eq

/-- The first difference from left to right decides. -/
def firstDifference (sub : Link → Link → Except Fault Ordering) :
    List Link → List Link → Except Fault Ordering
  | x :: xs, y :: ys => do
    match ← sub x y with
    | .eq => firstDifference sub xs ys
    | o => return o
  | _, _ => .ok .eq

def orderNodes (t : TermGraph) (sub : Link → Link → Except Fault Ordering) (i j : NodeId) :
    Except Fault Ordering := do
  if i = j then return .eq
  let x ← t.node i
  let y ← t.node j
  let head := (compare x.tag.code y.tag.code).then
    ((compare x.symbol y.symbol).then (compare x.aux y.aux))
  if head ≠ .eq then return head
  match x.slots, y.slots with
  | .data a, .data b => return literalOrder a b
  | _, _ => do
    let xs ← t.successors i
    firstDifference sub xs (← t.successors j)

def orderWithin (t : TermGraph) : Nat → Link → Link → Except Fault Ordering
  | 0, _, _ => .error .endless
  | bound + 1, a, b => do
    let i ← a.target
    let _ ← t.symbol i
    t.orderNodes (t.orderWithin bound) (← t.skip i) (← t.skip (← b.target))

/-- The order of two terms. -/
def order (t : TermGraph) (i j : NodeId) : Except Fault Ordering :=
  t.orderWithin t.depthBound (some i) (some j)

end ChoiceGraph.TermGraph
