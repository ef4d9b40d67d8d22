import ChoiceGraph.Number.Double

/-! # Nodes

A node has a tag that says what kind of node it is, the symbol it carries, an auxiliary number
and its successors: up to two links in the node itself, a pooled block of links, or a literal.
A link may be empty. The auxiliary number is the identifier of a choice or a variable and the
number of missing arguments of a partial application.
-/
namespace ChoiceGraph

abbrev NodeId := Nat
abbrev SymbolId := Nat
abbrev TypeId := Nat

/-- A place that holds a node or nothing. -/
abbrev Link := Option NodeId

inductive Tag
  | failure
  | free
  | forward
  | choice
  /-- A call, or a partial application. -/
  | operation
  | constructor (index : Nat)
  /-- The codes below those of the other kinds, counted downward. No sound node has one. -/
  | unassigned (below : Nat)
  deriving DecidableEq, Inhabited

namespace Tag

def code : Tag → Int
  | failure => -5
  | free => -4
  | forward => -3
  | choice => -2
  | operation => -1
  | constructor index => index
  | unassigned below => -6 - (below : Int)

def ofCode : Int → Tag
  | .ofNat index => constructor index
  | .negSucc 0 => operation
  | .negSucc 1 => choice
  | .negSucc 2 => forward
  | .negSucc 3 => free
  | .negSucc 4 => failure
  | .negSucc (below + 5) => unassigned below

/-- The tag of the constructor at `index` of its type. Codes have 32 bits and wrap. -/
def ofIndex (index : Nat) : Tag := ofCode (Int.bmod index UInt32.size)

theorem ofCode_code (t : Tag) : ofCode t.code = t := by
  cases t with
  | unassigned below =>
    have h : code (unassigned below) = Int.negSucc (below + 5) := by simp only [code]; omega
    rw [h, ofCode]
  | _ => rfl

/-- The name of the kind of node, if the tag belongs to one. -/
def kindName? : Tag → Option String
  | failure => some "Fail"
  | free => some "Free"
  | forward => some "Fwd"
  | choice => some "Choice"
  | operation => some "Oper"
  | constructor _ => some "Ctor"
  | unassigned _ => none

end Tag

inductive Literal
  | int (value : Int64)
  | float (value : Double)
  | char (value : Char)
  /-- A function or constructor used as a value. -/
  | symbol (target : SymbolId)
  /-- The data type that a free variable ranges over. -/
  | type (dataType : TypeId)
  deriving DecidableEq

/-- The same value: floats are compared as numbers, everything else as data. -/
def Literal.same : Literal → Literal → Bool
  | float x, float y => x.same y
  | x, y => x == y

/-- A block of the pool for its arity. -/
structure BlockId where
  arity : Nat
  index : Nat
  deriving DecidableEq

inductive Slots
  | inline (first second : Link)
  | pooled (block : BlockId)
  | data (literal : Literal)
  deriving DecidableEq

def Slots.literal? : Slots → Option Literal
  | data literal => some literal
  | _ => none

structure Node where
  tag : Tag
  symbol : SymbolId
  aux : Nat
  slots : Slots
  deriving DecidableEq

/-- What every slot of the pool holds until a step wires it. -/
def Node.placeholder : Node :=
  { tag := .failure, symbol := 0, aux := 0, slots := .inline none none }

/-- Where an indirection leads, if the node is one. -/
def Node.forward? (n : Node) : Option Link :=
  match n.tag, n.slots with
  | .forward, .inline next _ => some next
  | _, _ => none

instance : Inhabited Node := ⟨.placeholder⟩

end ChoiceGraph
