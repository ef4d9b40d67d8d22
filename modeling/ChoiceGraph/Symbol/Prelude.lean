import ChoiceGraph.Symbol.Signature

/-! # The prelude

Seven data types and sixteen functions that every machine knows. Their symbols are consecutive,
and so are their types, so that the first of each fixes all of them.
-/
namespace ChoiceGraph

structure Prelude where
  firstSymbol : SymbolId
  firstType : TypeId

namespace Prelude

variable (p : Prelude)

def false_ : SymbolId := p.firstSymbol
def true_ : SymbolId := p.firstSymbol + 1
def success : SymbolId := p.firstSymbol + 2
def unit : SymbolId := p.firstSymbol + 3
def pair : SymbolId := p.firstSymbol + 4
def triple : SymbolId := p.firstSymbol + 5
def nil : SymbolId := p.firstSymbol + 6
def cons : SymbolId := p.firstSymbol + 7
def lt : SymbolId := p.firstSymbol + 8
def eq : SymbolId := p.firstSymbol + 9
def gt : SymbolId := p.firstSymbol + 10
def add : SymbolId := p.firstSymbol + 11
def sub : SymbolId := p.firstSymbol + 12
def mul : SymbolId := p.firstSymbol + 13
def div : SymbolId := p.firstSymbol + 14
def mod : SymbolId := p.firstSymbol + 15
def equals : SymbolId := p.firstSymbol + 16
def compare : SymbolId := p.firstSymbol + 17
def choose : SymbolId := p.firstSymbol + 18
def failed : SymbolId := p.firstSymbol + 19
def unify : SymbolId := p.firstSymbol + 20
def conjunction : SymbolId := p.firstSymbol + 21
def guard : SymbolId := p.firstSymbol + 22
def strictApply : SymbolId := p.firstSymbol + 23
def ensureNotFree : SymbolId := p.firstSymbol + 24
def apply : SymbolId := p.firstSymbol + 25
def spin : SymbolId := p.firstSymbol + 26

def boolType : TypeId := p.firstType
def successType : TypeId := p.firstType + 1
def unitType : TypeId := p.firstType + 2
def pairType : TypeId := p.firstType + 3
def tripleType : TypeId := p.firstType + 4
def listType : TypeId := p.firstType + 5
def orderingType : TypeId := p.firstType + 6

/-- Every symbol, in the order of registration. -/
def symbols : List SymbolId := List.range' p.firstSymbol 27

/-- Every type, in the order of registration. -/
def types : List TypeId := List.range' p.firstType 7

/-- Types with their constructors. -/
def typeTable : List (String × List (String × Nat)) := [
  ("Bool", [("False", 0), ("True", 0)]),
  ("Success", [("Success", 0)]),
  ("Unit", [("()", 0)]),
  ("Pair", [("(,)", 2)]),
  ("Triple", [("(,,)", 3)]),
  ("List", [("[]", 0), (":", 2)]),
  ("Ordering", [("LT", 0), ("EQ", 0), ("GT", 0)])]

/-- Functions with their arities and head steps. -/
def functionTable : List (String × Nat × HeadStep) := [
  ("+", 2, .arithmetic .add),
  ("-", 2, .arithmetic .sub),
  ("*", 2, .arithmetic .mul),
  ("div", 2, .arithmetic .div),
  ("mod", 2, .arithmetic .mod),
  ("==", 2, .equals),
  ("compare", 2, .compare),
  ("?", 2, .choose),
  ("failed", 0, .fail),
  ("=:=", 2, .unify),
  ("&", 2, .conjunction),
  ("&>", 2, .guard),
  ("$!", 2, .strictApply),
  ("ensureNotFree", 1, .ensureNotFree),
  ("apply", 2, .apply),
  ("loop", 0, .spin)]

/-- The prelude of a signature that starts with it. -/
def standard : Prelude := { firstSymbol := 10, firstType := 0 }

end Prelude

namespace Signature

def setShown (s : Signature) (id : SymbolId) (shown : ShowStyle) : Signature :=
  match s.symbol? id with
  | some sym => s.setSymbol id { sym with shown := shown }
  | none => s

/-- Registers the prelude after what is there already. -/
def installPrelude (s : Signature) : Prelude × Signature :=
  let p : Prelude := { firstSymbol := s.size, firstType := s.types.size }
  let s := Prelude.typeTable.foldl (fun s (name, ctors) => (s.defineType name ctors).2.2) s
  let s := s.setShown p.pair .tuple
  let s := s.setShown p.triple .tuple
  let s := s.setShown p.cons .list
  let s := Prelude.functionTable.foldl
    (fun s (name, arity, head) => (s.defineFunction name arity head).2) s
  (p, s)

/-- The signature that every machine starts with. -/
def standard : Signature := withBuiltins.installPrelude.2

end Signature

end ChoiceGraph
