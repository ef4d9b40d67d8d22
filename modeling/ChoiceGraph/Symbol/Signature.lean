import ChoiceGraph.Error
import ChoiceGraph.Symbol.Rule
import ChoiceGraph.Text.Quoted

/-! # Signatures

A signature lists the symbols that nodes may carry, and the data types. A symbol has a name, an
arity, a kind, and says how its nodes are printed and reduced. Symbols and types are numbered in
the order of their registration, and never renumbered.
-/
namespace ChoiceGraph

inductive SymbolKind
  /-- A node form of the machine itself. -/
  | builtin
  /-- A function with too few arguments: a value, although its tag is that of a call. -/
  | partialApplication
  | constructor (dataType : TypeId) (index : Nat)
  | function
  deriving DecidableEq

/-- What the head of a node is called. -/
inductive LabelStyle
  | name
  | forward
  | choice
  | free
  | literal
  | partialApplication

/-- How a term is printed. -/
inductive ShowStyle
  | applicative
  | tuple
  | list
  | forward
  | choice
  | literal
  | partialApplication

/-- How a node is driven to normal form. -/
inductive NormalStep
  | none
  | forward
  | call
  | constructor

inductive Arithmetic
  | add
  | sub
  | mul
  | div
  | mod

/-- How a call is driven toward head normal form. -/
inductive HeadStep
  | none
  | forward
  | arithmetic (op : Arithmetic)
  | equals
  | compare
  | choose
  | fail
  | unify
  | conjunction
  | guard
  | strictApply
  | ensureNotFree
  | apply
  | spin
  | rule (rule : Rule)

structure Symbol where
  name : String
  kind : SymbolKind
  arity : Nat
  label : LabelStyle
  shown : ShowStyle
  normal : NormalStep
  head : HeadStep

namespace Symbol

def builtin (name : String) (arity : Nat) : Symbol :=
  { name := name, kind := .builtin, arity := arity, label := .name, shown := .applicative
    normal := .none, head := .none }

def constructor (name : String) (arity : Nat) (dataType : TypeId) (index : Nat) : Symbol :=
  { builtin name arity with kind := .constructor dataType index, normal := .constructor }

def function (name : String) (arity : Nat) (head : HeadStep) : Symbol :=
  { builtin name arity with kind := .function, normal := .call, head := head }

end Symbol

def SymbolKind.description : SymbolKind → String
  | builtin => "Builtin"
  | partialApplication => "Partial"
  | constructor dataType index =>
    "Ctor \x7b data_type: TypeId(" ++ toString dataType ++ "), index: " ++ toString index ++ " \x7d"
  | function => "Function"

/-- Name, kind and arity in one line. -/
def Symbol.description (s : Symbol) : String :=
  "OpTable \x7b name: " ++ Text.quotedString s.name ++ ", kind: " ++ s.kind.description ++
    ", arity: " ++ toString s.arity ++ " \x7d"

structure DataType where
  name : String
  constructors : List SymbolId

structure Signature where
  symbols : Array Symbol
  types : Array DataType

/-! ## The symbols of the machine's own node forms -/

namespace Builtin

abbrev fail : SymbolId := 0
abbrev forward : SymbolId := 1
abbrev choice : SymbolId := 2
/-- The outermost choice of an instantiated variable. -/
abbrev narrowed : SymbolId := 3
abbrev free : SymbolId := 4
abbrev int : SymbolId := 5
abbrev float : SymbolId := 6
abbrev char : SymbolId := 7
/-- One more argument for a partial application. -/
abbrev partialApplication : SymbolId := 8
/-- A function used as a value, before its first argument. -/
abbrev function : SymbolId := 9

end Builtin

namespace Signature

def withBuiltins : Signature :=
  let literal (name : String) : Symbol :=
    { Symbol.builtin name 0 with label := .literal, shown := .literal }
  let choice (name : String) : Symbol :=
    { Symbol.builtin name 2 with label := .choice, shown := .choice }
  let partialApplication (name : String) (arity : Nat) : Symbol :=
    { Symbol.builtin name arity with
      kind := .partialApplication, label := .partialApplication, shown := .partialApplication }
  { symbols := #[
      Symbol.builtin "fail" 0,
      { Symbol.builtin "fwd" 1 with
        label := .forward, shown := .forward, normal := .forward, head := .forward },
      choice "choice",
      choice "narrowed",
      { Symbol.builtin "free" 0 with label := .free },
      literal "Int",
      literal "Float",
      literal "Char",
      partialApplication "partial" 2,
      partialApplication "function" 0]
    types := #[] }

def size (s : Signature) : Nat := s.symbols.size

def symbol? (s : Signature) (id : SymbolId) : Option Symbol := s.symbols[id]?

def symbol (s : Signature) (id : SymbolId) : Except Fault Symbol :=
  match s.symbol? id with
  | some sym => .ok sym
  | none => .error .dangling

def dataType (s : Signature) (id : TypeId) : Except Fault DataType :=
  match s.types[id]? with
  | some t => .ok t
  | none => .error .dangling

/-- The first symbol with this name. -/
def lookup? (s : Signature) (name : String) : Option SymbolId :=
  s.symbols.findIdx? fun sym => sym.name == name

/-- The symbol that is meant, if there is one. -/
def resolve? (s : Signature) : SymbolRef → Option SymbolId
  | .name name => s.lookup? name
  | .id id => if id < s.size then some id else none

def register (s : Signature) (sym : Symbol) : SymbolId × Signature :=
  (s.size, { s with symbols := s.symbols.push sym })

def defineFunction (s : Signature) (name : String) (arity : Nat) (head : HeadStep) :
    SymbolId × Signature :=
  s.register (.function name arity head)

def setSymbol (s : Signature) (id : SymbolId) (sym : Symbol) : Signature :=
  { s with symbols := s.symbols.setIfInBounds id sym }

/-- Registers constructors of one type, numbered from `index` on. -/
def registerConstructors (s : Signature) (dataType : TypeId) (index : Nat) :
    List (String × Nat) → List SymbolId × Signature
  | [] => ([], s)
  | (name, arity) :: rest =>
    let (id, s) := s.register (.constructor name arity dataType index)
    let (ids, s) := s.registerConstructors dataType (index + 1) rest
    (id :: ids, s)

/-- Registers a data type and its constructors, in the order of their tags. -/
def defineType (s : Signature) (name : String) (constructors : List (String × Nat)) :
    TypeId × List SymbolId × Signature :=
  let id := s.types.size
  let (ids, s) := s.registerConstructors id 0 constructors
  (id, ids, { s with types := s.types.push { name := name, constructors := ids } })

/-- The tag of a node with this symbol. -/
def tagFor (s : Signature) (id : SymbolId) : Except Fault Tag := do
  match (← s.symbol id).kind with
  | .constructor _ index => return .ofIndex index
  | .function => return .operation
  | .partialApplication => return .operation
  | .builtin =>
    if id = Builtin.fail then return .failure
    else if id = Builtin.forward then return .forward
    else if id = Builtin.choice ∨ id = Builtin.narrowed then return .choice
    else if id = Builtin.free then return .free
    else return .constructor 0

end Signature

end ChoiceGraph
