import ChoiceGraph.Number.Shortest
import ChoiceGraph.TermGraph.Basic

/-! # Printing terms

A label is the text for the head of a node. A term is printed through the style of its symbol,
indirections being invisible; an application inside another term stands in parentheses. Printing
unfolds what is shared, and is a fault on a graph with a circle.
-/
namespace ChoiceGraph.TermGraph

def literalText (t : TermGraph) : Literal → Except Fault String
  | .int v => return toString v.toInt
  | .float v => return v.text
  | .char c => return Text.quotedChar c
  | .symbol target => return (← t.signature.symbol target).name
  | .type ty => return (← t.signature.dataType ty).name

def literalLabel (t : TermGraph) (i : NodeId) : Except Fault String := do
  match ← t.literal? i with
  | some l => t.literalText l
  | none => return (← t.symbol i).name

def partialLabel (t : TermGraph) (i : NodeId) : Except Fault String := do
  match ← t.partialSpine i with
  | some (target, _) => return (← t.signature.symbol target).name
  | none => return (← t.symbol i).name

/-- The label of a node in a style other than that of indirections. -/
def ownLabel (t : TermGraph) (i : NodeId) : LabelStyle → Except Fault String
  | .name => return (← t.symbol i).name
  | .choice => return s!"?{← t.aux i}"
  | .free => return s!"_x{← t.aux i}"
  | .literal => t.literalLabel i
  | .partialApplication => t.partialLabel i
  | .forward => throw .endless

/-- The text for the head of a node; an indirection has the label of what it leads to. -/
def label (t : TermGraph) (i : NodeId) : Except Fault String := do
  match (← t.symbol i).label with
  | .forward =>
    let target ← t.skip i
    t.ownLabel target (← t.symbol target).label
  | style => t.ownLabel i style

/-- The text of a term that is a successor, by whether it stands alone. -/
abbrev Printer := Link → Bool → Except Fault String

def parenthesized (wrap : Bool) (text : String) : String :=
  if wrap then "(" ++ text ++ ")" else text

/-- A name followed by its arguments. -/
def showApplication (sub : Printer) (name : String) (args : List Link) (alone : Bool) :
    Except Fault String := do
  let texts ← args.mapM fun a => sub a false
  return parenthesized (!alone && !args.isEmpty) (String.intercalate " " (name :: texts))

def showApplicative (t : TermGraph) (sub : Printer) (i : NodeId) (alone : Bool) :
    Except Fault String := do
  let args ← t.successors i
  showApplication sub (← t.label i) args alone

def showTuple (t : TermGraph) (sub : Printer) (i : NodeId) : Except Fault String := do
  let texts ← (← t.successors i).mapM fun a => sub a true
  return "(" ++ String.intercalate ", " texts ++ ")"

/-- The elements of a list from `i` on, and the node that ends it: the first one that does not
carry the symbol `cons`. -/
def listWithin (t : TermGraph) (cons : SymbolId) :
    Nat → NodeId → Except Fault (List Link × NodeId)
  | 0, _ => .error .endless
  | bound + 1, i => do
    if (← t.symbolId i) = cons then
      let item ← t.successor i 0
      let (items, last) ← t.listWithin cons bound (← t.successorSkip i 1)
      return (item :: items, last)
    else
      return ([], i)

/-- Brackets around a list that ends in the first constructor of its type; otherwise the elements
and the rest, with colons between them. -/
def showList (t : TermGraph) (sub : Printer) (i : NodeId) (alone : Bool) :
    Except Fault String := do
  match (← t.symbol i).kind with
  | .constructor dataType _ =>
    let (items, last) ← t.listWithin (← t.symbolId i) t.depthBound i
    if (← t.symbol last).kind = .constructor dataType 0 then
      let texts ← items.mapM fun a => sub a true
      return "[" ++ String.intercalate ", " texts ++ "]"
    else
      let texts ← items.mapM fun a => sub a false
      let rest ← sub (some last) false
      return parenthesized (!alone) (String.intercalate " : " (texts ++ [rest]))
  | _ => t.showApplicative sub i alone

def showChoice (t : TermGraph) (sub : Printer) (i : NodeId) (alone : Bool) :
    Except Fault String := do
  let left ← sub (← t.successor i 0) false
  let id ← t.aux i
  let right ← sub (← t.successor i 1) false
  return parenthesized (!alone) (left ++ s!" ?{id} " ++ right)

/-- A negative number inside another term stands in parentheses. -/
def showLiteral (t : TermGraph) (i : NodeId) (alone : Bool) : Except Fault String := do
  let negative :=
    match ← t.literal? i with
    | some (.int v) => decide (v < 0)
    | some (.float v) => v.isNegative
    | _ => false
  return parenthesized (negative && !alone) (← t.literalLabel i)

def showPartial (t : TermGraph) (sub : Printer) (i : NodeId) (alone : Bool) :
    Except Fault String := do
  match ← t.partialSpine i with
  | some (target, args) => showApplication sub (← t.signature.symbol target).name args alone
  | none => return "<function>"

/-- The text of a node that is no indirection. -/
def showNode (t : TermGraph) (sub : Printer) (i : NodeId) (alone : Bool) :
    Except Fault String := do
  match (← t.symbol i).shown with
  | .applicative => t.showApplicative sub i alone
  | .tuple => t.showTuple sub i
  | .list => t.showList sub i alone
  | .forward => sub (← t.successor i 0) alone
  | .choice => t.showChoice sub i alone
  | .literal => t.showLiteral i alone
  | .partialApplication => t.showPartial sub i alone

def showWithin (t : TermGraph) : Nat → Printer
  | 0, _, _ => .error .endless
  | bound + 1, l, alone => do
    t.showNode (t.showWithin bound) (← t.skip (← l.target)) alone

/-- The text of a term. -/
def showTerm (t : TermGraph) (i : NodeId) : Except Fault String :=
  t.showWithin t.depthBound (some i) true

end ChoiceGraph.TermGraph
