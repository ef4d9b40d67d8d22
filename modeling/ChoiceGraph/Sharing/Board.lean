import ChoiceGraph.Sharing.Cell

/-! # Named cells

A board gives names to cells of one store. Binding a name that is in use lets go of the cell it
had, after the new cell was taken.
-/
namespace ChoiceGraph

structure Board (α : Type) where
  cells : Cells α
  names : List (String × Handle)

namespace Board

variable {α : Type}

def empty : Board α := { cells := .empty, names := [] }

def find? (b : Board α) (name : String) : Option Handle := b.names.lookup name

def rename (name : String) (h : Handle) (names : List (String × Handle)) : List (String × Handle) :=
  (name, h) :: names.filter (fun p => p.1 != name)

/-- Binds `name` to a handle already taken from `cells`. -/
def bind (b : Board α) (name : String) (h : Handle) (cells : Cells α) : Board α :=
  { cells := match b.find? name with
      | some old => cells.release old
      | none => cells
    names := rename name h b.names }

def new (b : Board α) (name : String) (value : α) : Board α :=
  let (h, cells) := b.cells.new value
  b.bind name h cells

/-- Binds `copy` to the cell of `name`. -/
def clone? (b : Board α) (name copy : String) : Option (Board α) :=
  (b.find? name).map fun h => b.bind copy h (b.cells.share h)

def write? (b : Board α) (name : String) (f : α → α) : Option (Board α) :=
  (b.find? name).map fun h =>
    let (h, cells) := b.cells.write h f
    { cells := cells, names := rename name h b.names }

def drop? (b : Board α) (name : String) : Option (Board α) :=
  (b.find? name).map fun h =>
    { cells := b.cells.release h, names := b.names.filter (fun p => p.1 != name) }

def read? (b : Board α) (name : String) : Option α := (b.find? name).bind b.cells.read?

/-- Both names are bound to one cell. -/
def sameCell? (b : Board α) (x y : String) : Option Bool :=
  match b.find? x, b.find? y with
  | some h, some k => some (h == k)
  | _, _ => none

def needsCopy (b : Board α) (name : String) : Bool :=
  match b.find? name with
  | some h => b.cells.needsCopy h
  | none => false

/-- What each name reads, and whether a write through it would copy. -/
def contents (b : Board α) : List (String × α × Bool) :=
  b.names.filterMap fun (name, h) =>
    (b.cells.read? h).map fun value => (name, value, b.cells.needsCopy h)

end Board

end ChoiceGraph
