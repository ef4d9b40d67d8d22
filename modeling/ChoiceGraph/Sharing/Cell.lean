/-! # Copy-on-write cells

A store of cells, each with a value and the number of its holders. A holder names its cell by a
handle. Sharing a cell only raises its count. A write goes to the cell itself when the count is
one and to a fresh copy otherwise, so that no other holder sees it; the decision looks at the
count alone, never at who holds the cell. A cell that nobody holds any more is emptied.
-/
namespace ChoiceGraph

abbrev Handle := Nat

structure Cell (α : Type) where
  value : α
  holders : Nat

structure Cells (α : Type) where
  slots : Array (Option (Cell α))

namespace Cells

variable {α : Type}

def empty : Cells α := { slots := #[] }

def cell? (s : Cells α) (h : Handle) : Option (Cell α) := (s.slots[h]?).join

def read? (s : Cells α) (h : Handle) : Option α := (s.cell? h).map Cell.value

def holders (s : Cells α) (h : Handle) : Nat := ((s.cell? h).map Cell.holders).getD 0

def set (s : Cells α) (h : Handle) (c : Option (Cell α)) : Cells α :=
  { slots := s.slots.setIfInBounds h c }

/-- A new cell with one holder. -/
def new (s : Cells α) (value : α) : Handle × Cells α :=
  (s.slots.size, { slots := s.slots.push (some { value := value, holders := 1 }) })

/-- One holder more. -/
def share (s : Cells α) (h : Handle) : Cells α :=
  match s.cell? h with
  | some c => s.set h (some { c with holders := c.holders + 1 })
  | none => s

/-- One holder less. -/
def release (s : Cells α) (h : Handle) : Cells α :=
  match s.cell? h with
  | some c => s.set h (if c.holders ≤ 1 then none else some { c with holders := c.holders - 1 })
  | none => s

/-- A write through `h` would copy. -/
def needsCopy (s : Cells α) (h : Handle) : Bool := decide (1 < s.holders h)

/-- Changes the value seen through `h` by `f`; the handle to go on with. -/
def write (s : Cells α) (h : Handle) (f : α → α) : Handle × Cells α :=
  match s.cell? h with
  | some c =>
    if 1 < c.holders then (s.release h).new (f c.value)
    else (h, s.set h (some { c with value := f c.value }))
  | none => (h, s)

end Cells

end ChoiceGraph
