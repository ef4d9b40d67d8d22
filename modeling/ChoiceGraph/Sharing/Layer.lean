import ChoiceGraph.Sharing.Cell

/-! # Cells inside cells

A value may hold handles, and the values in those cells may hold handles again. A layer says how
values of one kind are treated in the memory that holds their cells: a copy of a value has one
holder more for each handle in it, a value that goes away has one less, and a cell that nobody
holds any more takes the value in it along. Layers are built by nesting. -/
namespace ChoiceGraph

/-- Values of type `α`, whose cells are in a memory of type `L`, read as an `R`. -/
structure Layer (α L R : Type) where
  /-- A memory without cells. -/
  bare : L
  fresh : L → α × L
  share : α → L → L
  drop : α → L → L
  view : L → α → R
  /-- What a fresh value reads. -/
  blank : R

namespace Layer

variable {α β L M R S : Type}

/-- Values without handles. -/
def plain (start : β) (read : β → R) : Layer β Unit R where
  bare := ()
  fresh l := (start, l)
  share _ l := l
  drop _ l := l
  view _ b := read b
  blank := read start

/-- Values in cells. The value of a cell without holders goes away. -/
def shared (inner : Layer α L R) : Layer Handle (Cells α × L) R where
  bare := (.empty, inner.bare)
  fresh m :=
    let (a, l) := inner.fresh m.2
    let (h, cells) := m.1.new a
    (h, cells, l)
  share h m := (m.1.share h, m.2)
  drop h m :=
    (m.1.release h,
      match m.1.cell? h with
      | some c => if c.holders ≤ 1 then inner.drop c.value m.2 else m.2
      | none => m.2)
  view m h := ((m.1.read? h).map (inner.view m.2)).getD inner.blank
  blank := inner.blank

/-- Changes the value seen through `h` by `f`, which works on a copy when the cell has other
holders. -/
def write (inner : Layer α L R) (f : α → L → α × L) (h : Handle) (m : Cells α × L) :
    Handle × Cells α × L :=
  match m.1.cell? h with
  | none => (h, m)
  | some c =>
    let (a, l) := f c.value (if m.1.needsCopy h then inner.share c.value m.2 else m.2)
    let (k, cells) := m.1.write h fun _ => a
    (k, cells, l)

/-- Values under keys. -/
def keyed (inner : Layer α L R) : Layer (List (Nat × α)) L (Nat → R) where
  bare := inner.bare
  fresh l := ([], l)
  share entries l := entries.foldr (fun e l => inner.share e.2 l) l
  drop entries l := entries.foldr (fun e l => inner.drop e.2 l) l
  view l entries key := ((entries.lookup key).map (inner.view l)).getD inner.blank
  blank _ := inner.blank

/-- Changes the value under `key` by `f`; a key without a value gets a fresh one first. -/
def entry (inner : Layer α L R) (f : α → L → α × L) (key : Nat) :
    List (Nat × α) → L → List (Nat × α) × L
  | [], l =>
    let (a, l) := inner.fresh l
    let (a, l) := f a l
    ([(key, a)], l)
  | (other, a) :: rest, l =>
    if key = other then
      let (a, l) := f a l
      ((other, a) :: rest, l)
    else
      let (rest, l) := inner.entry f key rest l
      ((other, a) :: rest, l)

/-- Two values side by side, each in its own memory. -/
def pair (first : Layer α L R) (second : Layer β M S) : Layer (α × β) (L × M) (R × S) where
  bare := (first.bare, second.bare)
  fresh m :=
    let (a, l) := first.fresh m.1
    let (b, k) := second.fresh m.2
    ((a, b), l, k)
  share p m := (first.share p.1 m.1, second.share p.2 m.2)
  drop p m := (first.drop p.1 m.1, second.drop p.2 m.2)
  view m p := (first.view m.1 p.1, second.view m.2 p.2)
  blank := (first.blank, second.blank)

def onFirst (f : α → L → α × L) (p : α × β) (m : L × M) : (α × β) × L × M :=
  let (a, l) := f p.1 m.1
  ((a, p.2), l, m.2)

def onSecond (f : β → M → β × M) (p : α × β) (m : L × M) : (α × β) × L × M :=
  let (b, k) := f p.2 m.2
  ((p.1, b), m.1, k)

end Layer

end ChoiceGraph
