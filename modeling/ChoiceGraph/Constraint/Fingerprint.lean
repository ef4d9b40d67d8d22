import ChoiceGraph.Constraint.Store

/-! # Fingerprints

The decisions made along one path of the search: a side for each choice decided so far. A choice
is decided once; a later decision about it changes nothing.
-/
namespace ChoiceGraph

inductive Side
  | left
  | right
  deriving DecidableEq

structure Fingerprint where
  /-- The decisions, the latest first; no choice occurs twice. -/
  decisions : List (ChoiceId × Side) := []

namespace Fingerprint

def empty : Fingerprint := {}

def get? (f : Fingerprint) (id : ChoiceId) : Option Side := f.decisions.lookup id

/-- Decides `id` unless it is decided already. -/
def set (f : Fingerprint) (id : ChoiceId) (side : Side) : Fingerprint :=
  if (f.get? id).isSome then f else { decisions := (id, side) :: f.decisions }

/-- The same decisions, in whatever order they were made. -/
def same (f g : Fingerprint) : Bool :=
  f.decisions.all (fun (id, side) => g.get? id == some side) &&
    g.decisions.all (fun (id, side) => f.get? id == some side)

end Fingerprint

end ChoiceGraph
