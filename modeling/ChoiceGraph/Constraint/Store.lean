import ChoiceGraph.Error
import ChoiceGraph.Graph.Node

/-! # Constraints between variables and between choices

A binding records under one variable that its node must equal a partner node. A normal binding is
recorded under both variables, a lazy one only under the first: its partner need not be a
variable yet. A tie says that two choices are decided the same way; ties are recorded in both
directions, each once. What a store says beyond its entries is what chains of them reach.
-/
namespace ChoiceGraph

abbrev VarId := Nat
abbrev ChoiceId := Nat

/-- A variable together with the node it is bound at. -/
structure BoundVar where
  id : VarId
  node : NodeId
  deriving DecidableEq

structure Binding where
  bound : NodeId
  partner : NodeId
  isLazy : Bool
  deriving DecidableEq

structure ConstraintStore where
  /-- Bindings under the variable they are recorded for, the oldest first. -/
  bindings : List (VarId × Binding) := []
  /-- Ordered pairs of tied choices, without repetition. -/
  ties : List (ChoiceId × ChoiceId) := []
  deriving DecidableEq

namespace ConstraintStore

def empty : ConstraintStore := {}

def addBinding (s : ConstraintStore) (id : VarId) (b : Binding) : ConstraintStore :=
  { s with bindings := s.bindings ++ [(id, b)] }

/-- Binds two variables; a lazy binding is recorded under the first one only. -/
def bind (s : ConstraintStore) (x y : BoundVar) (isLazy : Bool) : ConstraintStore :=
  let s := s.addBinding x.id { bound := x.node, partner := y.node, isLazy := isLazy }
  if isLazy then s
  else s.addBinding y.id { bound := y.node, partner := x.node, isLazy := false }

def bindingsOf (s : ConstraintStore) (id : VarId) : List Binding :=
  s.bindings.filterMap fun (x, b) => if x = id then some b else none

def addTie (s : ConstraintStore) (a b : ChoiceId) : ConstraintStore :=
  if (a, b) ∈ s.ties then s else { s with ties := s.ties ++ [(a, b)] }

/-- Ties two choices, in both directions. -/
def tie (s : ConstraintStore) (a b : ChoiceId) : ConstraintStore :=
  (s.addTie a b).addTie b a

def partnersOf (s : ConstraintStore) (id : ChoiceId) : List ChoiceId :=
  s.ties.filterMap fun (a, b) => if a = id then some b else none

def Tied (s : ConstraintStore) (a b : ChoiceId) : Prop := (a, b) ∈ s.ties

instance (s : ConstraintStore) (a b : ChoiceId) : Decidable (s.Tied a b) :=
  inferInstanceAs (Decidable (_ ∈ _))

/-- What chains of ties reach from the pending choices beyond those seen. A round settles one
pending choice, and no choice is pending twice. -/
def tiedFrom (s : ConstraintStore) : Nat → List ChoiceId → List ChoiceId → List ChoiceId
  | 0, seen, _ => seen
  | _ + 1, seen, [] => seen
  | rounds + 1, seen, a :: pending =>
    let new := (s.partnersOf a).filter (· ∉ seen)
    s.tiedFrom rounds (seen ++ new) (new ++ pending)

/-- Every choice that chains of ties connect to `id`, without `id` itself. -/
def equivalents (s : ConstraintStore) (id : ChoiceId) : List ChoiceId :=
  (s.tiedFrom (s.ties.length + 1) [id] [id]).filter (· ≠ id)

/-- The normal bindings of one variable whose partner is recognised as a variable. -/
def pairsOf (s : ConstraintStore) (varOf : NodeId → Except Fault (Option VarId)) (id : VarId) :
    Except Fault (List (BoundVar × BoundVar)) := do
  let normal := (s.bindingsOf id).filter fun b => !b.isLazy
  let pairs ← normal.mapM fun b => do
    return (← varOf b.partner).map fun p => (BoundVar.mk id b.bound, BoundVar.mk p b.partner)
  return pairs.filterMap fun p => p

/-- The ids not seen yet, in order, each once. -/
def unseen (seen : List VarId) : List VarId → List VarId
  | [] => []
  | x :: xs => if x ∈ seen then unseen seen xs else x :: unseen (x :: seen) xs

/-- The pairs of every variable that chains of normal bindings reach from the pending ones. The
variable found last is settled first. -/
def pairsFrom (s : ConstraintStore) (varOf : NodeId → Except Fault (Option VarId)) :
    Nat → List VarId → List VarId → Except Fault (List (BoundVar × BoundVar))
  | 0, _, _ => .ok []
  | _ + 1, _, [] => .ok []
  | rounds + 1, seen, x :: pending => do
    let pairs ← s.pairsOf varOf x
    let new := unseen seen (pairs.map fun p => p.2.id)
    let rest ← s.pairsFrom varOf rounds (new ++ seen) (new.reverse ++ pending)
    return pairs ++ rest

/-- The normal bindings reachable from `id`: each bound variable with its partner. -/
def boundPairs (s : ConstraintStore) (id : VarId)
    (varOf : NodeId → Except Fault (Option VarId)) : Except Fault (List (BoundVar × BoundVar)) :=
  s.pairsFrom varOf (s.bindings.length + 1) [id] [id]

/-- Both ends of every binding. -/
def nodes (s : ConstraintStore) : List NodeId :=
  s.bindings.flatMap fun (_, b) => [b.bound, b.partner]

end ConstraintStore

end ChoiceGraph
