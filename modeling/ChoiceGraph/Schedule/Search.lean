import ChoiceGraph.Schedule.Turn

/-! # Searches

A search enumerates the values of one node. Each value is handed to a visitor together with the
machine as it is at that moment, its frame still in front; the visitor may end the search. What
the visitor has gathered survives however the search ends. A search leaves the root stack, the
outer searches and the outer slice as it found them.
-/
namespace ChoiceGraph.Schedule

/-- Whether a visitor has seen enough. -/
inductive Flow
  | more
  | enough
  deriving DecidableEq

/-- Looks at a value and adds to what was gathered before. -/
abbrev Visitor (σ : Type) := Machine → NodeId → σ → Except Fault (σ × Flow)

/-- What a search has gathered, and how it ended. -/
structure Found (σ : Type) where
  gathered : σ
  ending : EStateM.Result Stop Machine Stats

variable {σ : Type}

/-- Takes turns until the queue is empty or the search is ended. -/
def takeTurns (normal : NodeId → Eff Unit) (visit : Visitor σ) :
    Nat → Stats → σ → Machine → Found σ
  | 0, _, s, m => ⟨s, .error .outOfFuel m⟩
  | turns + 1, st, s, m =>
    match turn normal st m with
    | .error e m => ⟨s, .error e m⟩
    | .ok (st, .over) m => ⟨s, .ok st m⟩
    | .ok (st, .again) m => takeTurns normal visit turns st s m
    | .ok (st, .value i) m =>
      match visit m i s with
      | .error e => ⟨s, .error (.fault e) m⟩
      | .ok (s, .more) => takeTurns normal visit turns st s (m.mapInnermost Computation.dropFront)
      | .ok (s, .enough) =>
        ⟨s, .ok st ((m.mapInnermost Computation.dropFront).mapInnermost Computation.clear)⟩

/-- Starts a search for the values of `root` inside those under way. -/
def enter (root : Link) (m : Machine) : Machine :=
  { m with
    roots := root :: m.roots
    computations := .start root m.config.timeAllotment :: m.computations }

/-- Forgets the innermost search and goes on with the slice that was left for it. -/
def leave (outer : Slice) (m : Machine) : Machine :=
  { m with roots := m.roots.tail, computations := m.computations.tail, slice := outer }

/-- Enumerates the values of `root`. -/
def search (normal : NodeId → Eff Unit) (turns : Nat) (visit : Visitor σ) (root : Link) (s : σ)
    (m : Machine) : Found σ :=
  let outer := m.slice
  let before := m.collections
  let found := takeTurns normal visit turns {} s (enter root m)
  match found.ending with
  | .ok st m => ⟨found.gathered, .ok { st with collections := m.collections - before } (leave outer m)⟩
  | .error e m => ⟨found.gathered, .error e (leave outer m)⟩

/-- A search as a part of a larger effect. -/
def gather (normal : NodeId → Eff Unit) (turns : Nat) (visit : Visitor σ) (root : Link) (s : σ) :
    Eff (σ × Stats) := fun m =>
  let found := search normal turns visit root s m
  match found.ending with
  | .ok st m => .ok (found.gathered, st) m
  | .error e m => .error e m

end ChoiceGraph.Schedule
