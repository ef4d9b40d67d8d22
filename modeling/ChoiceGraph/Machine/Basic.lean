import ChoiceGraph.Schedule.Frame
import ChoiceGraph.Symbol.Prelude
import ChoiceGraph.TermGraph.Basic

/-! # The machine

A machine owns a term graph, the stack of explicit roots, the stack of searches that are under
way, the next unused identifier, and the budget of the frame that is being reduced. An effect
runs on a machine; when it stops early, the machine it leaves is the one it had reached.
-/
namespace ChoiceGraph

/-- The budget of the frame in front. -/
structure Slice where
  /-- Steps it may still take; no number means no limit. -/
  remaining : Option Nat
  used : Nat
  /-- The frame has used up its collections. -/
  preempt : Bool

namespace Slice

def unbounded : Slice := { remaining := none, used := 0, preempt := false }

def ofSteps (steps : Nat) : Slice := { remaining := some steps, used := 0, preempt := false }

def isOver (s : Slice) : Bool := s.preempt || s.remaining == some 0

def spend (s : Slice) : Slice :=
  { s with remaining := s.remaining.map (· - 1), used := s.used + 1 }

end Slice

structure Machine extends TermGraph where
  config : Config
  /-- Explicit roots, the last one pushed first. -/
  roots : List Link
  /-- The searches under way, the innermost first. -/
  computations : List Computation
  nextId : Nat
  slice : Slice
  collections : Nat

namespace Machine

/-- A machine for a configuration that is taken as it is. -/
def ofConfig (c : Config) : Machine :=
  { signature := .standard
    graph := .ofConfig c
    config := c
    roots := []
    computations := []
    nextId := 0
    slice := .unbounded
    collections := 0 }

/-- A machine for a configuration that makes sense. -/
def new (c : Config) : Except Error Machine :=
  match c.fault? with
  | some fault => .error (.invalidConfig fault)
  | none => .ok (ofConfig c)

/-- The frame being reduced: the front one of the innermost search. -/
def front? (m : Machine) : Option Frame := m.computations.head?.bind Computation.front?

/-- The constraints of the frame being reduced. -/
def frontConstraints? (m : Machine) : Option ConstraintStore :=
  m.computations.head?.bind fun c => c.front?.map c.constraintsOf

/-- What a collection keeps: explicit roots, and the nodes and bindings of every frame. -/
def rootSet (m : Machine) : List Link := m.roots ++ m.computations.flatMap Computation.roots

/-- Frames queued in all searches. -/
def pendingFrames (m : Machine) : Nat := m.computations.foldr (fun c frames => c.queue.length + frames) 0

/-- Changes the innermost search. -/
def mapInnermost (m : Machine) (f : Computation → Computation) : Machine :=
  match m.computations with
  | [] => m
  | c :: rest => { m with computations := f c :: rest }

def setGraph (m : Machine) (g : Graph) : Machine := { m with graph := g }

end Machine

abbrev Eff := EStateM Stop Machine

namespace Eff

variable {α : Type}

/-- Reads from the machine; a fault stops the effect. -/
def look (f : Machine → Except Fault α) : Eff α := fun m =>
  match f m with
  | .ok a => .ok a m
  | .error e => .error (.fault e) m

def fault (e : Fault) : Eff α := throw (.fault e)

def fatal (e : Error) : Eff α := throw (.fatal e)

/-- Keeps `links` on the root stack while `body` runs, however it ends. -/
def withRoots (links : List Link) (body : Eff α) : Eff α := fun m =>
  match body { m with roots := links.reverse ++ m.roots } with
  | .ok a m => .ok a { m with roots := m.roots.drop links.length }
  | .error e m => .error e { m with roots := m.roots.drop links.length }

end Eff

end ChoiceGraph
