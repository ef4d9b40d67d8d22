import ChoiceGraph.Constraint.Buckets
import ChoiceGraph.Schedule.Frame

/-! # A queue over layered memory

The queue of one search, its stores laid out in memory in any way. What can be done to its frames
is the same for every layout; a search itself runs on flat stores. -/
namespace ChoiceGraph

/-- What is done to the frames of a queue. Frames are named by their positions. -/
inductive QueueAct
  | fork (i : Nat) (node : Link) (allotment : Nat)
  | rotate
  | pop
  | decide (i : Nat) (id : ChoiceId) (side : Side)
  | bind (i : Nat) (x y : BoundVar) (isLazy : Bool)
  | tie (i : Nat) (a b : ChoiceId)

structure Lineup (γ M : Type) where
  queue : List Frame
  fingerprints : Cells Fingerprint × Unit
  stores : Cells γ × M

namespace Lineup

variable {γ M : Type}

def fingerprintLayer : Layer Fingerprint Unit Fingerprint := .plain .empty fun f => f

/-- A single frame, its cells fresh. -/
def start (y : StoreLayout γ M) (root : Link) (allotment : Nat) : Lineup γ M :=
  let (fingerprint, fingerprints) := fingerprintLayer.shared.fresh fingerprintLayer.shared.bare
  let (constraints, stores) := y.layer.shared.fresh y.layer.shared.bare
  { queue := [{ node := root, fingerprint := fingerprint, constraints := constraints
                allotment := allotment, suspended := false }]
    fingerprints := fingerprints
    stores := stores }

def fingerprintOf (q : Lineup γ M) (f : Frame) : Fingerprint :=
  fingerprintLayer.shared.view q.fingerprints f.fingerprint

def entriesOf (y : StoreLayout γ M) (q : Lineup γ M) (f : Frame) : Entries :=
  y.layer.shared.view q.stores f.constraints

/-- Writes the fingerprint of the frame at position `i`. -/
def updateFingerprint (q : Lineup γ M) (i : Nat) (update : Fingerprint → Fingerprint) :
    Lineup γ M :=
  match q.queue[i]? with
  | none => q
  | some f =>
    let (h, cells) := fingerprintLayer.write (fun v l => (update v, l)) f.fingerprint q.fingerprints
    { q with queue := q.queue.set i { f with fingerprint := h }, fingerprints := cells }

/-- Writes the store of the frame at position `i`. -/
def updateStore (y : StoreLayout γ M) (q : Lineup γ M) (i : Nat) (update : γ → M → γ × M) :
    Lineup γ M :=
  match q.queue[i]? with
  | none => q
  | some f =>
    let (h, cells) := y.layer.write update f.constraints q.stores
    { q with queue := q.queue.set i { f with constraints := h }, stores := cells }

def act (y : StoreLayout γ M) (q : Lineup γ M) : QueueAct → Lineup γ M
  | .fork i node allotment =>
    match q.queue[i]? with
    | none => q
    | some f =>
      { queue := q.queue ++ [{ f with node := node, allotment := allotment, suspended := false }]
        fingerprints := fingerprintLayer.shared.share f.fingerprint q.fingerprints
        stores := y.layer.shared.share f.constraints q.stores }
  | .rotate =>
    match q.queue with
    | [] => q
    | f :: rest => { q with queue := rest ++ [f] }
  | .pop =>
    match q.queue with
    | [] => q
    | f :: rest =>
      { queue := rest
        fingerprints := fingerprintLayer.shared.drop f.fingerprint q.fingerprints
        stores := y.layer.shared.drop f.constraints q.stores }
  | .decide i id side => q.updateFingerprint i fun v => v.set id side
  | .bind i x z isLazy => q.updateStore y i (y.bind x z isLazy)
  | .tie i a b => q.updateStore y i (y.tie a b)

def run (y : StoreLayout γ M) (q : Lineup γ M) (acts : List QueueAct) : Lineup γ M :=
  acts.foldl (act y) q

end Lineup

namespace Computation

/-- The same on the queue of a running search. -/
def act (c : Computation) : QueueAct → Computation
  | .fork i node allotment =>
    match c.queue[i]? with
    | none => c
    | some f =>
      let (sibling, c) := c.fork f node allotment
      c.pushBack sibling
  | .rotate => c.rotate
  | .pop => c.dropFront
  | .decide i id side => c.updateFingerprint i fun v => v.set id side
  | .bind i x y isLazy => c.updateConstraints i fun s => s.bind x y isLazy
  | .tie i a b => c.updateConstraints i fun s => s.tie a b

/-- A search as a queue over flat stores. -/
def lineup (c : Computation) : Lineup ConstraintStore Unit :=
  { queue := c.queue, fingerprints := (c.fingerprints, ()), stores := (c.stores, ()) }

end Computation

end ChoiceGraph
