import ChoiceGraph.Constraint.Fingerprint
import ChoiceGraph.Sharing.Cell

/-! # Frames and their queue

A frame is one pending alternative of a search: the node to reduce and the cells that hold its
fingerprint and its constraints. A forked frame shares both cells with its parent until one of
the two writes. A computation is the queue of frames of one search, the front one first.
-/
namespace ChoiceGraph

structure Frame where
  node : Link
  fingerprint : Handle
  constraints : Handle
  /-- Collections the frame may survive before it loses its turn. -/
  allotment : Nat
  /-- The frame waits for a variable. -/
  suspended : Bool

structure Computation where
  queue : List Frame
  fingerprints : Cells Fingerprint
  stores : Cells ConstraintStore

namespace Computation

def idle : Computation := { queue := [], fingerprints := .empty, stores := .empty }

/-- A search with a single frame and nothing decided. -/
def start (root : Link) (allotment : Nat) : Computation :=
  let (fingerprint, fingerprints) := Cells.empty.new Fingerprint.empty
  let (constraints, stores) := Cells.empty.new ConstraintStore.empty
  { queue := [{ node := root, fingerprint := fingerprint, constraints := constraints
                allotment := allotment, suspended := false }]
    fingerprints := fingerprints
    stores := stores }

def front? (c : Computation) : Option Frame := c.queue.head?

def fingerprintOf (c : Computation) (f : Frame) : Fingerprint :=
  (c.fingerprints.read? f.fingerprint).getD .empty

def constraintsOf (c : Computation) (f : Frame) : ConstraintStore :=
  (c.stores.read? f.constraints).getD .empty

/-- Sends the front frame to the back. -/
def rotate (c : Computation) : Computation :=
  match c.queue with
  | [] => c
  | f :: rest => { c with queue := rest ++ [f] }

/-- Lets go of the cells of a frame that has left the queue. -/
def release (c : Computation) (f : Frame) : Computation :=
  { c with
    fingerprints := c.fingerprints.release f.fingerprint
    stores := c.stores.release f.constraints }

/-- Drops the front frame. -/
def dropFront (c : Computation) : Computation :=
  match c.queue with
  | [] => c
  | f :: rest => ({ c with queue := rest } : Computation).release f

/-- Drops every frame. -/
def clear (c : Computation) : Computation :=
  c.queue.foldl release { c with queue := [] }

/-- A sibling of `f` that shares its cells. The queue stays as it is. -/
def fork (c : Computation) (f : Frame) (node : Link) (allotment : Nat) : Frame × Computation :=
  ({ f with node := node, allotment := allotment, suspended := false },
   { c with
     fingerprints := c.fingerprints.share f.fingerprint
     stores := c.stores.share f.constraints })

def pushBack (c : Computation) (f : Frame) : Computation := { c with queue := c.queue ++ [f] }

/-- Writes the fingerprint of `f`; the frame to go on with. -/
def writeFingerprint (c : Computation) (f : Frame) (update : Fingerprint → Fingerprint) :
    Frame × Computation :=
  let (h, cells) := c.fingerprints.write f.fingerprint update
  ({ f with fingerprint := h }, { c with fingerprints := cells })

/-- Writes the constraints of `f`; the frame to go on with. -/
def writeConstraints (c : Computation) (f : Frame) (update : ConstraintStore → ConstraintStore) :
    Frame × Computation :=
  let (h, cells) := c.stores.write f.constraints update
  ({ f with constraints := h }, { c with stores := cells })

/-- Puts a frame in the place of the one at position `i`. -/
def putFrame (c : Computation) (i : Nat) (f : Frame) : Computation :=
  { c with queue := c.queue.set i f }

/-- Writes the fingerprint of the queued frame at position `i`. -/
def updateFingerprint (c : Computation) (i : Nat) (update : Fingerprint → Fingerprint) :
    Computation :=
  match c.queue[i]? with
  | none => c
  | some f =>
    let (f, c) := c.writeFingerprint f update
    c.putFrame i f

/-- Writes the constraints of the queued frame at position `i`. -/
def updateConstraints (c : Computation) (i : Nat) (update : ConstraintStore → ConstraintStore) :
    Computation :=
  match c.queue[i]? with
  | none => c
  | some f =>
    let (f, c) := c.writeConstraints f update
    c.putFrame i f

/-- Both ends of every binding of a queued frame, and the frames' own nodes. -/
def roots (c : Computation) : List Link :=
  c.queue.flatMap fun f => f.node :: (c.constraintsOf f).nodes.map some

end Computation

end ChoiceGraph
