import ChoiceGraph.Machine.Heap

/-! # Turns of the scheduler

In one turn the front frame of the innermost search is normalized for one slice. What its node
has become decides: a failure or a function drops the frame, a value is handed out, a choice
forks the frame or is followed if the frame has decided it, and a frame that was interrupted goes
to the back of the queue. A value keeps its frame in front until it has been looked at.
-/
namespace ChoiceGraph

structure Stats where
  solutions : Nat := 0
  steps : Nat := 0
  forks : Nat := 0
  failures : Nat := 0
  /-- Frames whose node normalized to a function. -/
  violations : Nat := 0
  /-- Frames dropped because every frame left was waiting for a variable. -/
  floundered : Nat := 0
  preemptions : Nat := 0
  collections : Nat := 0
  stepLimitHit : Bool := false
  deriving DecidableEq

/-- What a fingerprint and the ties between choices say about one choice. -/
inductive Decision
  | undecided
  | taken (side : Side)
  /-- The choice is tied to choices decided both ways. -/
  | conflict
  deriving DecidableEq

def Decision.ofSides (sides : List Side) : Decision :=
  if .left ∈ sides ∧ .right ∈ sides then .conflict
  else
    match sides with
    | [] => .undecided
    | side :: _ => .taken side

/-- What is decided about `id`, by itself or through a choice tied to it. -/
def Fingerprint.decide (f : Fingerprint) (s : ConstraintStore) (id : ChoiceId) : Decision :=
  .ofSides ((id :: s.equivalents id).filterMap f.get?)

namespace Computation

/-- How a choice of the front frame was resolved. -/
inductive Resolution
  | forked
  | followed
  | failed
  deriving DecidableEq

/-- Resolves the choice `id` at the front frame: drops the frame if the choice cannot be decided
consistently, follows it if it is decided, and forks the frame to the back otherwise, the left
alternative first. -/
def resolve (c : Computation) (id : ChoiceId) (left right : Link) (allotment : Nat) :
    Resolution × Computation :=
  match c.queue with
  | [] => (.failed, c)
  | f :: rest =>
    match (c.fingerprintOf f).decide (c.constraintsOf f) id with
    | .conflict => (.failed, c.dropFront)
    | .taken side =>
      let node := match side with
        | .left => left
        | .right => right
      (.followed, { c with queue := { f with node := node, suspended := false } :: rest })
    | .undecided =>
      let c := { c with queue := rest }
      let (l, c) := c.fork f left allotment
      let (l, c) := c.writeFingerprint l (·.set id .left)
      let r := { f with node := right, allotment := allotment, suspended := false }
      let (r, c) := c.writeFingerprint r (·.set id .right)
      (.forked, (c.pushBack l).pushBack r)

/-- Sends the front frame to the back with a full allotment. -/
def requeue (c : Computation) (allotment : Nat) (suspended : Bool) : Computation :=
  match c.queue with
  | [] => c
  | f :: _ => (c.putFrame 0 { f with allotment := allotment, suspended := suspended }).rotate

def allSuspended (c : Computation) : Bool := c.queue.all Frame.suspended

end Computation

namespace Schedule

open Eff

/-- What a turn leaves to be done. -/
inductive Outcome
  | again
  | value (node : NodeId)
  | over
  deriving DecidableEq

def dropFront : Eff Unit := modify fun m => m.mapInnermost Computation.dropFront

def abandon : Eff Unit := modify fun m => m.mapInnermost Computation.clear

def requeue (suspended : Bool) : Eff Unit :=
  modify fun m => m.mapInnermost fun c => c.requeue m.config.timeAllotment suspended

/-- Puts the node that an indirection led to into the front frame. -/
def setFrontNode (l : Link) : Eff Unit := modify fun m => m.mapInnermost fun c =>
  match c.queue with
  | [] => c
  | f :: rest => { c with queue := { f with node := l } :: rest }

/-- Resolves the choice `id` at the front frame of the innermost search. -/
def resolveFront (m : Machine) (id : ChoiceId) (left right : Link) :
    Computation.Resolution × Machine :=
  match m.computations with
  | [] => (.failed, m)
  | c :: rest =>
    let m := { m with computations := [] }
    let (resolution, c) := c.resolve id left right m.config.timeAllotment
    (resolution, { m with computations := c :: rest })

/-- Resolves the choice that the front frame was normalized to. -/
def fork (choice : NodeId) (st : Stats) : Eff Stats := do
  let id ← look (·.aux choice)
  let left ← look (·.successor choice 0)
  let right ← look (·.successor choice 1)
  match ← modifyGet fun m => resolveFront m id left right with
  | .failed => return { st with failures := st.failures + 1 }
  | .followed => return st
  | .forked => return { st with forks := st.forks + 1 }

/-- Acts on the front frame once its node is normalized. -/
def dispatch : Nat → NodeId → Stats → Eff (Stats × Outcome)
  | 0, _, _ => fault .endless
  | bound + 1, i, st => do
    match ← look (·.tag i) with
    | .failure =>
      dropFront
      return ({ st with failures := st.failures + 1 }, .again)
    | .forward =>
      let next ← look (·.successor i 0)
      setFrontNode next
      dispatch bound (← look fun _ => next.target) st
    | .choice => return (← fork i st, .again)
    | .operation =>
      dropFront
      return ({ st with violations := st.violations + 1 }, .again)
    | .constructor _ => return ({ st with solutions := st.solutions + 1 }, .value i)
    | .free => return ({ st with solutions := st.solutions + 1 }, .value i)
    | .unassigned _ => fault .dangling

/-- The steps of the next slice; none when the step limit is reached. -/
def nextSlice? (c : Config) (st : Stats) : Option Nat :=
  match c.stepLimit with
  | none => some c.sliceSteps
  | some limit => if limit ≤ st.steps then none else some (min c.sliceSteps (limit - st.steps))

/-- How a normalization ended, if the scheduler can go on after it. -/
inductive Ending
  | done
  | preempted
  | suspended

/-- Runs an effect and catches the interrupts that only concern the front frame. -/
def catching (body : Eff Unit) : Eff Ending := fun m =>
  match body m with
  | .ok () m => .ok .done m
  | .error .preempted m => .ok .preempted m
  | .error (.suspended _) m => .ok .suspended m
  | .error e m => .error e m

/-- Sends a waiting frame to the back; when all frames wait, none of them can go on. -/
def suspendFront (st : Stats) : Eff (Stats × Outcome) := do
  requeue true
  match (← get).computations with
  | [] => return (st, .again)
  | c :: _ =>
    if c.allSuspended then
      abandon
      return ({ st with floundered := st.floundered + c.queue.length }, .over)
    else
      return (st, .again)

/-- Normalizes the front frame for one slice and acts on what has become of it. -/
def turn (normal : NodeId → Eff Unit) (st : Stats) : Eff (Stats × Outcome) := do
  let m ← get
  match m.front? with
  | none => return (st, .over)
  | some f =>
    match nextSlice? m.config st with
    | none => return ({ st with stepLimitHit := true }, .over)
    | some steps =>
      set { m with slice := .ofSteps steps }
      let i ← look fun _ => f.node.target
      let ending ← catching (normal i)
      let m ← get
      let st := { st with steps := st.steps + m.slice.used }
      match ending with
      | .preempted =>
        requeue false
        return ({ st with preemptions := st.preemptions + 1 }, .again)
      | .suspended => suspendFront st
      | .done => dispatch m.depthBound i st

end Schedule

end ChoiceGraph
