/-! # Configuration

The limits of one machine: the size of its node pool, the arities that get a pooled block of
successors, and the budgets of the scheduler. A configuration is checked before a machine is
built from it; a check names the first limit that makes no sense.
-/
namespace ChoiceGraph

/-- Successor lists of this length and above live in pooled blocks, shorter ones in the node. -/
def inlineBound : Nat := 3

structure Config where
  initialNodes : Nat := 4096
  growNodes : Nat := 256
  maxNodes : Nat := 4194304
  arityBound : Nat := 50
  sliceSteps : Nat := 10000
  timeAllotment : Nat := 1
  stepLimit : Option Nat := none
  deriving DecidableEq

/-- A pool of exactly `nodes` slots that never grows. -/
def Config.fixedPool (nodes : Nat) : Config :=
  { initialNodes := nodes, growNodes := 0, maxNodes := nodes }

/-- Why a configuration is refused. -/
inductive ConfigFault
  | arityBoundTooSmall (bound : Nat)
  | noInitialNodes
  | initialExceedsMaximum (initial maximum : Nat)
  | emptyBudget
  deriving DecidableEq

def ConfigFault.message : ConfigFault → String
  | arityBoundTooSmall bound => s!"arity_bound must exceed {inlineBound}, got {bound}"
  | noInitialNodes => "initial_nodes must be positive"
  | initialExceedsMaximum initial maximum =>
    s!"initial_nodes ({initial}) exceeds max_nodes ({maximum})"
  | emptyBudget => "slice_steps and time_allotment must be positive"

/-- The first limit that makes no sense, if any. -/
def Config.fault? (c : Config) : Option ConfigFault :=
  if c.arityBound ≤ inlineBound then some (.arityBoundTooSmall c.arityBound)
  else if c.initialNodes = 0 then some .noInitialNodes
  else if c.maxNodes < c.initialNodes then
    some (.initialExceedsMaximum c.initialNodes c.maxNodes)
  else if c.sliceSteps = 0 ∨ c.timeAllotment = 0 then some .emptyBudget
  else none

def Config.Valid (c : Config) : Prop := c.fault? = none

instance (c : Config) : Decidable c.Valid :=
  inferInstanceAs (Decidable (_ = _))

end ChoiceGraph
