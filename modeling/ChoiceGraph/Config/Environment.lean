import ChoiceGraph.Config
import ChoiceGraph.Text.Natural

/-! # Configuration from the environment

Each limit has one variable; what comes before its name in the environment is the caller's
business. A variable that is absent, or does not hold a count, leaves the default in place.
-/
namespace ChoiceGraph.Config

/-- The default configuration with the limits that `lookup` knows put in its place. -/
def ofEnvironment (lookup : String → Option String) : Config :=
  let value (name : String) : Option Nat := (lookup name).bind Text.count?
  let base : Config := {}
  { initialNodes := (value "INITIAL_NODES").getD base.initialNodes
    growNodes := (value "GROW_NODES").getD base.growNodes
    maxNodes := (value "MAX_NODES").getD base.maxNodes
    arityBound := (value "ARITY_BOUND").getD base.arityBound
    sliceSteps := (value "SLICE_STEPS").getD base.sliceSteps
    timeAllotment := (value "TIME_ALLOTMENT").getD base.timeAllotment
    stepLimit := value "STEP_LIMIT" <|> base.stepLimit }

end ChoiceGraph.Config
