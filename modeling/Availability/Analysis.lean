import Availability.LoopWalk
import Availability.Worklist

/-! The analysis: which expressions are available before and after every instruction of a graph. -/

namespace Availability

/-- How an analysis goes through the graph. -/
inductive Strategy where
  /-- In discovery order, going again through each loop that an edge closes. -/
  | reference
  /-- From a list of blocks whose incoming facts may have changed. -/
  | worklist
  deriving DecidableEq

/-- The limit of an analysis that is not told one. -/
def defaultIterationLimit : Nat := 10000

/-- How to analyze. -/
structure Config where
  strategy : Strategy := .worklist
  /-- The sweeps allowed per loop, or the visits allowed per block, as the strategy counts. -/
  iterationLimit : Nat := defaultIterationLimit
  deriving DecidableEq

variable {ι Op Var : Type} [Instruction ι Op Var] [DecidableEq Op] [DecidableEq Var]

/-- The facts before and after every instruction of `G`, or a timeout. -/
def analyze (config : Config) (G : Graph ι) : Except Error (FactTable ι Op Var) :=
  match config.strategy with
  | .reference => LoopWalk.analyze G config.iterationLimit
  | .worklist => Worklist.analyze G config.iterationLimit

end Availability
