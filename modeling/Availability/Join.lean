import Availability.FactTable
import Availability.Graph

/-! The fact on the way into a block: all that is available on every edge that leads there. -/

namespace Availability

variable {ι Op Var : Type} [DecidableEq Op] [DecidableEq Var]

/-- Meets what the predecessors of `l` hand on, in their order. Entering the graph is an edge too,
    on which nothing is available: an entry that is also the target of an edge meets `top`. A block
    without predecessors gets `bottom`. -/
def factInto (G : Graph ι) (handsOn : Label → Except Error (Fact (AvailExpr Op Var)))
    (l : Label) : Except Error (Fact (AvailExpr Op Var)) := do
  let predecessors ← G.predecessors l
  let facts ← predecessors.mapM handsOn
  return .meetAll (if l = G.entry ∧ predecessors ≠ [] then facts ++ [.top] else facts)

end Availability
