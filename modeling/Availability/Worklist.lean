import Availability.Graph.Order
import Availability.Join

/-! The worklist strategy: visit blocks until no block hands on anything new.

    Every block is visited once, in reverse of the order in which a depth-first search leaves it,
    and again whenever a predecessor hands on a changed fact. A first visit computes the facts along
    the block, and any other computes them again in place. The blocks still to be visited form a
    stack without repetitions. A run is cut off when it has used up the visits it was allowed. -/

namespace Availability

/-- The largest count or limit: both are 64-bit numbers. -/
def maxCount : Nat := UInt64.size - 1

namespace Worklist

/-- A run between two visits. -/
structure State (ι Op Var : Type) where
  table : FactTable ι Op Var
  /-- What each block hands its successors. -/
  out : LabelMap (Fact (AvailExpr Op Var))
  /-- The blocks that have been visited. -/
  seen : ItemSet Label
  /-- The blocks still to be visited, next one first. -/
  waiting : List Label

variable {ι Op Var : Type}

/-- What `l` hands its successors, or an error that names `l` if that is not known. -/
def State.handsOn? (s : State ι Op Var) (l : Label) : Except Error (Fact (AvailExpr Op Var)) :=
  (s.out.get? l).elim (.error (.unknownBlock l)) .ok

/-- What `l` hands its successors, and `bottom` if that is not known. -/
def State.handsOn (s : State ι Op Var) (l : Label) : Fact (AvailExpr Op Var) :=
  (s.out.get? l).getD .bottom

/-- Puts a block next in line, unless it is waiting already. -/
def await (waiting : List Label) (l : Label) : List Label :=
  if l ∈ waiting then waiting else l :: waiting

/-- Every block waits, and none has been visited: all of them hand on `bottom`. -/
def start (G : Graph ι) : State ι Op Var where
  table := .empty
  out := .constant G.labels .bottom
  seen := ∅
  waiting := G.postOrder.reverse

/-- The number of visits allowed: `limit` per block, as far as it can be counted. -/
def visitCap (G : Graph ι) (limit : Nat) : Nat := min (limit * G.size) maxCount

variable [Instruction ι Op Var] [DecidableEq Op] [DecidableEq Var]

/-- Computes the facts along `l` from the fact before it, for the first time unless `l` has been
    seen. Gives the table with these facts, and what `l` hands on. -/
def computeBlock (G : Graph ι) (s : State ι Op Var) (l : Label)
    (before : Fact (AvailExpr Op Var)) :
    Except Error (FactTable ι Op Var × Fact (AvailExpr Op Var)) :=
  if l ∈ s.seen then
    let facts := refresh before (s.table.facts l)
    return (s.table.replace l facts, handedOn before facts)
  else do
    let block ← G.block l
    let facts := chain before block.code
    return (s.table.enter l facts, handedOn before facts)

/-- Visits `l`: computes the facts along it and, if what it hands on has changed, makes its
    successors wait. -/
def visit (G : Graph ι) (s : State ι Op Var) (l : Label) : Except Error (State ι Op Var) := do
  let before ← factInto G s.handsOn? l
  let (table, outgoing) ← computeBlock G s l before
  let new := outgoing.settle
  let seen := s.seen.insert l
  if s.handsOn l = new then
    return { s with table, seen }
  else
    let next ← G.successors l
    return { table, out := s.out.set l new, seen, waiting := next.foldl await s.waiting }

/-- Visits the waiting blocks until none is left, or until `budget` visits are used up. -/
def run (G : Graph ι) (budget : Nat) (s : State ι Op Var) : Except Error (FactTable ι Op Var) :=
  match s.waiting, budget with
  | [], _ => .ok s.table
  | l :: _, 0 => .error (.convergenceTimeout G.entry l s.table.visits)
  | l :: waiting, budget + 1 => do run G budget (← visit G { s with waiting } l)

/-- The facts of `G` when each block may be visited `limit` times on average. -/
def analyze (G : Graph ι) (limit : Nat) : Except Error (FactTable ι Op Var) :=
  run G (visitCap G limit) (start G)

end Worklist

end Availability
