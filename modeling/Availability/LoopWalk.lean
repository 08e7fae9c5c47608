import Availability.Graph.Order
import Availability.Join
import Availability.Loop

/-! The reference strategy: walk the blocks in the order in which a depth-first search enters them,
    and go through a loop again whenever an edge closes one.

    Going through a loop again is done in sweeps. A sweep takes the blocks of the loop in turn and
    replays their facts from what their predecessors hand on; after each block, the edges that close
    a shorter loop are followed before the sweep goes on. The first instruction whose fact after it
    comes out as it was ends the loop at once: the rest of the stretch keeps the facts it has. A
    loop that needs more than `limit` sweeps is given up. -/

namespace Availability

namespace LoopWalk

/-- How far a walk has come. -/
structure State (ι Op Var : Type) where
  table : FactTable ι Op Var
  /-- The blocks that have been visited. -/
  visited : ItemSet Label

/-- How one pass over some instructions or blocks ended. -/
inductive Pass (α : Type) where
  /-- A fact came out as it was, and the pass ended there. -/
  | settled (result : α)
  /-- Every fact changed. -/
  | changed (result : α)

/-- A pass whose result is carried on by `f`. -/
def Pass.map {α β : Type} (f : α → β) : Pass α → Pass β
  | .settled a => .settled (f a)
  | .changed a => .changed (f a)

variable {ι Op Var : Type} [Instruction ι Op Var] [DecidableEq Op] [DecidableEq Var]

/-- Replays the facts along a block from a new fact before it, up to the first instruction whose
    fact after it does not change. -/
def replay (before : Fact (AvailExpr Op Var)) :
    List (Annotated ι Op Var) → Except Error (Pass (List (Annotated ι Op Var)))
  | [] => .ok (.changed [])
  | a :: facts => do
    let old ← a.after
    let new := (a.setBefore before).compute
    if old = new.flow then
      return .settled (new :: facts)
    else
      return (← replay new.flow facts).map (new :: ·)

/-- Follows an edge to `target` from the last block swept: a loop that it closes is handed to
    `again`, unless it is the loop being swept. -/
def followEdge (loop : Loop)
    (again : (r : Loop) → r.size < loop.size → FactTable ι Op Var →
      Except Error (FactTable ι Op Var))
    (swept todo : List Label) (h : swept ++ todo = loop.blocks) (table : FactTable ι Op Var)
    (target : Label) : Except Error (FactTable ι Op Var) :=
  match hc : Loop.closedBy? swept target with
  | none => .ok table
  | some inner =>
    if hne : inner = loop then .ok table else again inner (Loop.size_lt h hc hne) table

/-- Sweeps the blocks `todo` of a loop, `swept` being done; shorter loops are handed to `again`. -/
def sweep (G : Graph ι) (loop : Loop)
    (again : (r : Loop) → r.size < loop.size → FactTable ι Op Var →
      Except Error (FactTable ι Op Var)) :
    (swept todo : List Label) → swept ++ todo = loop.blocks → FactTable ι Op Var →
      Except Error (Pass (FactTable ι Op Var))
  | _, [], _, table => .ok (.changed table)
  | swept, l :: todo, h, table => do
    match ← replay (← factInto G table.handsOn l) (table.facts l) with
    | .settled facts => return .settled (table.replace l facts)
    | .changed facts =>
      let swept' := swept ++ [l]
      have h' : swept' ++ todo = loop.blocks := (List.append_assoc swept [l] todo).trans h
      let targets ← G.successors l
      let table ← targets.foldlM (followEdge loop again swept' todo h') (table.replace l facts)
      sweep G loop again swept' todo h' table

/-- Sweeps a loop until a fact comes out as it was, `remaining` of `limit` sweeps being left. -/
def sweepAll (G : Graph ι) (limit : Nat) (loop : Loop)
    (again : (r : Loop) → r.size < loop.size → FactTable ι Op Var →
      Except Error (FactTable ι Op Var)) :
    (remaining : Nat) → FactTable ι Op Var → Except Error (FactTable ι Op Var)
  | 0, _ => .error (.convergenceTimeout loop.first loop.last limit)
  | remaining + 1, table => do
    match ← sweep G loop again [] loop.blocks rfl table with
    | .settled table => return table
    | .changed table => sweepAll G limit loop again remaining table

/-- Goes through a loop again until it settles, and through the shorter loops on its way. -/
def settleLoop (G : Graph ι) (limit : Nat) (loop : Loop) (table : FactTable ι Op Var) :
    Except Error (FactTable ι Op Var) :=
  sweepAll G limit loop (fun inner _ table => settleLoop G limit inner table) limit table
termination_by loop.size

/-- Follows an edge from the block visited last to `target`: if that has been visited before, the
    edge closes a loop, which is gone through again. -/
def closeLoop (G : Graph ι) (limit : Nat) (visited : ItemSet Label) (table : FactTable ι Op Var)
    (target : Label) : Except Error (FactTable ι Op Var) :=
  if target ∈ visited then
    match Loop.closedBy? table.visitOrder target with
    | none => .error (.unknownBlock target)
    | some loop => settleLoop G limit loop table
  else .ok table

/-- Visits `l` for the first time and goes again through every loop that its edges close. -/
def visit (G : Graph ι) (limit : Nat) (s : State ι Op Var) (l : Label) :
    Except Error (State ι Op Var) := do
  let before ← factInto G s.table.handsOn l
  let visited := s.visited.insert l
  let block ← G.block l
  let table := s.table.enter l (chain before block.code)
  (block.successors.foldlM (closeLoop G limit visited) table).map (⟨·, visited⟩)

/-- The facts of `G` when each loop may take `limit` sweeps. -/
def analyze (G : Graph ι) (limit : Nat) : Except Error (FactTable ι Op Var) :=
  (G.preOrder.foldlM (visit G limit) ⟨.empty, ∅⟩).map State.table

end LoopWalk

end Availability
