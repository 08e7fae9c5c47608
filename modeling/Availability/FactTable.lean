import Availability.Annotated

/-! Everything an analysis knows: the facts along every visited block, the order in which blocks
    were first visited, and how many visits there were in all.

    `enter` is for the first visit to a block and `replace` for all others. Neither asks which of
    the two it is: that a block is listed once and has one fact per instruction is up to those who
    visit it. -/

namespace Availability

/-- One instruction of a graph: its block and its place in the block. -/
structure Location where
  block : Label
  index : Nat

/-- The facts along the blocks visited so far. -/
structure FactTable (ι Op Var : Type) where
  /-- The facts along each visited block. -/
  blocks : LabelMap (List (Annotated ι Op Var))
  /-- The blocks in the order of their first visits. -/
  visitOrder : List Label
  /-- The number of visits, repeated ones included. -/
  visits : Nat

namespace FactTable

variable {ι Op Var : Type}

/-- No block is visited yet. -/
def empty : FactTable ι Op Var := ⟨.empty, [], 0⟩

variable (table : FactTable ι Op Var)

/-- Where a block stands in the order of first visits. -/
def position? (l : Label) : Option Nat := table.visitOrder.idxOf? l

/-- The facts along a block; none for a block that is empty or not visited. -/
def facts (l : Label) : List (Annotated ι Op Var) := (table.blocks.get? l).getD []

/-- Counts a visit to `l` that puts it at the end of the order, and adds these facts to those along
    it. -/
def enter (l : Label) (facts : List (Annotated ι Op Var)) : FactTable ι Op Var where
  blocks := table.blocks.set l (table.facts l ++ facts)
  visitOrder := table.visitOrder ++ [l]
  visits := table.visits + 1

/-- Counts a visit to `l` that leaves these facts along it, in place of those it had. -/
def replace (l : Label) (facts : List (Annotated ι Op Var)) : FactTable ι Op Var where
  blocks := table.blocks.set l facts
  visitOrder := table.visitOrder
  visits := table.visits + 1

/-! ### Queries -/

/-- The instruction at a location, with the facts around it. -/
def annotated? (loc : Location) : Option (Annotated ι Op Var) :=
  (table.facts loc.block)[loc.index]?

/-- The fact before the instruction at a location. -/
def before? (loc : Location) : Option (Fact (AvailExpr Op Var)) :=
  (table.annotated? loc).map Annotated.before

/-- The fact after the instruction at a location. -/
def after? (loc : Location) : Option (Fact (AvailExpr Op Var)) :=
  (table.annotated? loc).bind Annotated.after?

/-- The fact before the instruction at a location lists `e`. -/
def AvailableBefore (loc : Location) (e : AvailExpr Op Var) : Prop :=
  ∃ f, table.before? loc = some f ∧ e ∈ f

/-- The fact after the instruction at a location lists `e`. -/
def AvailableAfter (loc : Location) (e : AvailExpr Op Var) : Prop :=
  ∃ f, table.after? loc = some f ∧ e ∈ f

/-- What a block hands its successors: the fact after its last instruction, and `bottom` from a
    block without facts. -/
def handsOn (l : Label) : Except Error (Fact (AvailExpr Op Var)) :=
  match (table.facts l).getLast? with
  | some a => a.after
  | none => .ok .bottom

variable [DecidableEq Op] [DecidableEq Var]

/-- Decides whether there is a fact and it lists `e`. -/
def decidableListed (f? : Option (Fact (AvailExpr Op Var))) (e : AvailExpr Op Var) :
    Decidable (∃ f, f? = some f ∧ e ∈ f) :=
  match f? with
  | some f => decidable_of_iff (e ∈ f) (by simp)
  | none => isFalse (by simp)

instance (loc : Location) (e : AvailExpr Op Var) : Decidable (table.AvailableBefore loc e) :=
  decidableListed (table.before? loc) e

instance (loc : Location) (e : AvailExpr Op Var) : Decidable (table.AvailableAfter loc e) :=
  decidableListed (table.after? loc) e

end FactTable

end Availability
