import Availability.Error
import Availability.Transfer

/-! The facts around one instruction, and the chain of such facts along a block.

    The fact after an instruction is computed from the fact before it, and setting a new fact before
    it discards the one after it. Along a block each instruction starts from where the one before it
    ended: `chain` computes all of these facts for the first time, `refresh` computes them again in
    place, and `handedOn` reads off what the block passes to the blocks that follow. -/

namespace Availability

/-- An instruction, the fact before it and, once computed, the fact after it. -/
structure Annotated (ι Op Var : Type) where
  instruction : ι
  before : Fact (AvailExpr Op Var)
  after? : Option (Fact (AvailExpr Op Var))

variable {ι Op Var : Type}

namespace Annotated

/-- An instruction whose fact after it is yet to be computed. -/
def fresh (i : ι) (before : Fact (AvailExpr Op Var)) : Annotated ι Op Var := ⟨i, before, none⟩

/-- Whether the fact after the instruction is computed. -/
def isComputed (a : Annotated ι Op Var) : Bool := a.after?.isSome

/-- The fact after the instruction, or an error if it is yet to be computed. -/
def after (a : Annotated ι Op Var) : Except Error (Fact (AvailExpr Op Var)) :=
  a.after?.elim (.error .notComputed) .ok

/-- Sets a new fact before the instruction; the fact after it has to be computed again. -/
def setBefore (a : Annotated ι Op Var) (before : Fact (AvailExpr Op Var)) : Annotated ι Op Var :=
  { a with before, after? := none }

variable [Instruction ι Op Var] [DecidableEq Op] [DecidableEq Var]

/-- The fact that belongs after the instruction. -/
def flow (a : Annotated ι Op Var) : Fact (AvailExpr Op Var) := transfer a.instruction a.before

/-- Computes the fact after the instruction. -/
def compute (a : Annotated ι Op Var) : Annotated ι Op Var := { a with after? := some a.flow }

end Annotated

variable [Instruction ι Op Var] [DecidableEq Op] [DecidableEq Var]

/-- The facts along `code`, computed from the fact before all of it. -/
def chain (before : Fact (AvailExpr Op Var)) : List ι → List (Annotated ι Op Var)
  | [] => []
  | i :: code =>
    let a := (Annotated.fresh i before).compute
    a :: chain a.flow code

/-- Computes facts along some code again, from a new fact before all of it. -/
def refresh (before : Fact (AvailExpr Op Var)) :
    List (Annotated ι Op Var) → List (Annotated ι Op Var)
  | [] => []
  | a :: facts =>
    let a := (a.setBefore before).compute
    a :: refresh a.flow facts

/-- What a stretch of code with these facts hands on: the last fact computed, and what was there
    before all of it if there is none. -/
def handedOn (before : Fact (AvailExpr Op Var)) (facts : List (Annotated ι Op Var)) :
    Fact (AvailExpr Op Var) :=
  facts.foldl (fun running a => a.after?.getD running) before

@[simp] theorem length_chain : ∀ (before : Fact (AvailExpr Op Var)) (code : List ι),
    (chain before code).length = code.length
  | _, [] => rfl
  | _, _ :: code => congrArg (· + 1) (length_chain _ code)

theorem map_instruction_chain : ∀ (before : Fact (AvailExpr Op Var)) (code : List ι),
    (chain before code).map Annotated.instruction = code
  | _, [] => rfl
  | _, i :: code => congrArg (i :: ·) (map_instruction_chain _ code)

/-- Facts that are computed again no longer depend on what they were. -/
theorem refresh_chain : ∀ (f before : Fact (AvailExpr Op Var)) (code : List ι),
    refresh before (chain f code) = chain before code
  | _, _, [] => rfl
  | f, before, i :: code =>
    congrArg ((Annotated.fresh i before).compute :: ·)
      (refresh_chain (transfer i f) (transfer i before) code)

/-- A chain hands on what the instructions make of the fact before them. -/
theorem handedOn_chain : ∀ (before : Fact (AvailExpr Op Var)) (code : List ι),
    handedOn before (chain before code) = transferAll code before
  | _, [] => rfl
  | before, i :: code => handedOn_chain (transfer i before) code

end Availability
