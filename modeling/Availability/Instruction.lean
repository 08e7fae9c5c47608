import Availability.Expr

/-! What an analysis has to know about an instruction: what it does to memory and to the tracked
    expressions, and which variable it defines. Any instruction set that answers these two
    questions can be analyzed. -/

namespace Availability

/-- What an instruction does, as far as available expressions are concerned. -/
inductive Effect (Op Var : Type) where
  /-- Computes an expression without touching memory. -/
  | pure (x : Expr Op Var)
  /-- Computes an expression by reading memory. -/
  | load (x : Expr Op Var)
  /-- Writes memory. -/
  | store
  /-- May do anything, such as a call: it has to be taken for a write to memory. -/
  | unknown
  /-- Computes nothing that is tracked and leaves memory alone. -/
  | other
  deriving DecidableEq

namespace Effect

variable {Op Var : Type}

/-- Whether memory may be different afterwards. -/
def writesMemory : Effect Op Var → Bool
  | .store => true
  | .unknown => true
  | _ => false

/-- The expression computed, held in the variable that receives it. -/
def heldIn? (v : Var) : Effect Op Var → Option (AvailExpr Op Var)
  | .pure x => some ⟨x, v, false⟩
  | .load x => some ⟨x, v, true⟩
  | _ => none

end Effect

/-- An instruction set `ι` over operators `Op` and variables `Var`. -/
class Instruction (ι : Type) (Op Var : outParam Type) where
  /-- What the instruction does. -/
  effect : ι → Effect Op Var
  /-- The variable that the instruction gives a new value, if any. -/
  defines : ι → Option Var

/-- An instruction that is nothing but its effect and the variable it defines. Every combination
    is allowed: a store may define a variable, and a pure computation may define none. -/
structure Summary (Op Var : Type) where
  effect : Effect Op Var
  defines : Option Var
  deriving DecidableEq

instance (Op Var : Type) : Instruction (Summary Op Var) Op Var where
  effect := Summary.effect
  defines := Summary.defines

end Availability
