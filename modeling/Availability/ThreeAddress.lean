import Availability.Graph
import Availability.Instruction

/-! A small three-address instruction set: enough to write down a procedure by hand.

    Binary operations and loads compute tracked expressions, stores and calls write memory, and the
    rest only moves values or control. A block whose last instruction is a branch, a jump or a
    return takes its successors from it. Every piece has a written form, constructor by
    constructor. -/

namespace Availability.ThreeAddress

/-- A variable. -/
structure Var where
  number : Nat
  deriving DecidableEq

/-- Operations on two variables. -/
inductive BinOp where
  | add
  | sub
  | mul
  | and
  | or
  | lt
  deriving DecidableEq

/-- What an expression can apply. -/
inductive Op where
  | binary (op : BinOp)
  | load
  deriving DecidableEq

/-- An instruction. -/
inductive Inst where
  /-- Sets `dst` to a constant. -/
  | const (dst : Var) (value : Int)
  /-- Sets `dst` to the result of an operation. -/
  | binary (op : BinOp) (dst src₁ src₂ : Var)
  /-- Sets `dst` to the value of `src`. -/
  | copy (dst src : Var)
  /-- Sets `dst` to what memory holds at `addr`. -/
  | load (dst addr : Var)
  /-- Sets memory at `addr` to the value of `src`. -/
  | store (addr src : Var)
  /-- Calls with the given arguments; `dst`, if any, gets the result. -/
  | call (dst : Option Var) (args : List Var)
  /-- Goes to `target₁` if `cond` is not zero, else to `target₂`. -/
  | branch (cond : Var) (target₁ target₂ : Label)
  /-- Goes to `target`. -/
  | jump (target : Label)
  /-- Leaves the procedure. -/
  | ret
  deriving DecidableEq

namespace Inst

/-- What an instruction does, as far as available expressions are concerned. -/
def effect : Inst → Effect Op Var
  | .binary op _ src₁ src₂ => .pure ⟨.binary op, [src₁, src₂]⟩
  | .load _ addr => .load ⟨.load, [addr]⟩
  | .store _ _ => .store
  | .call _ _ => .unknown
  | _ => .other

/-- The variable that an instruction gives a new value. -/
def defines : Inst → Option Var
  | .const dst _ => some dst
  | .binary _ dst _ _ => some dst
  | .copy dst _ => some dst
  | .load dst _ => some dst
  | .call dst _ => dst
  | _ => none

/-- Where control may go after an instruction that ends a block; `none` for any other. -/
def targets? : Inst → Option (List Label)
  | .branch _ target₁ target₂ => some [target₁, target₂]
  | .jump target => some [target]
  | .ret => some []
  | _ => none

end Inst

instance : Instruction Inst Op Var where
  effect := Inst.effect
  defines := Inst.defines

/-- A block whose successors are the targets of its last instruction, and none if that does not end
    a block. -/
def block (label : Label) (code : List Inst) : Block Inst :=
  ⟨label, code, (code.getLast?.bind Inst.targets?).getD []⟩

/-! ### Written forms -/

/-- A bracketed list. -/
def listText (items : List String) : String := "[" ++ ", ".intercalate items ++ "]"

def Var.text (v : Var) : String := "Var(" ++ Nat.repr v.number ++ ")"

def BinOp.text : BinOp → String
  | .add => "Add"
  | .sub => "Sub"
  | .mul => "Mul"
  | .and => "And"
  | .or => "Or"
  | .lt => "Lt"

def Op.text : Op → String
  | .binary op => "Binary(" ++ op.text ++ ")"
  | .load => "Load"

/-- A constructor with its fields. -/
def applied (name : String) (fields : List String) : String :=
  name ++ "(" ++ ", ".intercalate fields ++ ")"

def Inst.text : Inst → String
  | .const dst value => applied "Const" [dst.text, Int.repr value]
  | .binary op dst src₁ src₂ => applied "Binary" [op.text, dst.text, src₁.text, src₂.text]
  | .copy dst src => applied "Copy" [dst.text, src.text]
  | .load dst addr => applied "Load" [dst.text, addr.text]
  | .store addr src => applied "Store" [addr.text, src.text]
  | .call (some dst) args =>
    applied "Call" [applied "Some" [dst.text], listText (args.map Var.text)]
  | .call none args => applied "Call" ["None", listText (args.map Var.text)]
  | .branch cond target₁ target₂ => applied "Branch" [cond.text, target₁.record, target₂.record]
  | .jump target => applied "Jump" [target.record]
  | .ret => "Ret"

end Availability.ThreeAddress
