/-! Expressions, and expressions whose value some variable holds.

    An expression is an operator applied to variables. An available expression adds the variable
    that holds its value, so the same expression computed into two variables counts twice: after
    `t = a + b; a = 5; u = a + b` the `a + b` that is available is the one in `u`. -/

namespace Availability

/-- An operator applied to operands. -/
structure Expr (Op Var : Type) where
  op : Op
  operands : List Var
  deriving DecidableEq

/-- An expression together with the variable that holds its value. -/
structure AvailExpr (Op Var : Type) where
  expr : Expr Op Var
  holder : Var
  /-- Whether the value came from memory, so that a write to memory may make it stale. -/
  readsMemory : Bool
  deriving DecidableEq

variable {Op Var : Type}

/-- An expression reads the variables among its operands. -/
def Expr.Reads (x : Expr Op Var) (v : Var) : Prop := v ∈ x.operands

/-- A new value in `v` makes `e` stale: `v` holds `e` or is read by it. -/
def AvailExpr.DependsOn (e : AvailExpr Op Var) (v : Var) : Prop := e.holder = v ∨ e.expr.Reads v

variable [DecidableEq Var]

instance (x : Expr Op Var) (v : Var) : Decidable (x.Reads v) :=
  inferInstanceAs (Decidable (v ∈ x.operands))

instance (e : AvailExpr Op Var) (v : Var) : Decidable (e.DependsOn v) :=
  inferInstanceAs (Decidable (e.holder = v ∨ e.expr.Reads v))

end Availability
