import Availability.FactTable
import Availability.ThreeAddress

/-! A procedure written down with the facts around each of its instructions. -/

namespace Availability.ThreeAddress

/-- An available expression: its holder, its operator and its operands. -/
def availText (e : AvailExpr Op Var) : String :=
  e.holder.text ++ " = " ++ e.expr.op.text ++ listText (e.expr.operands.map Var.text)

/-- A fact; the items of a value are sorted by their written form. -/
def factText : Fact (AvailExpr Op Var) → String
  | .top => "top"
  | .bottom => "bottom"
  | .value items => "\x7b" ++ ", ".intercalate (items.sortedImage availText) ++ "\x7d"

/-- A fact that may be missing. -/
def factText? (f? : Option (Fact (AvailExpr Op Var))) : String := f?.elim "-" factText

/-- An instruction on one line, and the facts before and after it on the next two. -/
def instListing (table : FactTable Inst Op Var) (loc : Location) (inst : Inst) : String :=
  "    " ++ inst.text ++ "\n" ++
  "        in:  " ++ factText? (table.before? loc) ++ "\n" ++
  "        out: " ++ factText? (table.after? loc) ++ "\n"

/-- A block under its label. -/
def blockListing (table : FactTable Inst Op Var) (b : Block Inst) : String :=
  b.label.name ++ ":\n" ++
    String.join (b.code.mapIdx fun index inst => instListing table ⟨b.label, index⟩ inst)

/-- All blocks, in layout order. -/
def listing (G : Graph Inst) (table : FactTable Inst Op Var) : String :=
  String.join (G.blocks.map (blockListing table))

end Availability.ThreeAddress
