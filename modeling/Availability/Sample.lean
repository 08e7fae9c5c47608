import Availability.ThreeAddress

/-! Sample procedures: straight-line code, two paths that join, and a loop. -/

namespace Availability.ThreeAddress

/-- A sample procedure. -/
inductive Sample where
  | straight
  | diamond
  | loop
  deriving DecidableEq

/-- The blocks of a sample, in layout order. -/
def Sample.blocks (sample : Sample) : List (Block Inst) :=
  let a : Var := ⟨0⟩
  let b : Var := ⟨1⟩
  let t₁ : Var := ⟨2⟩
  let t₂ : Var := ⟨3⟩
  let t₃ : Var := ⟨4⟩
  let i : Var := ⟨5⟩
  match sample with
  | .straight =>
    [block ⟨0⟩ [.binary .add t₁ a b, .const a 5, .binary .add t₂ a b, .ret]]
  | .diamond =>
    [block ⟨0⟩ [.binary .add t₁ a b, .branch t₁ ⟨1⟩ ⟨2⟩],
     block ⟨1⟩ [.binary .mul t₂ a b, .jump ⟨3⟩],
     block ⟨2⟩ [.const a 1, .jump ⟨3⟩],
     block ⟨3⟩ [.binary .add t₃ a b, .ret]]
  | .loop =>
    [block ⟨0⟩ [.binary .add t₁ a b, .const i 0, .jump ⟨1⟩],
     block ⟨1⟩ [.binary .lt t₂ i b, .branch t₂ ⟨2⟩ ⟨3⟩],
     block ⟨2⟩ [.binary .add t₃ a b, .binary .add i i t₃, .jump ⟨1⟩],
     block ⟨3⟩ [.ret]]

end Availability.ThreeAddress
