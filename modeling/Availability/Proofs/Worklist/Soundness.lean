import Availability.Proofs.Machine
import Availability.Proofs.Worklist.FixedPoint

/-! What the worklist strategy lists may be reused.

    Wherever a machine comes from the entry, in whatever store it started and whatever the
    instructions do within their effects, the holder of each listed expression has the value that
    computing the expression again would give. -/

namespace Availability.Worklist

variable {ι Op Var Val Mem : Type} [Instruction ι Op Var] [DecidableEq Op] [DecidableEq Var]
  {G : Graph ι}

/-- An expression listed before an instruction has its value in its holder whenever an execution is
    about to run the instruction; one listed after it, whenever the instruction has just run. -/
theorem holdsIn_of_available {limit : Nat} {table : FactTable ι Op Var}
    (h : Availability.analyze ⟨.worklist, limit⟩ G = .ok table) (M : Meaning Op Val Mem)
    (σ : Store Var Val Mem) {m : Machine Var Val Mem}
    (hm : Relation.ReflTransGen (Machine.Step G M) ⟨⟨G.entry, 0⟩, σ⟩ m) :
    (∀ e, table.AvailableBefore m.loc e → e.HoldsIn M m.store) ∧
      ∀ i τ e, (G.codeOf m.loc.block)[m.loc.index]? = some i → Admissible M i m.store τ →
        table.AvailableAfter m.loc e → e.HoldsIn M τ := by
  obtain ⟨ls, s, -, hinv, rfl⟩ := exists_final_of_analyze h
  have hsol : ∀ l ∈ G, s.handsOn l = passOn G s.handsOn l :=
    fun l hl => (hinv.settled_of_mem hl).handsOn_eq
  have hsound := Machine.sound_of_reaches hsol hm
  have hfacts := (hinv.settled_of_mem hsound.block_mem).facts_eq
  constructor
  · rintro e ⟨f, hf, he⟩
    rw [before?_of_facts_eq hfacts] at hf
    obtain ⟨i, -, rfl⟩ := Option.map_eq_some_iff.1 hf
    exact hsound.holds e he
  · rintro i τ e hi hadm ⟨f, hf, he⟩
    rw [after?_of_facts_eq hfacts, hi, List.take_add_one, hi, Option.toList_some,
      transferAll_concat] at hf
    cases hf
    exact hadm.holdsIn_transfer hsound.holds e he

/-- Every operator adds up its operands. -/
def sums : Meaning Unit Nat Unit where
  compute := fun _ vs => vs.foldr Nat.add 0
  read := fun _ vs _ => vs.foldr Nat.add 0

/-- An execution that goes twice through the empty block. -/
theorem reaches_emptyLoop :
    Relation.ReflTransGen (Machine.Step emptyLoop sums)
      ⟨⟨emptyLoop.entry, 0⟩, ⟨fun v => v + 5, ()⟩⟩
      ⟨⟨⟨2⟩, 0⟩, ⟨fun v => if v = 2 then 11 else v + 5, ()⟩⟩ := by
  have hadm : Admissible sums (⟨.pure ⟨(), [0, 1]⟩, some 2⟩ : Summary Unit Nat)
      ⟨fun v => v + 5, ()⟩ ⟨fun v => if v = 2 then 11 else v + 5, ()⟩ := by
    constructor
    · intro v hv
      have h2 : v ≠ 2 := fun h2 => hv (congrArg some h2.symm)
      exact if_neg h2
    · exact fun _ _ => rfl
    · rintro x v hx hv
      cases hx
      cases hv
      rfl
    · rintro x v hx
      cases hx
  have h₀ : (⟨0⟩, ⟨1⟩) ∈ Block.edges emptyLoop.blocks := by decide
  have h₁ : (⟨1⟩, ⟨1⟩) ∈ Block.edges emptyLoop.blocks := by decide
  have h₂ : (⟨1⟩, ⟨2⟩) ∈ Block.edges emptyLoop.blocks := by decide
  exact (((Relation.ReflTransGen.single (.exec rfl hadm)).tail (.jump h₀)).tail (.jump h₁)).tail
    (.jump h₂)

theorem holdsIn_emptyLoop :
    ∃ table, Availability.analyze ⟨.worklist, 2⟩ emptyLoop = .ok table ∧
      table.AvailableBefore ⟨⟨2⟩, 0⟩ ⟨⟨(), [0, 1]⟩, 2, false⟩ ∧
      AvailExpr.HoldsIn sums ⟨⟨(), [0, 1]⟩, 2, false⟩
        ⟨fun v => if v = 2 then 11 else v + 5, ()⟩ := by
  obtain ⟨table, h, he⟩ := exists_analyze_emptyLoop_eq_ok
  exact ⟨table, h, he, (holdsIn_of_available h sums _ reaches_emptyLoop).1 _ he⟩

end Availability.Worklist
