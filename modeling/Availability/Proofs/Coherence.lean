import Mathlib.Data.List.Chain
import Availability.Proofs.LoopWalk.Walk
import Availability.Proofs.Worklist.FixedPoint

/-! What every table has in common that an analysis gives, whichever strategy it followed.

    Blocks are visited again and again, and the reference strategy may leave a block in the middle
    of its code. The table shows nothing of that: it lists every block once, where the strategy
    first came to it, and the facts along a block follow one from the other. Only what comes into a
    block may be out of date. -/

namespace Availability

variable {ι Op Var : Type}

/-- The order in which a strategy first comes to the blocks of a graph. -/
def Strategy.order (G : Graph ι) : Strategy → List Label
  | .reference => G.preOrder
  | .worklist => G.postOrder.reverse

theorem Strategy.nodup_order (G : Graph ι) (strategy : Strategy) : (strategy.order G).Nodup := by
  cases strategy with
  | reference => exact G.nodup_preOrder
  | worklist => exact List.nodup_reverse.2 G.nodup_postOrder

theorem Strategy.mem_order {G : Graph ι} {strategy : Strategy} {l : Label} :
    l ∈ strategy.order G ↔ l ∈ G := by
  cases strategy with
  | reference => exact Graph.mem_preOrder
  | worklist => exact List.mem_reverse.trans G.mem_postOrder

variable [Instruction ι Op Var] [DecidableEq Op] [DecidableEq Var]

/-! ### Along a block -/

/-- The facts along a stretch of code: one for each instruction, in order. Each has been computed
    from the fact before its instruction, gives a value, and is where the next one starts. -/
structure FactsAlong (code : List ι) (facts : List (Annotated ι Op Var)) : Prop where
  instructions : facts.map Annotated.instruction = code
  computed : ∀ a ∈ facts, a.isComputed = true
  after_eq : ∀ a ∈ facts, a.after = .ok (transfer a.instruction a.before)
  exists_value : ∀ a ∈ facts, ∃ s, a.after = .ok (.value s)
  linked : facts.IsChain fun a b => a.after = .ok b.before

theorem after_of_mem_chain {f : Fact (AvailExpr Op Var)} {code : List ι} {a : Annotated ι Op Var}
    (h : a ∈ chain f code) : a.after? = some (transfer a.instruction a.before) := by
  induction code generalizing f with
  | nil => exact absurd h List.not_mem_nil
  | cons i code ih =>
    rcases List.mem_cons.1 h with rfl | h
    · rfl
    · exact ih h

theorem isChain_chain (f : Fact (AvailExpr Op Var)) (code : List ι) :
    (chain f code).IsChain fun a b => a.after = .ok b.before := by
  induction code generalizing f with
  | nil => exact List.isChain_nil
  | cons i code ih =>
    refine List.isChain_cons.2 ⟨fun b hb => ?_, ih _⟩
    -- the facts after `i` begin with what `i` has left, if there are any
    cases code with
    | nil => cases hb
    | cons j code =>
      cases hb
      rfl

theorem factsAlong_chain (f : Fact (AvailExpr Op Var)) (code : List ι) :
    FactsAlong code (chain f code) where
  instructions := map_instruction_chain f code
  computed := by
    intro a ha
    rw [Annotated.isComputed, after_of_mem_chain ha]
    rfl
  after_eq := by
    intro a ha
    rw [Annotated.after, after_of_mem_chain ha]
    rfl
  exists_value := by
    intro a ha
    rw [Annotated.after, after_of_mem_chain ha]
    exact ⟨_, rfl⟩
  linked := isChain_chain f code

/-! ### Whole tables -/

variable {G : Graph ι} {config : Config} {table : FactTable ι Op Var} {l : Label}

theorem visitOrder_of_analyze (h : analyze config G = .ok table) :
    table.visitOrder = config.strategy.order G := by
  obtain ⟨strategy, limit⟩ := config
  cases strategy with
  | reference =>
    obtain ⟨changes, walk⟩ := LoopWalk.exists_walk_of_analyze h
    exact walk.visitOrder_eq
  | worklist =>
    obtain ⟨ls, s, -, hinv, rfl⟩ := Worklist.exists_final_of_analyze h
    rw [← List.append_nil s.table.visitOrder]
    exact hinv.order_eq

theorem mem_visitOrder_of_analyze (h : analyze config G = .ok table) :
    l ∈ table.visitOrder ↔ l ∈ G := by
  rw [visitOrder_of_analyze h]
  exact Strategy.mem_order

/-- Every analysis leaves a coherent table, whatever its last visit was. -/
theorem coherent_of_analyze (h : analyze config G = .ok table) : Coherent G table := by
  obtain ⟨strategy, limit⟩ := config
  cases strategy with
  | reference =>
    obtain ⟨changes, walk⟩ := LoopWalk.exists_walk_of_analyze h
    exact walk.coherent
  | worklist =>
    obtain ⟨ls, s, -, hinv, rfl⟩ := Worklist.exists_final_of_analyze h
    exact hinv.valid.coherent

/-- The table lists every block once, where the strategy first comes to it, and has facts along the
    whole of its code. -/
structure Complete (G : Graph ι) (strategy : Strategy) (table : FactTable ι Op Var) : Prop where
  visitOrder_eq : table.visitOrder = strategy.order G
  count_eq_one : ∀ l ∈ G, table.visitOrder.count l = 1
  factsAlong : ∀ l b, G.block l = .ok b → FactsAlong b.code (table.facts l)

/-- Every table that an analysis gives is complete, however often blocks were visited and wherever a
    sweep ended. -/
theorem complete_of_analyze (h : analyze config G = .ok table) :
    Complete G config.strategy table := by
  have horder := visitOrder_of_analyze h
  constructor
  · exact horder
  · intro l hl
    rw [horder]
    exact List.count_eq_one_of_mem (config.strategy.nodup_order G) (Strategy.mem_order.2 hl)
  · intro l b hb
    obtain ⟨hl, rfl⟩ := Graph.block_eq_ok_iff.1 hb
    obtain ⟨f, hf⟩ := (coherent_of_analyze h).exists_chain l ((mem_visitOrder_of_analyze h).2 hl)
    rw [hf]
    exact factsAlong_chain f (G.codeOf l)

/-- A block with an edge to itself that a sweep leaves at the second of its three instructions. -/
def earlyExit : Graph (Summary Unit Nat) where
  blocks :=
    [⟨⟨0⟩, [⟨.pure ⟨(), [0, 1]⟩, some 3⟩], [⟨1⟩]⟩,
     ⟨⟨1⟩, [⟨.pure ⟨(), [2, 2]⟩, some 4⟩, ⟨.other, some 0⟩, ⟨.other, none⟩], [⟨1⟩, ⟨2⟩]⟩,
     ⟨⟨2⟩, [⟨.other, none⟩], []⟩]
  blocks_ne_nil := by decide
  tables := _
  tables_eq := rfl

theorem complete_earlyExit :
    ∃ ref wl, analyze ⟨.reference, 1⟩ earlyExit = .ok ref ∧
      analyze ⟨.worklist, 2⟩ earlyExit = .ok wl ∧
      ref.visits = 4 ∧ Complete earlyExit .reference ref ∧ Complete earlyExit .worklist wl := by
  have href : ((analyze ⟨.reference, 1⟩ earlyExit).toOption.any fun ref => ref.visits = 4) =
      true := by
    decide +kernel
  have hwl : ((analyze ⟨.worklist, 2⟩ earlyExit).toOption.any fun _ => true) = true := by
    decide +kernel
  obtain ⟨ref, href, hvisits⟩ := exists_eq_ok_of_any href
  obtain ⟨wl, hwl, -⟩ := exists_eq_ok_of_any hwl
  exact ⟨ref, wl, href, hwl, of_decide_eq_true hvisits, complete_of_analyze href,
    complete_of_analyze hwl⟩

end Availability
