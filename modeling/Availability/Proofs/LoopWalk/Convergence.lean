import Availability.Proofs.Descent
import Availability.Proofs.LoopWalk.Walk

/-! The reference strategy settles every loop, where blocks have code and can be reached.

    On a walk through such a graph something can come into each block, so facts only shrink and
    every change uses up credit. A block of a loop hands on a value, which leaves it as many changes
    as the graph generates expressions. A loop that is allowed one more sweep than that is not given
    up. -/

namespace Availability.LoopWalk

variable {ι Op Var : Type} [Instruction ι Op Var] [DecidableEq Op] [DecidableEq Var]
variable {G : Graph ι} {walked changes rest : List Label} {table : FactTable ι Op Var} {l x : Label}

namespace Walk

/-- On a walk facts only shrink. -/
theorem descending (h : Walk G walked changes table) (hcode : ∀ b ∈ G.blocks, b.code ≠ [])
    (hreach : ∀ l ∈ G, G.Reachable l) : Descending G table.out := by
  refine h.table_induction (P := fun table => Descending G table.out) hcode hreach
    (descending_bottom fun _ => rfl) ?_
  intro table l hl hfed hd
  rw [out_recompute (Graph.codeOf_ne_nil hcode hl)]
  exact hd.update hl hfed

/-- Computing a block anew uses up the credit of each block whose change it notes. -/
theorem count_add_credit_again_le (h : Walk G walked changes table)
    (hcode : ∀ b ∈ G.blocks, b.code ≠ []) (hreach : ∀ l ∈ G, G.Reachable l) (hl : l ∈ walked)
    (x : Label) :
    (if (recompute G table l).out l = table.out l then changes else changes ++ [l]).count x +
        credit G ((recompute G table l).out x) ≤ changes.count x + credit G (table.out x) := by
  have hlG := h.mem_graph hl
  rcases eq_or_ne x l with rfl | hxl
  · by_cases hsame : (recompute G table x).out x = table.out x
    · rw [if_pos hsame, hsame]
    · have hout : (recompute G table x).out x = passOn G table.out x := by
        rw [out_recompute (Graph.codeOf_ne_nil hcode hlG), Function.update_self]
      have hne : table.out x ≠ passOn G table.out x := fun heq => hsame (hout.trans heq.symm)
      have hlt := (h.descending hcode hreach).credit_lt hlG hne
      rw [if_neg hsame, List.count_append, List.count_singleton_self, hout]
      omega
  · have hcount : (if (recompute G table l).out l = table.out l then changes
        else changes ++ [l]).count x = changes.count x := by
      split
      · rfl
      · rw [List.count_append, List.count_eq_zero_of_not_mem fun hm =>
          hxl (List.mem_singleton.1 hm), Nat.add_zero]
    rw [hcount, out_recompute_of_ne hxl]

/-- The changes of a block, together with those it has left, are no more than it can make. -/
theorem count_add_credit_le (h : Walk G walked changes table)
    (hcode : ∀ b ∈ G.blocks, b.code ≠ []) (hreach : ∀ l ∈ G, G.Reachable l) (hx : x ∈ walked) :
    changes.count x + credit G (table.out x) ≤
      (G.generated : Finset (AvailExpr Op Var)).card + 1 := by
  induction h with
  | start => exact absurd hx List.not_mem_nil
  | @first walked changes rest table l walk next ih =>
    rcases eq_or_ne x l with rfl | hxl
    · have hxG := Graph.mem_of_append_cons_eq next
      have hnew := (walk.first next).out_ne_bottom hx (Graph.codeOf_ne_nil hcode hxG)
      have hnone : changes.count x = 0 := List.count_eq_zero_of_not_mem fun hm =>
        Graph.not_mem_walked next (walk.changes_subset hm)
      rw [hnone, Nat.zero_add]
      exact credit_le hnew
    · rw [out_recompute_of_ne hxl]
      exact ih (by simpa [hxl] using hx)
  | again walk hl ih => exact (walk.count_add_credit_again_le hcode hreach hl x).trans (ih hx)

end Walk

/-- Where every block has code and can be reached, no loop is given up if more sweeps are allowed
    than the graph generates expressions. -/
theorem exists_table_of_card_generated_lt (hcode : ∀ b ∈ G.blocks, b.code ≠ [])
    (hreach : ∀ l ∈ G, G.Reachable l) {limit : Nat}
    (hlimit : (G.generated : Finset (AvailExpr Op Var)).card < limit) :
    ∃ table : FactTable ι Op Var, Availability.analyze ⟨.reference, limit⟩ G = .ok table := by
  have hends : Ends G limit G.preOrder []
      (Availability.analyze ⟨.reference, limit⟩ G : Except Error (FactTable ι Op Var)) :=
    analyze_ends G limit
  cases hr : (Availability.analyze ⟨.reference, limit⟩ G : Except Error (FactTable ι Op Var)) with
  | ok table => exact ⟨table, rfl⟩
  | error e =>
    rw [hr] at hends
    cases hends with
    | error hgive =>
      obtain ⟨walked, changes, table, loop, walk, hloop, -, hcount⟩ := hgive
      have hfirst : loop.first ∈ walked := hloop.stretch.subset List.mem_cons_self
      have hc := Graph.codeOf_ne_nil hcode (walk.mem_graph hfirst)
      obtain ⟨s, hs⟩ := walk.exists_out_eq_value hfirst hc
      have hmany := hcount loop.first List.mem_cons_self hc
      have hfew := walk.count_add_credit_le hcode hreach hfirst
      have hleft := credit_value_pos (G := G) s
      rw [hs] at hfew
      omega

/-- A loop behind a computation: one of its two blocks overwrites an operand. -/
def killingLoop : Graph (Summary Unit Nat) where
  blocks :=
    [⟨⟨0⟩, [⟨.pure ⟨(), [0, 1]⟩, some 3⟩], [⟨1⟩]⟩,
     ⟨⟨1⟩, [⟨.pure ⟨(), [2, 2]⟩, some 4⟩], [⟨2⟩, ⟨3⟩]⟩,
     ⟨⟨2⟩, [⟨.other, some 0⟩], [⟨1⟩]⟩,
     ⟨⟨3⟩, [⟨.other, none⟩], []⟩]
  blocks_ne_nil := by decide
  tables := _
  tables_eq := rfl

theorem reachable_killingLoop (l : Label) (hl : l ∈ killingLoop) : killingLoop.Reachable l := by
  have h₁ : killingLoop.Edge ⟨0⟩ ⟨1⟩ := show _ ∈ Block.edges killingLoop.blocks by decide
  have h₂ : killingLoop.Edge ⟨1⟩ ⟨2⟩ := show _ ∈ Block.edges killingLoop.blocks by decide
  have h₃ : killingLoop.Edge ⟨1⟩ ⟨3⟩ := show _ ∈ Block.edges killingLoop.blocks by decide
  have hm : l ∈ [(⟨0⟩ : Label), ⟨1⟩, ⟨2⟩, ⟨3⟩] := hl
  simp only [List.mem_cons, List.not_mem_nil, or_false] at hm
  rcases hm with rfl | rfl | rfl | rfl
  · exact .refl
  · exact .single h₁
  · exact .tail (.single h₁) h₂
  · exact .tail (.single h₁) h₃

theorem exists_table_killingLoop :
    (killingLoop.generated : Finset (AvailExpr Unit Nat)).card = 2 ∧
      ∃ table, Availability.analyze ⟨.reference, 3⟩ killingLoop = .ok table := by
  have hcard : (killingLoop.generated : Finset (AvailExpr Unit Nat)).card = 2 := by decide
  refine ⟨hcard, exists_table_of_card_generated_lt (by decide) reachable_killingLoop ?_⟩
  rw [hcard]
  decide

end Availability.LoopWalk
