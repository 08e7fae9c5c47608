import Mathlib.Algebra.BigOperators.Group.Finset.Piecewise
import Mathlib.Algebra.GroupWithZero.Nat
import Mathlib.Algebra.Order.BigOperators.Group.Finset
import Availability.Proofs.Descent
import Availability.Proofs.Worklist.AllPaths
import Availability.Proofs.Worklist.Termination

/-! How many visits the worklist strategy makes where every block can be reached.

    There every block is visited after one of its predecessors, so facts only shrink and each block
    changes what it hands on no more often than its credit allows. A change makes at most the
    successors of the block wait. Counting the waiting blocks, and for each edge the credit of the
    block that it leaves, every visit lowers the sum. -/

namespace Availability

variable {ι Op Var : Type}

/-! ### Counting edges -/

namespace Graph

variable (G : Graph ι)

/-- The edges of a graph, one for a successor that is repeated. -/
def edgeSet : Finset (Label × Label) := (Block.edges G.blocks).toFinset

/-- The number of predecessors that the blocks of a graph have, all blocks taken together. -/
def predecessorCount : Nat := (G.labels.map fun l => (G.predecessorsOf l).length).sum

variable {G}

theorem mem_edgeSet {u v : Label} : (u, v) ∈ G.edgeSet ↔ G.Edge u v := List.mem_toFinset

theorem card_edges_into {l : Label} (hl : l ∈ G) :
    (G.edgeSet.filter fun e => e.2 = l).card = (G.predecessorsOf l).length := by
  have himage : (G.edgeSet.filter fun e => e.2 = l) =
      (G.predecessorsOf l).toFinset.image fun p => (p, l) := by
    ext ⟨p, k⟩
    rw [Finset.mem_filter, mem_edgeSet, Finset.mem_image]
    constructor
    · rintro ⟨hp, rfl⟩
      exact ⟨p, List.mem_toFinset.2 ((mem_predecessorsOf hl).2 hp), rfl⟩
    · rintro ⟨q, hq, heq⟩
      obtain ⟨rfl, rfl⟩ := Prod.mk.inj heq
      exact ⟨(mem_predecessorsOf hl).1 (List.mem_toFinset.1 hq), rfl⟩
  rw [himage, Finset.card_image_of_injective _ fun p q h => (Prod.mk.inj h).1,
    List.toFinset_card_of_nodup (G.nodup_predecessorsOf l)]

theorem card_edgeSet : G.edgeSet.card = G.predecessorCount := by
  have hmaps : ∀ e ∈ G.edgeSet, e.2 ∈ G.labels.toFinset := fun e he =>
    List.mem_toFinset.2 (G.closed e (List.mem_toFinset.1 he))
  have hn : G.labels.Nodup := G.nodup_labels
  rw [Finset.card_eq_sum_card_fiberwise hmaps, predecessorCount, ← List.sum_toFinset _ hn]
  exact Finset.sum_congr rfl fun l hl => card_edges_into (List.mem_toFinset.1 hl)

/-- Different successors of a block lie on different edges. -/
theorem length_le_card_edges_from {l : Label} {targets : List Label} (hn : targets.Nodup)
    (ht : ∀ x ∈ targets, G.Edge l x) :
    targets.length ≤ (G.edgeSet.filter fun e => e.1 = l).card := by
  rw [← List.toFinset_card_of_nodup hn]
  refine Finset.card_le_card_of_injOn (fun x => (l, x)) (fun x hx => ?_) ?_
  · have hx' : x ∈ targets := List.mem_toFinset.1 hx
    exact Finset.mem_filter.2 ⟨mem_edgeSet.2 (ht x hx'), rfl⟩
  · intro x _ y _ hxy
    exact (Prod.mk.inj hxy).2

end Graph

namespace Worklist

variable [Instruction ι Op Var] [DecidableEq Op] [DecidableEq Var]
variable {G : Graph ι} {s t : State ι Op Var} {l : Label} {again fresh waiting ls : List Label}

/-! ### One visit -/

theorem nodup_foldl_await (ls : List Label) {waiting : List Label} (h : waiting.Nodup) :
    (ls.foldl await waiting).Nodup := by
  induction ls generalizing waiting with
  | nil => exact h
  | cons l ls ih =>
    rw [List.foldl_cons, await]
    by_cases hl : l ∈ waiting
    · rw [if_pos hl]
      exact ih h
    · rw [if_neg hl]
      exact ih (List.nodup_cons.2 ⟨hl, h⟩)

theorem nodup_waiting_afterVisit (h : s.waiting.Nodup) : (afterVisit G s l).waiting.Nodup := by
  rw [afterVisit]
  split
  · exact h
  · exact nodup_foldl_await _ h

/-- The waiting blocks, and for each edge the credit of the block that it leaves. -/
def potential (G : Graph ι) (s : State ι Op Var) : Nat :=
  s.waiting.length + ∑ e ∈ G.edgeSet, credit G (s.handsOn e.1)

/-- A change lowers the credit on every edge that leaves the block. -/
theorem sum_credit_update_le (h : Descending G s.handsOn) (hl : l ∈ G)
    (hchange : s.handsOn l ≠ passOn G s.handsOn l) :
    ∑ e ∈ G.edgeSet, credit G ((afterVisit G s l).handsOn e.1) +
        (G.edgeSet.filter fun e => e.1 = l).card ≤
      ∑ e ∈ G.edgeSet, credit G (s.handsOn e.1) := by
  rw [Finset.card_filter, ← Finset.sum_add_distrib, handsOn_afterVisit]
  refine Finset.sum_le_sum fun e _ => ?_
  by_cases he : e.1 = l
  · rw [if_pos he, he, Function.update_self]
    exact h.credit_lt hl hchange
  · rw [if_neg he, Function.update_of_ne he]
    exact Nat.le_refl _

/-- Every visit lowers the potential. -/
theorem potential_afterVisit_lt (h : Descending G s.handsOn) (hn : s.waiting.Nodup)
    (hw : s.waiting = l :: waiting) (hl : l ∈ G) :
    potential G (afterVisit G { s with waiting } l) < potential G s := by
  obtain ⟨more, hwait, hmore, hsame, -⟩ := exists_waiting_afterVisit G { s with waiting } l
  have hnodup : (more ++ waiting).Nodup := by
    rw [← hwait]
    exact nodup_waiting_afterVisit (List.nodup_cons.1 (hw ▸ hn)).2
  have hlen : (afterVisit G { s with waiting } l).waiting.length =
      more.length + waiting.length := by
    rw [hwait, List.length_append]
  have hlen' : s.waiting.length = waiting.length + 1 := by
    rw [hw, List.length_cons]
  rw [potential, potential, hlen, hlen']
  by_cases hout : s.handsOn l = passOn G s.handsOn l
  · -- nothing has to wait, and the block hands on what it did before
    have hhands : (afterVisit G { s with waiting } l).handsOn = s.handsOn := by
      rw [handsOn_afterVisit]
      exact (congrArg (Function.update s.handsOn l) hout.symm).trans (Function.update_eq_self l _)
    rw [hhands, hsame hout, List.length_nil]
    omega
  · have hpush := Graph.length_le_card_edges_from (List.nodup_append.1 hnodup).1
      fun x hx => (hmore x hx).1
    have hsum : ∑ e ∈ G.edgeSet, credit G ((afterVisit G { s with waiting } l).handsOn e.1) +
          (G.edgeSet.filter fun e => e.1 = l).card ≤
        ∑ e ∈ G.edgeSet, credit G (s.handsOn e.1) :=
      sum_credit_update_le (s := { s with waiting }) h hl hout
    omega

/-! ### Whole runs -/

/-- A run has no more visits than its potential allows. -/
theorem Visits.visits_add_potential_le (hreach : ∀ l ∈ G, G.Reachable l) (h : Visits G s ls t)
    (hinv : ∃ again fresh, Invariant G s again fresh) (hd : Descending G s.handsOn)
    (hn : s.waiting.Nodup) :
    t.table.visits + potential G t ≤ s.table.visits + potential G s := by
  have hkept : Descending G t.handsOn ∧ t.waiting.Nodup ∧
      t.table.visits + potential G t ≤ s.table.visits + potential G s := by
    refine h.state_induction (P := fun t => Descending G t.handsOn ∧ t.waiting.Nodup ∧
      t.table.visits + potential G t ≤ s.table.visits + potential G s)
      hinv ⟨hd, hn, Nat.le_refl _⟩ ?_
    rintro t l waiting again fresh hinv next hl ⟨hd, hn, hle⟩
    refine ⟨?_, nodup_waiting_afterVisit (List.nodup_cons.1 (next ▸ hn)).2, ?_⟩
    · rw [handsOn_afterVisit]
      exact hd.update hl (hinv.fed next (hreach l hl))
    · have hlt := potential_afterVisit_lt hd hn next hl
      have hone : (afterVisit G { t with waiting } l).table.visits = t.table.visits + 1 := rfl
      omega
  exact hkept.2.2

theorem potential_start (G : Graph ι) :
    potential G (start G : State ι Op Var) =
      G.size + ((G.generated : Finset (AvailExpr Op Var)).card + 2) * G.predecessorCount := by
  have hcredit : ∀ e ∈ G.edgeSet, credit G ((start G : State ι Op Var).handsOn e.1) =
      (G.generated : Finset (AvailExpr Op Var)).card + 2 := fun e _ => by
    rw [handsOn_start, credit_bottom]
  have hwaiting : (start G : State ι Op Var).waiting.length = G.size :=
    (List.length_reverse).trans G.length_postOrder
  rw [potential, hwaiting, Finset.sum_const_nat hcredit, Graph.card_edgeSet, Nat.mul_comm]

/-- Where every block can be reached, the worklist strategy ends after one visit per block and, for
    each predecessor of a block, one visit for each expression that the graph generates and two
    more. A limit that allows so many visits is not exceeded. -/
theorem exists_table_visits_le (hreach : ∀ l ∈ G, G.Reachable l) {limit : Nat}
    (hcap : G.size + ((G.generated : Finset (AvailExpr Op Var)).card + 2) * G.predecessorCount ≤
      min (limit * G.size) (2 ^ 64 - 1)) :
    ∃ table : FactTable ι Op Var, Availability.analyze ⟨.worklist, limit⟩ G = .ok table ∧
      table.visits ≤
        G.size + ((G.generated : Finset (AvailExpr Op Var)).card + 2) * G.predecessorCount := by
  obtain ⟨ls, final, hvis, hinv⟩ :
      ∃ ls t, Visits G (start G : State ι Op Var) ls t ∧ Invariant G t [] [] :=
    exists_visits_start G
  have hvisits : final.table.visits = ls.length :=
    (hvis.visits_eq (valid_start G)).trans (Nat.zero_add _)
  have hlen : final.table.visits ≤
      G.size + ((G.generated : Finset (AvailExpr Op Var)).card + 2) * G.predecessorCount := by
    have hle := hvis.visits_add_potential_le hreach ⟨_, _, invariant_start G⟩
      (descending_bottom (handsOn_start G)) (List.nodup_reverse.2 G.nodup_postOrder)
    have hnone : (start G : State ι Op Var).table.visits = 0 := rfl
    rw [hnone, potential_start] at hle
    omega
  refine ⟨final.table, hvis.run_eq_ok hinv.waiting_eq ?_, hlen⟩
  rw [← hvisits]
  exact hlen.trans hcap

theorem exists_table_emptyLoop_visits_le :
    emptyLoop.size + ((emptyLoop.generated : Finset (AvailExpr Unit Nat)).card + 2) *
        emptyLoop.predecessorCount = 12 ∧
      ∃ table, Availability.analyze ⟨.worklist, 4⟩ emptyLoop = .ok table ∧ table.visits ≤ 12 := by
  have hbound : emptyLoop.size + ((emptyLoop.generated : Finset (AvailExpr Unit Nat)).card + 2) *
      emptyLoop.predecessorCount = 12 := by decide
  have hcap : emptyLoop.size + ((emptyLoop.generated : Finset (AvailExpr Unit Nat)).card + 2) *
      emptyLoop.predecessorCount ≤ min (4 * emptyLoop.size) (2 ^ 64 - 1) := by
    rw [hbound]
    decide
  obtain ⟨table, htable, hvisits⟩ := exists_table_visits_le reachable_emptyLoop hcap
  exact ⟨hbound, table, htable, hvisits.trans_eq hbound⟩

end Worklist

end Availability
