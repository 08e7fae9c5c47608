import Availability.Proofs.Graph.CheckedOrder
import Availability.Proofs.LoopWalk.Walk
import Availability.Proofs.Worklist.Termination

/-! How an analysis can fail: it runs out of sweeps or visits, and says where it stood.

    The other errors belong to labels that name no block and to facts that are asked for too early.
    No analysis comes to them. Every block it looks up is one that a search has listed, or a
    neighbour of such a block. What a block hands on is known from the start under the worklist
    strategy, and read off the facts along it under the other, which are all computed whenever the
    next step reads them. -/

namespace Availability

variable {ι Op Var : Type} [Instruction ι Op Var] [DecidableEq Op] [DecidableEq Var]
variable {G : Graph ι} {limit : Nat}

/-- The timeouts that the analysis of a graph can end with. -/
inductive Timeout (G : Graph ι) (limit : Nat) : Strategy → Error → Prop where
  /-- A loop did not settle within `limit` sweeps: `stop` lists `start` among its successors, and
      comes no earlier in the entering order. -/
  | loop {start stop : Label} {next : List Label} (successors : G.successors stop = .ok next)
      (closing : start ∈ next) (order : G.preOrder.idxOf start ≤ G.preOrder.idxOf stop) :
      Timeout G limit .reference (.convergenceTimeout start stop limit)
  /-- All visits were used up when it was the turn of `stop`. -/
  | visits {stop : Label} (mem : stop ∈ G) :
      Timeout G limit .worklist
        (.convergenceTimeout G.entry stop (min (limit * G.size) (2 ^ 64 - 1)))

/-! ### The reference strategy -/

namespace LoopWalk

variable {walked : List Label} {loop : Loop}

omit [Instruction ι Op Var] [DecidableEq Op] [DecidableEq Var] in
/-- A loop of a walk ends no earlier than it begins. -/
theorem IsLoop.idxOf_first_le (h : IsLoop G walked loop) (hpre : walked <+: G.preOrder) :
    G.preOrder.idxOf loop.first ≤ G.preOrder.idxOf loop.last := by
  obtain ⟨earlier, later, horder⟩ := h.stretch.trans hpre.isInfix
  have hsplit : earlier ++ loop.first :: (loop.rest ++ later) = G.preOrder := by
    rw [← horder, Loop.blocks, List.append_assoc, List.cons_append]
  have hlast : loop.last ∈ loop.first :: (loop.rest ++ later) := by
    rw [← List.cons_append]
    exact List.mem_append_left _ List.getLastD_mem_cons
  have hnew : loop.last ∉ earlier := fun hm =>
    List.disjoint_of_nodup_append (hsplit ▸ G.nodup_preOrder) hm hlast
  exact Nat.le_of_not_lt fun hlt => hnew ((Graph.mem_walked_iff hsplit).2 hlt)

theorem GivesUp.timeout {e : Error} (h : GivesUp G Op Var limit e) :
    Timeout G limit .reference e := by
  obtain ⟨walked, changes, table, loop, walk, hloop, rfl, -⟩ := h
  exact .loop (Graph.successors_eq_ok hloop.closing.source_mem)
    (Graph.mem_successorsOf.2 hloop.closing) (hloop.idxOf_first_le walk.prefix_preOrder)

theorem timeout_of_analyze_eq_error {e : Error}
    (h : (Availability.analyze ⟨.reference, limit⟩ G : Except Error (FactTable ι Op Var)) =
      .error e) : Timeout G limit .reference e := by
  have hends : Ends G limit G.preOrder []
      (Availability.analyze ⟨.reference, limit⟩ G : Except Error (FactTable ι Op Var)) :=
    analyze_ends G limit
  rw [h] at hends
  cases hends with
  | error hgive => exact hgive.timeout

end LoopWalk

/-! ### The worklist strategy -/

namespace Worklist

variable {s t : State ι Op Var} {ls : List Label} {l : Label}

/-- A run visits blocks of the graph. -/
theorem Visits.mem_graph (h : Visits G s ls t) (hs : Valid G s) (hl : l ∈ ls) : l ∈ G := by
  induction h with
  | done s => exact absurd hl List.not_mem_nil
  | visit _ step _ ih =>
    obtain ⟨hmem, -, hs'⟩ := hs.of_step step
    rcases List.mem_cons.1 hl with rfl | hl
    · exact hmem
    · exact ih hs' hl

theorem timeout_of_analyze_eq_error {e : Error}
    (h : (Availability.analyze ⟨.worklist, limit⟩ G : Except Error (FactTable ι Op Var)) =
      .error e) : Timeout G limit .worklist e := by
  have hrun : run G (min (limit * G.size) (2 ^ 64 - 1)) (start G : State ι Op Var) = .error e := h
  obtain ⟨ls, t, hvis, hinv⟩ :
      ∃ ls t, Visits G (start G : State ι Op Var) ls t ∧ Invariant G t [] [] :=
    exists_visits_start G
  by_cases hle : ls.length ≤ min (limit * G.size) (2 ^ 64 - 1)
  · rw [hvis.run_eq_ok hinv.waiting_eq hle] at hrun
    cases hrun
  · obtain ⟨l, hl, herr⟩ := hvis.run_eq_error (valid_start G) (Nat.lt_of_not_le hle)
    have hzero : (start G : State ι Op Var).table.visits = 0 := rfl
    rw [hrun, hzero, Nat.zero_add] at herr
    cases herr
    exact .visits (hvis.mem_graph (valid_start G) (List.mem_of_getElem? hl))

end Worklist

/-! ### Either strategy -/

/-- An analysis gives a table or ends with a timeout that says where it stood, whatever the graph
    and the configuration. Neither search looks up a label that names no block. -/
theorem analyze_ok_or_timeout (config : Config) (G : Graph ι) :
    ((∃ table : FactTable ι Op Var, analyze config G = .ok table) ∨
      ∃ e, (analyze config G : Except Error (FactTable ι Op Var)) = .error e ∧
        Timeout G config.iterationLimit config.strategy e) ∧
    G.checkedPreOrder = .ok G.preOrder ∧ G.checkedPostOrder = .ok G.postOrder := by
  refine ⟨?_, G.checkedPreOrder_eq_ok, G.checkedPostOrder_eq_ok⟩
  cases hr : (analyze config G : Except Error (FactTable ι Op Var)) with
  | ok table => exact Or.inl ⟨table, rfl⟩
  | error e =>
    refine Or.inr ⟨e, rfl, ?_⟩
    obtain ⟨strategy, limit⟩ := config
    cases strategy with
    | reference => exact LoopWalk.timeout_of_analyze_eq_error hr
    | worklist => exact Worklist.timeout_of_analyze_eq_error hr

-- no instruction of an empty block can settle a sweep
example : analyze ⟨.reference, 7⟩ Worklist.emptyLoop = .error (.convergenceTimeout ⟨1⟩ ⟨1⟩ 7) := by
  cbv

end Availability
