import Mathlib.Data.Fintype.Card
import Availability.Proofs.SelfLoops
import Availability.Proofs.Worklist.Termination

/-! The worklist strategy is done after one visit per block exactly where there is no cycle.

    The visits made and the blocks waiting are together as many as there are blocks at the start,
    and never become fewer: a visit takes one block off the list and may put others in front. The
    first visit to a block always has something new to hand on, so all of its successors wait after
    it. Those that come later in the reversed leaving order are waiting already, and without a cycle
    that is all of them. On a cycle there is one that does not come later, and it costs another
    visit. -/

namespace Availability.Worklist

variable {ι Op Var : Type} [Instruction ι Op Var] [DecidableEq Op] [DecidableEq Var]
variable {G : Graph ι} {s t : State ι Op Var} {l u v x : Label}
  {fresh again waiting ls : List Label}

/-! ### One visit -/

/-- After a visit that changes what the block hands on, every successor waits. -/
theorem mem_waiting_afterVisit (hout : s.handsOn l ≠ passOn G s.handsOn l) (edge : G.Edge l x) :
    x ∈ (afterVisit G s l).waiting := by
  obtain ⟨more, heq, -, hall⟩ := foldl_await (G.successorsOf l) s.waiting
  have hwait : (afterVisit G s l).waiting = more ++ s.waiting := (if_neg hout).trans heq
  rw [hwait]
  exact hall x (Graph.mem_successorsOf.2 edge)

/-- The visits made, and those that have to be made at least. -/
def State.due (s : State ι Op Var) : Nat := s.table.visits + s.waiting.length

/-- A visit takes one block off the list, and puts others in front of the rest. -/
theorem exists_due_afterVisit (G : Graph ι) (next : s.waiting = l :: waiting) :
    ∃ more, (afterVisit G { s with waiting } l).waiting = more ++ waiting ∧
      (afterVisit G { s with waiting } l).due = s.due + more.length := by
  obtain ⟨more, hmore, -⟩ := exists_waiting_afterVisit G { s with waiting } l
  have hwait : (afterVisit G { s with waiting } l).waiting = more ++ waiting := hmore
  have hone : (afterVisit G { s with waiting } l).table.visits = s.table.visits + 1 := rfl
  refine ⟨more, hwait, ?_⟩
  rw [State.due, State.due, hone, hwait, next, List.length_append, List.length_cons]
  omega

theorem due_le_afterVisit (G : Graph ι) (next : s.waiting = l :: waiting) :
    s.due ≤ (afterVisit G { s with waiting } l).due := by
  obtain ⟨more, -, hdue⟩ := exists_due_afterVisit G next
  rw [hdue]
  exact Nat.le_add_right _ _

/-- A block that is next in line and has not been visited is the first of those that wait for their
    first visit. -/
theorem Invariant.order_eq_of_not_mem (h : Invariant G s again fresh)
    (next : s.waiting = l :: waiting) (hl : l ∉ s.table.visitOrder) :
    s.table.visitOrder ++ l :: waiting = G.postOrder.reverse := by
  have hw := h.waiting_eq
  rw [next] at hw
  cases again with
  | nil =>
    rw [hw]
    exact h.order_eq
  | cons k again =>
    cases hw
    exact absurd (h.again_visited l List.mem_cons_self) hl

/-- The first visit to a block with an edge to one that is not left before it: that one is not
    waiting, and has to. -/
theorem Invariant.due_lt_afterVisit (h : Invariant G s again fresh)
    (next : s.waiting = l :: waiting) (hl : l ∉ s.table.visitOrder) (edge : G.Edge l v)
    (hback : ¬ [v, l].Sublist G.postOrder) : s.due < (afterVisit G { s with waiting } l).due := by
  obtain ⟨more, hwait, hdue⟩ := exists_due_afterVisit G next
  have hnew : v ∉ waiting := fun hm =>
    hback ((G.mem_rest_iff (h.order_eq_of_not_mem next hl)).1 hm)
  have hout : s.handsOn l ≠ passOn G s.handsOn l := by
    rw [(h.bottom_iff l).2 hl]
    exact (passOn_ne_bottom G s.handsOn l).symm
  have hwaits : v ∈ (afterVisit G { s with waiting } l).waiting :=
    mem_waiting_afterVisit (s := { s with waiting }) hout edge
  rw [hwait] at hwaits
  have hpos := List.length_pos_of_mem ((List.mem_append.1 hwaits).resolve_right hnew)
  omega

/-! ### Without a cycle -/

/-- The first visit to a block makes no other wait that is not waiting already. -/
theorem Invariant.firstVisit_of_acyclic (hG : G.Acyclic) (h : Invariant G s [] (l :: fresh)) :
    Invariant G (afterVisit G { s with waiting := fresh } l) [] fresh := by
  obtain ⟨more, hinv⟩ := h.firstVisit
  obtain ⟨more', hwait, hmore, -⟩ := exists_waiting_afterVisit G { s with waiting := fresh } l
  have heq : more = more' := List.append_cancel_right (hinv.waiting_eq.symm.trans hwait)
  have hnil : more = [] := by
    refine List.eq_nil_iff_forall_not_mem.2 fun x hx => ?_
    obtain ⟨edge, hnew⟩ := hmore x (heq ▸ hx)
    exact hnew ((G.mem_rest_iff h.order_eq).2 (Graph.acyclic_iff.1 hG l x edge))
  exact hnil ▸ hinv

/-- A run visits the blocks that wait for their first visit, and is done. -/
theorem Invariant.exists_visits_of_acyclic (hG : G.Acyclic) (h : Invariant G s [] fresh) :
    ∃ t, Visits G s fresh t ∧ Invariant G t [] [] := by
  induction fresh generalizing s with
  | nil => exact ⟨s, .done s, h⟩
  | cons l fresh ih =>
    obtain ⟨t, hvis, ht⟩ := ih (h.firstVisit_of_acyclic hG)
    have hl : l ∈ G := h.mem_of_mem_waiting (by simp)
    exact ⟨t, .visit h.waiting_eq ((h.valid.of_waiting _).visit_eq hl) hvis, ht⟩

/-! ### On a cycle -/

/-- Once a run has visited a block with an edge to one that is not left before it, more visits are
    due than there are blocks. -/
theorem Visits.size_lt_due (edge : G.Edge u v) (hback : ¬ [v, u].Sublist G.postOrder)
    (h : Visits G (start G) ls t) (hu : u ∈ t.table.visitOrder) : G.size < t.due := by
  have hstart : (start G : State ι Op Var).due = G.size := by
    rw [State.due]
    exact (Nat.zero_add _).trans (List.length_reverse.trans G.length_postOrder)
  have hkept : G.size ≤ t.due ∧ (u ∈ t.table.visitOrder → G.size < t.due) := by
    refine h.state_induction
      (P := fun t => G.size ≤ t.due ∧ (u ∈ t.table.visitOrder → G.size < t.due))
      ⟨_, _, invariant_start G⟩ ⟨Nat.le_of_eq hstart.symm, fun hu => absurd hu List.not_mem_nil⟩ ?_
    rintro s l waiting again fresh hinv next - ⟨hle, hlt⟩
    have hkeep := due_le_afterVisit G next
    refine ⟨hle.trans hkeep, fun hu => ?_⟩
    by_cases hv : u ∈ s.table.visitOrder
    · exact (hlt hv).trans_le hkeep
    · obtain rfl := (mem_visitOrder_afterVisit.1 hu).resolve_left hv
      exact hle.trans_lt (hinv.due_lt_afterVisit next hv edge hback)
  exact hkept.2 hu

theorem Visits.size_lt_visits (hG : ¬ G.Acyclic) (h : Visits G (start G) ls t)
    (ht : Invariant G t [] []) : G.size < t.table.visits := by
  have hedge : ∃ u v, G.Edge u v ∧ ¬ [v, u].Sublist G.postOrder := by
    by_contra hno
    refine hG (Graph.acyclic_iff.2 fun u v edge => ?_)
    by_contra hback
    exact hno ⟨u, v, edge, hback⟩
  obtain ⟨u, v, edge, hback⟩ := hedge
  have hlt := h.size_lt_due edge hback (ht.mem_visitOrder edge.source_mem)
  rwa [State.due, ht.waiting_eq] at hlt

/-! ### Either way -/

/-- There are fewer labels than visits can be counted, and no two blocks share one. -/
theorem size_le_maxCount (G : Graph ι) : G.size ≤ maxCount := by
  have hinj : Function.Injective fun l : Label => l.number.toFin := by
    rintro ⟨m⟩ ⟨n⟩ h
    exact congrArg Label.mk (UInt32.toFin_inj.1 h)
  calc G.size = (G.labels.map fun l => l.number.toFin).length := by
        rw [List.length_map, Graph.labels, Block.labels, List.length_map, Graph.size]
    _ ≤ Fintype.card (Fin UInt32.size) := (G.nodup_labels.map hinj).length_le_card
    _ = UInt32.size := Fintype.card_fin _
    _ ≤ maxCount := by decide

/-- Without a cycle, one visit per block is enough and no more are made. On a cycle more are made,
    so that a limit of one visit per block cuts the run off when it has made that many. -/
theorem onePass_iff_acyclic (G : Graph ι) :
    (G.Acyclic → ∀ limit, 1 ≤ limit → ∃ table : FactTable ι Op Var,
      Availability.analyze ⟨.worklist, limit⟩ G = .ok table ∧ table.visits = G.size) ∧
    (¬ G.Acyclic →
      (∀ limit (table : FactTable ι Op Var),
        Availability.analyze ⟨.worklist, limit⟩ G = .ok table → G.size < table.visits) ∧
      ∃ stop, (Availability.analyze ⟨.worklist, 1⟩ G : Except Error (FactTable ι Op Var)) =
        .error (.convergenceTimeout G.entry stop G.size)) := by
  refine ⟨fun hG limit hlimit => ?_, fun hG => ⟨fun limit table h => ?_, ?_⟩⟩
  · have hstart : Invariant G (start G : State ι Op Var) [] G.postOrder.reverse := invariant_start G
    obtain ⟨t, hvis, ht⟩ := hstart.exists_visits_of_acyclic hG
    have hlength : G.postOrder.reverse.length = G.size :=
      List.length_reverse.trans G.length_postOrder
    have hbudget : G.postOrder.reverse.length ≤ visitCap G limit := by
      rw [hlength]
      exact Nat.le_min.2 ⟨Nat.le_mul_of_pos_left _ hlimit, size_le_maxCount G⟩
    refine ⟨t.table, hvis.run_eq_ok ht.waiting_eq hbudget, ?_⟩
    rw [hvis.visits_eq (valid_start G), hlength]
    exact Nat.zero_add _
  · obtain ⟨ls, t, hvis, ht, rfl⟩ := exists_final_of_analyze h
    exact hvis.size_lt_visits hG ht
  · obtain ⟨ls, t, hvis, ht⟩ :
        ∃ ls t, Visits G (start G : State ι Op Var) ls t ∧ Invariant G t [] [] :=
      exists_visits_start G
    have hcap : visitCap G 1 = G.size := by
      rw [visitCap, Nat.one_mul]
      exact Nat.min_eq_left (size_le_maxCount G)
    have hlong : visitCap G 1 < ls.length := by
      have hlt := hvis.size_lt_visits hG ht
      rw [hvis.visits_eq (valid_start G)] at hlt
      rw [hcap]
      exact hlt.trans_eq (Nat.zero_add _)
    obtain ⟨stop, -, herr⟩ := hvis.run_eq_error (valid_start G) hlong
    have hsweeps : (start G : State ι Op Var).table.visits + visitCap G 1 = G.size :=
      (Nat.zero_add _).trans hcap
    rw [hsweeps] at herr
    exact ⟨stop, herr⟩

theorem onePass_shortcut_not_selfLoops :
    (∃ table : FactTable (Summary Unit Nat) Unit Nat,
      Availability.analyze ⟨.worklist, 1⟩ shortcut = .ok table ∧ table.visits = 4) ∧
    ∃ stop, (Availability.analyze ⟨.worklist, 1⟩ selfLoops :
        Except Error (FactTable (Summary Unit Nat) Unit Nat)) =
      .error (.convergenceTimeout ⟨0⟩ stop 4) :=
  ⟨(onePass_iff_acyclic shortcut).1 (by decide +kernel) 1 (Nat.le_refl 1),
    ((onePass_iff_acyclic selfLoops).2 (by decide +kernel)).2⟩

end Availability.Worklist
