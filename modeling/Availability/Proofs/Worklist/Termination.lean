import Availability.Proofs.Drift
import Availability.Proofs.Worklist.FixedPoint

/-! Every run of the worklist strategy comes to an end, and the limit is only a cut-off.

    Between two first visits the run works off the blocks that wait for another visit. All of this
    time the facts drift towards the fact that was handed on last for the first time, so each visit
    either leaves fewer disagreements with it or adds no block to the list. As blocks wait in a
    stack, the next first visit has to wait until that is over and everything visited is settled
    again. A run of enough visits exists for every graph, and a limit chooses how much of it takes
    place. -/

namespace Availability.Worklist

variable {ι Op Var : Type} [Instruction ι Op Var] [DecidableEq Op] [DecidableEq Var]
variable {G : Graph ι} {s t : State ι Op Var} {l : Label} {again fresh ls : List Label}
variable {goal : Fact (AvailExpr Op Var)}

/-! ### Runs that end -/

theorem Invariant.mem_of_mem_waiting (h : Invariant G s again fresh) (hl : l ∈ again ++ fresh) :
    l ∈ G := by
  rw [G.mem_iff_of_append_eq h.order_eq]
  rcases List.mem_append.1 hl with hl | hl
  · exact Or.inl (h.again_visited l hl)
  · exact Or.inr hl

/-- In a drift, the blocks that wait for another visit are worked off. -/
theorem Invariant.exists_visits_of_drifting (h : Invariant G s again fresh)
    (hd : Drifting G goal s.handsOn) (hc : OnlyComputed G s.handsOn) :
    ∃ ls t, Visits G s ls t ∧ Invariant G t [] fresh ∧ OnlyComputed G t.handsOn := by
  -- a visit that changes nothing shortens the list, and any other leaves fewer disagreements
  induction hn : (disagreements G goal s.handsOn).card using Nat.strong_induction_on
    generalizing s again with
  | _ n ihn =>
    induction again generalizing s with
    | nil => exact ⟨[], s, .done s, h, hc⟩
    | cons l again ih =>
      have hl : l ∈ G := h.mem_of_mem_waiting (by simp)
      have hne : s.handsOn l ≠ .bottom := fun hb =>
        (h.bottom_iff l).1 hb (h.again_visited l List.mem_cons_self)
      obtain ⟨more, hinv, hmore⟩ := h.revisit
      have hout : (afterVisit G { s with waiting := again ++ fresh } l).handsOn =
          Function.update s.handsOn l (passOn G s.handsOn l) := handsOn_afterVisit
      by_cases hsame : s.handsOn l = passOn G s.handsOn l
      · rw [hmore hsame, List.nil_append] at hinv
        rw [← hsame, Function.update_eq_self] at hout
        obtain ⟨ls, t, hvis, ht⟩ := ih hinv (hout ▸ hd) (hout ▸ hc) (hout ▸ hn)
        exact ⟨l :: ls, t, .visit h.waiting_eq ((h.valid.of_waiting _).visit_eq hl) hvis, ht⟩
      · have hlt := hd.card_disagreements_lt hc hl hne hsame
        rw [← hout, hn] at hlt
        obtain ⟨ls, t, hvis, ht⟩ := ihn _ hlt hinv (hout ▸ hd.update hl hne)
          (hout ▸ hc.update hl) rfl
        exact ⟨l :: ls, t, .visit h.waiting_eq ((h.valid.of_waiting _).visit_eq hl) hvis, ht⟩

/-- From a state in which everything visited is settled, a run comes to an end. -/
theorem Invariant.exists_visits (h : Invariant G s [] fresh) (hc : OnlyComputed G s.handsOn) :
    ∃ ls t, Visits G s ls t ∧ Invariant G t [] [] := by
  induction fresh generalizing s with
  | nil => exact ⟨[], s, .done s, h⟩
  | cons l fresh ih =>
    have hl : l ∈ G := h.mem_of_mem_waiting (by simp)
    have hsettled : ∀ p ∈ G, s.handsOn p ≠ .bottom → s.handsOn p = passOn G s.handsOn p := by
      intro p _ hp
      have hv : p ∈ s.table.visitOrder := by
        by_contra hv
        exact hp ((h.bottom_iff p).2 hv)
      exact (h.settled p hv List.not_mem_nil).handsOn_eq
    have hb : s.handsOn l = .bottom := (h.bottom_iff l).2 fun hv =>
      G.not_mem_of_append_eq h.order_eq hv List.mem_cons_self
    obtain ⟨more, hinv⟩ := h.firstVisit
    have hout : (afterVisit G { s with waiting := fresh } l).handsOn =
        Function.update s.handsOn l (passOn G s.handsOn l) := handsOn_afterVisit
    obtain ⟨ls, t, hvis, ht, htc⟩ := hinv.exists_visits_of_drifting
      (hout ▸ drifting_of_bottom hsettled hb) (hout ▸ hc.update hl)
    obtain ⟨ls', u, hvis', hu⟩ := ih ht htc
    refine ⟨l :: (ls ++ ls'), u, .visit h.waiting_eq ((h.valid.of_waiting _).visit_eq hl) ?_, hu⟩
    exact visits_append_iff.2 ⟨t, hvis, hvis'⟩

/-- Every graph has a run that ends with no block waiting. -/
theorem exists_visits_start (G : Graph ι) :
    ∃ ls t, Visits G (start G : State ι Op Var) ls t ∧ Invariant G t [] [] := by
  refine (invariant_start G).exists_visits fun l e he => ?_
  rw [handsOn_start] at he
  exact absurd he (Fact.not_mem_bottom e)

/-! ### How long they are -/

theorem length_visitOrder_afterVisit_le (G : Graph ι) (s : State ι Op Var) (l : Label) :
    (afterVisit G s l).table.visitOrder.length ≤ s.table.visitOrder.length + 1 := by
  rw [afterVisit, FactTable.record]
  split
  · exact Nat.le_succ _
  · rw [List.length_append, List.length_singleton]

/-- A run visits no more blocks than it makes visits. -/
theorem Visits.length_visitOrder_le (h : Visits G s ls t) (hs : Valid G s) :
    t.table.visitOrder.length ≤ s.table.visitOrder.length + ls.length := by
  induction h with
  | done s => exact Nat.le_refl _
  | @visit s t u l waiting ls _ step _ ih =>
    obtain ⟨-, rfl, hs'⟩ := hs.of_step step
    have hstep := length_visitOrder_afterVisit_le G { s with waiting } l
    rw [List.length_cons, Nat.add_comm _ 1, ← Nat.add_assoc]
    exact (ih hs').trans (Nat.add_le_add_right hstep _)

theorem Invariant.size_le_length (h : Invariant G t [] []) (hvis : Visits G (start G) ls t) :
    G.size ≤ ls.length := by
  have horder := h.order_eq
  rw [List.append_nil] at horder
  have hle := hvis.length_visitOrder_le (valid_start G)
  rw [horder, List.length_reverse, G.length_postOrder] at hle
  exact hle.trans (Nat.le_of_eq (Nat.zero_add _))

/-- On every graph the worklist strategy comes to an end after some number of visits, one per block
    at least. A limit that allows so many gives the facts reached then; under any other the run is
    cut off at the first block that it is not allowed to visit. -/
theorem exists_visits_forall_limit (G : Graph ι) :
    ∃ (ls : List Label) (final : State ι Op Var),
      Visits G (start G) ls final ∧ final.waiting = [] ∧
      G.size ≤ ls.length ∧ final.table.visits = ls.length ∧
      ∀ limit cap, cap = min (limit * G.size) (2 ^ 64 - 1) →
        (ls.length ≤ cap → Availability.analyze ⟨.worklist, limit⟩ G = .ok final.table) ∧
        (cap < ls.length → ∃ l, ls[cap]? = some l ∧
          Availability.analyze ⟨.worklist, limit⟩ G =
            .error (.convergenceTimeout G.entry l cap)) := by
  obtain ⟨ls, final, hvis, hinv⟩ :
      ∃ ls t, Visits G (start G : State ι Op Var) ls t ∧ Invariant G t [] [] :=
    exists_visits_start G
  refine ⟨ls, final, hvis, hinv.waiting_eq, hinv.size_le_length hvis, ?_, fun limit cap hcap => ?_⟩
  · rw [hvis.visits_eq (valid_start G)]
    exact Nat.zero_add _
  · have hrun : (Availability.analyze ⟨.worklist, limit⟩ G : Except Error (FactTable ι Op Var)) =
        run G cap (start G) := by
      rw [hcap]
      rfl
    rw [hrun]
    refine ⟨fun hle => hvis.run_eq_ok hinv.waiting_eq hle, fun hlt => ?_⟩
    obtain ⟨l, hl, herr⟩ := hvis.run_eq_error (valid_start G) hlt
    have hzero : (start G : State ι Op Var).table.visits + cap = cap := Nat.zero_add cap
    rw [hzero] at herr
    exact ⟨l, hl, herr⟩

-- the empty block waits for itself, so one visit per block does not get to the last one
example : Availability.analyze ⟨.worklist, 1⟩ emptyLoop =
    .error (.convergenceTimeout ⟨0⟩ ⟨2⟩ 3) := by
  cbv

end Availability.Worklist
