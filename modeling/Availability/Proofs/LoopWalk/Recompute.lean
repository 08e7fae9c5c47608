import Mathlib.Logic.Function.Basic
import Availability.LoopWalk
import Availability.Proofs.FactTable

/-! The one thing that the reference strategy does to a table: compute a block from what its
    predecessors hand on.

    A sweep replays the facts along a block and stops at the first that comes out as it was. All
    later ones would come out as they were too, so the facts it leaves are those that a full
    computation gives, and it stops within the block exactly when the block hands on what it did
    before. Visits and sweeps are therefore made of the same step, `recompute`. -/

namespace Availability.LoopWalk

variable {ι Op Var : Type} [Instruction ι Op Var] [DecidableEq Op] [DecidableEq Var]
variable {G : Graph ι} {table : FactTable ι Op Var} {l x : Label}

/-! ### Computing a block -/

/-- The table in which `l` has been computed from what its predecessors hand on. -/
def recompute (G : Graph ι) (table : FactTable ι Op Var) (l : Label) : FactTable ι Op Var :=
  table.record l (chain (joinInto G table.out l) (G.codeOf l))

theorem facts_recompute_self :
    (recompute G table l).facts l = chain (joinInto G table.out l) (G.codeOf l) := by
  rw [recompute, FactTable.facts_record, if_pos rfl]

theorem facts_recompute_of_ne (h : x ≠ l) : (recompute G table l).facts x = table.facts x := by
  rw [recompute, FactTable.facts_record, if_neg h]

theorem visitOrder_recompute_of_mem (h : l ∈ table.visitOrder) :
    (recompute G table l).visitOrder = table.visitOrder :=
  table.visitOrder_record_of_mem h

theorem visitOrder_recompute_of_not_mem (h : l ∉ table.visitOrder) :
    (recompute G table l).visitOrder = table.visitOrder ++ [l] :=
  table.visitOrder_record_of_not_mem h

theorem mem_visitOrder_recompute :
    x ∈ (recompute G table l).visitOrder ↔ x ∈ table.visitOrder ∨ x = l :=
  table.mem_visitOrder_record

theorem out_recompute_of_ne (h : x ≠ l) : (recompute G table l).out x = table.out x := by
  rw [FactTable.out, facts_recompute_of_ne h, FactTable.out]

/-- Computing a block that has code replaces what it hands on by what its equation says. -/
theorem out_recompute (h : G.codeOf l ≠ []) :
    (recompute G table l).out = Function.update table.out l (passOn G table.out l) := by
  funext x
  rcases eq_or_ne x l with rfl | hx
  · rw [Function.update_self, passOn_of_ne_nil h]
    exact out_of_facts_eq facts_recompute_self h
  · rw [Function.update_of_ne hx, out_recompute_of_ne hx]

theorem coherent_recompute (h : Coherent G table) (l : Label) :
    Coherent G (recompute G table l) :=
  h.record l _

/-- What holds of the facts that visited blocks start from holds after `l` has been computed, if it
    holds of what comes into `l`. -/
theorem starts_recompute {P : Label → Fact (AvailExpr Op Var) → Prop}
    (h : ∀ x ∈ table.visitOrder, ∃ f, table.facts x = chain f (G.codeOf x) ∧ P x f)
    (hl : P l (joinInto G table.out l)) :
    ∀ x ∈ (recompute G table l).visitOrder,
      ∃ f, (recompute G table l).facts x = chain f (G.codeOf x) ∧ P x f := by
  intro x hx
  rcases eq_or_ne x l with rfl | hxl
  · exact ⟨_, facts_recompute_self, hl⟩
  · rw [facts_recompute_of_ne hxl]
    exact h x ((mem_visitOrder_recompute.1 hx).resolve_right hxl)

/-! ### Replaying a block -/

/-- A replay leaves the facts that a full computation gives. It settles when the last of them is
    what it was, because from the first such fact on all are. -/
theorem replay_chain (f g : Fact (AvailExpr Op Var)) (code : List ι) :
    replay g (chain f code) = .ok
      (if code ≠ [] ∧ transferAll code g = transferAll code f then .settled (chain g code)
        else .changed (chain g code)) := by
  induction code generalizing f g with
  | nil => rfl
  | cons i code ih =>
    have hreplay : replay g (chain f (i :: code)) =
        if transfer i f = transfer i g then
          .ok (.settled ((Annotated.fresh i g).compute :: chain (transfer i f) code))
        else (replay (transfer i g) (chain (transfer i f) code)).map
          (Pass.map ((Annotated.fresh i g).compute :: ·)) := by
      rfl
    have hchain : chain g (i :: code) =
        (Annotated.fresh i g).compute :: chain (transfer i g) code := rfl
    rw [hreplay, hchain, transferAll_cons, transferAll_cons]
    by_cases heq : transfer i f = transfer i g
    · rw [if_pos heq, heq, if_pos ⟨List.cons_ne_nil i code, rfl⟩]
    · rw [if_neg heq, ih]
      by_cases hsame : transferAll code (transfer i g) = transferAll code (transfer i f)
      · have hcode : code ≠ [] := by
          rintro rfl
          exact heq hsame.symm
        rw [if_pos ⟨hcode, hsame⟩, if_pos ⟨List.cons_ne_nil i code, hsame⟩]
        rfl
      · rw [if_neg fun h => hsame h.2, if_neg fun h => hsame h.2]
        rfl

/-- A sweep settles at `l`: some fact along it comes out as it was. -/
def Settles (G : Graph ι) (table : FactTable ι Op Var) (l : Label) : Prop :=
  G.codeOf l ≠ [] ∧ (recompute G table l).out l = table.out l

instance : Decidable (Settles G table l) := inferInstanceAs (Decidable (_ ∧ _))

theorem replay_eq (h : Coherent G table) (hl : l ∈ table.visitOrder) :
    replay (joinInto G table.out l) (table.facts l) = .ok
      (if Settles G table l then .settled (chain (joinInto G table.out l) (G.codeOf l))
        else .changed (chain (joinInto G table.out l) (G.codeOf l))) := by
  obtain ⟨f, hf⟩ := h.exists_chain l hl
  rw [hf, replay_chain]
  by_cases hc : G.codeOf l = []
  · rw [if_neg fun h => h.1 hc, if_neg fun h : Settles G table l => h.1 hc]
  · have hself : (recompute G table l).facts l = chain (joinInto G table.out l) (G.codeOf l) :=
      facts_recompute_self
    rw [← out_of_facts_eq hf hc, ← out_of_facts_eq hself hc]
    rfl

/-! ### Visits and sweeps -/

variable {loop : Loop} {swept todo : List Label} {limit : Nat}

section FollowEdge

variable {again : (r : Loop) → r.size < loop.size → FactTable ι Op Var →
  Except Error (FactTable ι Op Var)} {h : swept ++ todo = loop.blocks} {target : Label}

omit [Instruction ι Op Var] [DecidableEq Op] [DecidableEq Var]

/-- An edge to a block that has not been swept closes no loop. -/
theorem followEdge_of_not_mem (ht : target ∉ swept) :
    followEdge loop again swept todo h table target = .ok table := by
  unfold followEdge
  split
  · rfl
  · next hc =>
    rw [Loop.closedBy?_eq_none_iff.2 ht] at hc
    cases hc

/-- The edge that closes the loop being swept is not followed. -/
theorem followEdge_self (hc : Loop.closedBy? swept target = some loop) :
    followEdge loop again swept todo h table target = .ok table := by
  unfold followEdge
  split
  · rfl
  · next hc' =>
    rw [hc] at hc'
    rw [dif_pos (Option.some.inj hc').symm]

/-- Any other loop that an edge closes is gone through. -/
theorem followEdge_of_ne {inner : Loop} (hc : Loop.closedBy? swept target = some inner)
    (hne : inner ≠ loop) :
    followEdge loop again swept todo h table target =
      again inner (Loop.size_lt h hc hne) table := by
  unfold followEdge
  split
  · next hc' =>
    rw [hc] at hc'
    cases hc'
  · next hc' =>
    obtain rfl := Option.some.inj (hc.symm.trans hc')
    rw [dif_neg hne]

end FollowEdge

/-- Sweeping a block computes it. Unless that settles the sweep, its edges are followed and the
    sweep goes on. -/
theorem sweep_cons (hcoh : Coherent G table) (hv : l ∈ table.visitOrder) (hl : l ∈ G)
    {again : (r : Loop) → r.size < loop.size → FactTable ι Op Var →
      Except Error (FactTable ι Op Var)}
    (h : swept ++ l :: todo = loop.blocks) (h' : (swept ++ [l]) ++ todo = loop.blocks) :
    sweep G loop again swept (l :: todo) h table =
      if Settles G table l then .ok (.settled (recompute G table l))
      else ((G.successorsOf l).foldlM (followEdge loop again (swept ++ [l]) todo h')
        (recompute G table l)).bind (sweep G loop again (swept ++ [l]) todo h') := by
  rw [sweep, hcoh.factInto_eq hl]
  show (replay (joinInto G table.out l) (table.facts l)).bind _ = _
  rw [replay_eq hcoh hv]
  by_cases hs : Settles G table l
  · rw [if_pos hs, if_pos hs, recompute, ← table.replace_eq_record hv]
    rfl
  · rw [if_neg hs, if_neg hs, recompute, ← table.replace_eq_record hv]
    show (G.successors l).bind _ = _
    rw [Graph.successors_eq_ok hl]
    rfl

/-- A loop whose first block settles at once takes one sweep, which computes that block only. -/
theorem settleLoop_of_settles (hcoh : Coherent G table) (hv : loop.first ∈ table.visitOrder)
    (hl : loop.first ∈ G) (hs : Settles G table loop.first) (hlimit : 0 < limit) :
    settleLoop G limit loop table = .ok (recompute G table loop.first) := by
  obtain ⟨n, rfl⟩ := Nat.exists_eq_add_of_le' hlimit
  have hblocks : ([] ++ [loop.first]) ++ loop.rest = loop.blocks := rfl
  have hsweep : sweep G loop (fun inner _ table => settleLoop G (n + 1) inner table) []
      (loop.first :: loop.rest) rfl table = .ok (.settled (recompute G table loop.first)) := by
    rw [sweep_cons hcoh hv hl rfl hblocks, if_pos hs]
  rw [settleLoop, sweepAll]
  exact congrArg (Except.bind · _) hsweep

variable {visited : ItemSet Label} {target : Label}

theorem closeLoop_of_not_mem (h : target ∉ visited) :
    closeLoop G limit visited table target = .ok table := if_neg h

theorem closeLoop_of_mem (h : target ∈ visited)
    (hc : Loop.closedBy? table.visitOrder target = some loop) :
    closeLoop G limit visited table target = settleLoop G limit loop table := by
  rw [closeLoop, if_pos h, hc]

theorem closeLoop_of_settles (hcoh : Coherent G table) (h : l ∈ visited)
    (hv : l ∈ table.visitOrder) (hl : l ∈ G) (hs : Settles G table l) (hlimit : 0 < limit) :
    closeLoop G limit visited table l = .ok (recompute G table l) := by
  cases hc : Loop.closedBy? table.visitOrder l with
  | none => exact absurd hv (Loop.closedBy?_eq_none_iff.1 hc)
  | some loop =>
    obtain rfl := Loop.first_eq hc
    rw [closeLoop_of_mem h hc]
    exact settleLoop_of_settles hcoh hv hl hs hlimit

/-- Visiting a new block computes it, and then the loops that its edges close are gone through
    again. -/
theorem visit_eq (hcoh : Coherent G table) (hl : l ∈ G) (hnew : l ∉ table.visitOrder)
    (visited : ItemSet Label) :
    visit G limit ⟨table, visited⟩ l =
      ((G.successorsOf l).foldlM (closeLoop G limit (visited.insert l)) (recompute G table l)).map
        (⟨·, visited.insert l⟩) := by
  rw [visit, hcoh.factInto_eq hl, Graph.block_eq_ok hl, recompute, ← hcoh.enter_eq hnew]
  rfl

end Availability.LoopWalk
