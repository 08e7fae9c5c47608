import Availability.Analysis
import Availability.Proofs.Graph.PreOrder
import Availability.Proofs.LoopWalk.Recompute

/-! Every table that the reference strategy comes by.

    A walk computes a block when it is next in the entering order, and may compute any walked block
    anew. Each function of the strategy goes on with a walk, and fails only by giving up a loop. It
    then has seen every block of the loop that has code change in as many sweeps as it was allowed.
    What is to be shown of all runs is thus shown by induction on walks, and a run is shown to
    succeed by counting changes. -/

namespace Availability.LoopWalk

variable {ι Op Var : Type} [Instruction ι Op Var] [DecidableEq Op] [DecidableEq Var]

/-- A walk has come to the blocks `walked` and left `table`. When a block was computed anew and did
    not hand on what it did before, it was noted in `changes`. -/
inductive Walk (G : Graph ι) :
    (walked changes : List Label) → FactTable ι Op Var → Prop where
  | start : Walk G [] [] .empty
  | first {walked changes rest : List Label} {table : FactTable ι Op Var} {l : Label}
      (walk : Walk G walked changes table) (next : walked ++ l :: rest = G.preOrder) :
      Walk G (walked ++ [l]) changes (recompute G table l)
  | again {walked changes : List Label} {table : FactTable ι Op Var} {l : Label}
      (walk : Walk G walked changes table) (hl : l ∈ walked) :
      Walk G walked (if (recompute G table l).out l = table.out l then changes else changes ++ [l])
        (recompute G table l)

variable {G : Graph ι} {limit : Nat} {walked changes rest : List Label}
  {table : FactTable ι Op Var} {l : Label} {loop : Loop}

namespace Walk

theorem visitOrder_eq (h : Walk G walked changes table) : table.visitOrder = walked := by
  induction h with
  | start => rfl
  | first _ next ih =>
    rw [visitOrder_recompute_of_not_mem, ih]
    rw [ih]
    exact Graph.not_mem_walked next
  | again _ hl ih =>
    rw [visitOrder_recompute_of_mem (ih.symm ▸ hl), ih]

theorem prefix_preOrder (h : Walk G walked changes table) : walked <+: G.preOrder := by
  induction h with
  | start => exact List.nil_prefix
  | first _ next _ => exact ⟨_, by rw [← next, List.append_assoc, List.singleton_append]⟩
  | again _ _ ih => exact ih

theorem mem_graph (h : Walk G walked changes table) (hl : l ∈ walked) : l ∈ G :=
  Graph.mem_preOrder.1 (h.prefix_preOrder.subset hl)

theorem coherent (h : Walk G walked changes table) : Coherent G table := by
  induction h with
  | start => exact coherent_empty G
  | first _ _ ih => exact coherent_recompute ih _
  | again _ _ ih => exact coherent_recompute ih _

/-- Only walked blocks are noted. -/
theorem changes_subset (h : Walk G walked changes table) : changes ⊆ walked := by
  induction h with
  | start => exact List.Subset.refl _
  | first _ _ ih => exact fun x hx => List.mem_append_left _ (ih hx)
  | again _ hl ih =>
    split
    · exact ih
    · exact List.append_subset.2 ⟨ih, by simpa using hl⟩

/-- A walked block that has code hands on a value. -/
theorem exists_out_eq_value (h : Walk G walked changes table) (hl : l ∈ walked)
    (hcode : G.codeOf l ≠ []) : ∃ s, table.out l = .value s := by
  obtain ⟨f, hf⟩ := h.coherent.exists_chain l (h.visitOrder_eq.symm ▸ hl)
  rw [out_of_facts_eq hf hcode]
  exact transferAll_eq_value hcode f

theorem out_ne_bottom (h : Walk G walked changes table) (hl : l ∈ walked)
    (hcode : G.codeOf l ≠ []) : table.out l ≠ .bottom := by
  obtain ⟨s, hs⟩ := h.exists_out_eq_value hl hcode
  rw [hs]
  exact nofun

/-- Where every block has code, something can come into a block that can be reached, once all blocks
    before it have been walked. -/
theorem fed (h : Walk G walked changes table) (hcode : ∀ b ∈ G.blocks, b.code ≠ [])
    (hreach : G.Reachable l) {earlier later : List Label}
    (horder : earlier ++ l :: later = G.preOrder) (hsub : earlier ⊆ walked) :
    Fed G table.out l := by
  rcases eq_or_ne l G.entry with hen | hen
  · exact Or.inl hen
  · obtain ⟨p, hp, hpl⟩ := hreach.exists_earlier_predecessor hen horder
    have hc := Graph.codeOf_ne_nil hcode hpl.source_mem
    exact Or.inr ⟨p, hpl, h.out_ne_bottom (hsub hp) hc⟩

/-- Where every block has code and can be reached, a walk computes blocks that something can come
    into, and nothing else. -/
theorem table_induction {P : FactTable ι Op Var → Prop} (h : Walk G walked changes table)
    (hcode : ∀ b ∈ G.blocks, b.code ≠ []) (hreach : ∀ l ∈ G, G.Reachable l) (hempty : P .empty)
    (hstep : ∀ table l, l ∈ G → Fed G table.out l → P table → P (recompute G table l)) :
    P table := by
  induction h with
  | start => exact hempty
  | first walk next ih =>
    have hl := Graph.mem_of_append_cons_eq next
    exact hstep _ _ hl (walk.fed hcode (hreach _ hl) next (List.Subset.refl _)) ih
  | again walk hl ih =>
    have hlG := walk.mem_graph hl
    obtain ⟨rest, horder⟩ := walk.prefix_preOrder
    obtain ⟨earlier, later, rfl⟩ := List.append_of_mem hl
    rw [List.append_assoc, List.cons_append] at horder
    exact hstep _ _ hlG
      (walk.fed hcode (hreach _ hlG) horder (List.subset_append_left _ _)) ih

end Walk

/-! ### How a stretch of a walk ends -/

/-- A loop of the walk: a stretch of it that an edge closes. -/
structure IsLoop (G : Graph ι) (walked : List Label) (loop : Loop) : Prop where
  stretch : loop.blocks <:+: walked
  closing : G.Edge loop.last loop.first

/-- The loop that an edge from the last block walked closes. -/
theorem isLoop_of_closedBy? {target : Label} (hedge : G.Edge l target)
    (h : Loop.closedBy? (walked ++ [l]) target = some loop) : IsLoop G (walked ++ [l]) loop where
  stretch := (Loop.blocks_suffix h).isInfix
  closing := by
    have hlast : l = loop.last := by simpa using Loop.getLast?_eq h
    rwa [← hlast, Loop.first_eq h]

/-- The error `e` says that a loop was given up: each of its blocks that has code has changed
    `limit` times. -/
def GivesUp (G : Graph ι) (Op Var : Type) [Instruction ι Op Var] [DecidableEq Op] [DecidableEq Var]
    (limit : Nat) (e : Error) : Prop :=
  ∃ (walked changes : List Label) (table : FactTable ι Op Var) (loop : Loop),
    Walk G walked changes table ∧ IsLoop G walked loop ∧
      e = .convergenceTimeout loop.first loop.last limit ∧
      ∀ x ∈ loop.blocks, G.codeOf x ≠ [] → limit ≤ changes.count x

/-- What started with `changes` noted goes on with a walk, or a loop is given up. -/
inductive Ends (G : Graph ι) (limit : Nat) (walked changes : List Label) :
    Except Error (FactTable ι Op Var) → Prop where
  | ok (more : List Label) {table : FactTable ι Op Var}
      (walk : Walk G walked (changes ++ more) table) : Ends G limit walked changes (.ok table)
  | error {e : Error} (h : GivesUp G Op Var limit e) : Ends G limit walked changes (.error e)

/-- A sweep ends likewise. If nothing settled it, all of its blocks that have code are noted. -/
inductive SweepEnds (G : Graph ι) (limit : Nat) (walked changes todo : List Label) :
    Except Error (Pass (FactTable ι Op Var)) → Prop where
  | settled (more : List Label) {table : FactTable ι Op Var}
      (walk : Walk G walked (changes ++ more) table) :
      SweepEnds G limit walked changes todo (.ok (.settled table))
  | changed (more : List Label) {table : FactTable ι Op Var}
      (walk : Walk G walked (changes ++ more) table)
      (noted : ∀ x ∈ todo, G.codeOf x ≠ [] → x ∈ more) :
      SweepEnds G limit walked changes todo (.ok (.changed table))
  | error {e : Error} (h : GivesUp G Op Var limit e) :
      SweepEnds G limit walked changes todo (.error e)

theorem Walk.ends (h : Walk G walked changes table) : Ends G limit walked changes (.ok table) :=
  .ok [] (by rwa [List.append_nil])

/-- Whatever goes on with a walk may have had a walk before it. -/
theorem Ends.of_append {more : List Label} {r : Except Error (FactTable ι Op Var)}
    (h : Ends G limit walked (changes ++ more) r) : Ends G limit walked changes r := by
  cases h with
  | ok more' walk => exact .ok (more ++ more') (List.append_assoc _ _ _ ▸ walk)
  | error h => exact .error h

/-- One stretch after another. -/
theorem Ends.bind {r : Except Error (FactTable ι Op Var)}
    {f : FactTable ι Op Var → Except Error (FactTable ι Op Var)}
    (hr : Ends G limit walked changes r)
    (hf : ∀ changes table, Walk G walked changes table →
      Ends G limit walked changes (f table)) :
    Ends G limit walked changes (r.bind f) := by
  cases hr with
  | ok _ walk => exact (hf _ _ walk).of_append
  | error h => exact .error h

/-- Following one edge after another goes on with a walk if following each of them does. -/
theorem Walk.foldlM_ends {targets : List Label}
    {f : FactTable ι Op Var → Label → Except Error (FactTable ι Op Var)}
    (hf : ∀ target ∈ targets, ∀ changes table, Walk G walked changes table →
      Ends G limit walked changes (f table target))
    (h : Walk G walked changes table) :
    Ends G limit walked changes (targets.foldlM f table) := by
  induction targets generalizing changes table with
  | nil => exact h.ends
  | cons target targets ih =>
    rw [List.foldlM_cons]
    refine (hf target List.mem_cons_self changes table h).bind fun changes table h => ?_
    exact ih (fun target ht => hf target (List.mem_cons_of_mem _ ht)) h

/-! ### Loops -/

section Sweep

variable {again : (r : Loop) → r.size < loop.size → FactTable ι Op Var →
  Except Error (FactTable ι Op Var)}

/-- Following an edge on the way through a loop. -/
theorem Walk.followEdge_ends (h : Walk G walked changes table)
    (hagain : ∀ r hr changes table, IsLoop G walked r → Walk G walked changes table →
      Ends G limit walked changes (again r hr table))
    (hloop : loop.blocks <:+: walked) {swept todo : List Label} {target : Label}
    (heq : (swept ++ [l]) ++ todo = loop.blocks) (hedge : G.Edge l target) :
    Ends G limit walked changes (followEdge loop again (swept ++ [l]) todo heq table target) := by
  unfold followEdge
  split
  · exact h.ends
  · next inner hc =>
    split
    · exact h.ends
    · refine hagain inner _ changes table ?_ h
      have hinner := isLoop_of_closedBy? hedge hc
      refine ⟨hinner.stretch.trans (List.IsInfix.trans ?_ hloop), hinner.closing⟩
      rw [← heq]
      exact (List.prefix_append _ _).isInfix

/-- Following all edges of a block on the way through a loop. -/
theorem Walk.foldlM_followEdge_ends (h : Walk G walked changes table)
    (hagain : ∀ r hr changes table, IsLoop G walked r → Walk G walked changes table →
      Ends G limit walked changes (again r hr table))
    (hloop : loop.blocks <:+: walked) {swept todo : List Label}
    (heq : (swept ++ [l]) ++ todo = loop.blocks) :
    Ends G limit walked changes
      ((G.successorsOf l).foldlM (followEdge loop again (swept ++ [l]) todo heq) table) :=
  h.foldlM_ends fun _ ht _ _ h => h.followEdge_ends hagain hloop heq (Graph.mem_successorsOf.1 ht)

/-- Computing a block anew goes on with the walk. A block that has code is noted unless the sweep
    settles there. -/
theorem Walk.exists_note (h : Walk G walked changes table) (hl : l ∈ walked) :
    ∃ note, Walk G walked (changes ++ note) (recompute G table l) ∧
      (¬ Settles G table l → G.codeOf l ≠ [] → l ∈ note) := by
  have hstep := h.again hl
  by_cases hsame : (recompute G table l).out l = table.out l
  · rw [if_pos hsame] at hstep
    refine ⟨[], by rwa [List.append_nil], fun hs hc => ?_⟩
    exact absurd ⟨hc, hsame⟩ hs
  · rw [if_neg hsame] at hstep
    exact ⟨[l], hstep, fun _ _ => List.mem_singleton_self l⟩

/-- A sweep of the blocks `todo` after `l` was noted is a sweep of all of them. -/
theorem SweepEnds.cons {note more todo : List Label} {r : Except Error (Pass (FactTable ι Op Var))}
    (hnote : G.codeOf l ≠ [] → l ∈ note)
    (h : SweepEnds G limit walked (changes ++ note ++ more) todo r) :
    SweepEnds G limit walked changes (l :: todo) r := by
  cases h with
  | error hgive => exact .error hgive
  | settled _ walk =>
    rw [List.append_assoc, List.append_assoc] at walk
    exact .settled _ walk
  | changed _ walk noted =>
    rw [List.append_assoc, List.append_assoc] at walk
    refine .changed _ walk fun x hx hc => ?_
    rcases List.mem_cons.1 hx with rfl | hx
    · exact List.mem_append_left _ (hnote hc)
    · exact List.mem_append_right _ (List.mem_append_right _ (noted x hx hc))

/-- A sweep goes on with the walk, and notes the blocks that do not settle it. -/
theorem Walk.sweep_ends (h : Walk G walked changes table)
    (hagain : ∀ r hr changes table, IsLoop G walked r → Walk G walked changes table →
      Ends G limit walked changes (again r hr table))
    (hloop : loop.blocks <:+: walked) {swept todo : List Label}
    (heq : swept ++ todo = loop.blocks) :
    SweepEnds G limit walked changes todo (sweep G loop again swept todo heq table) := by
  induction todo generalizing swept changes table with
  | nil =>
    rw [sweep]
    exact .changed [] (by rwa [List.append_nil]) (by simp)
  | cons l todo ih =>
    have heq' : (swept ++ [l]) ++ todo = loop.blocks := by
      rw [← heq, List.append_assoc, List.singleton_append]
    have hl : l ∈ walked := hloop.subset (heq ▸ by simp)
    obtain ⟨note, hstep, hnote⟩ := h.exists_note hl
    rw [sweep_cons h.coherent (h.visitOrder_eq.symm ▸ hl) (h.mem_graph hl) heq heq']
    by_cases hs : Settles G table l
    · rw [if_pos hs]
      exact .settled note hstep
    · rw [if_neg hs]
      have hfold : Ends G limit walked (changes ++ note) ((G.successorsOf l).foldlM
          (followEdge loop again (swept ++ [l]) todo heq') (recompute G table l)) :=
        hstep.foldlM_followEdge_ends hagain hloop heq'
      generalize (G.successorsOf l).foldlM (followEdge loop again (swept ++ [l]) todo heq')
        (recompute G table l) = r at hfold ⊢
      cases hfold with
      | error hgive => exact .error hgive
      | ok _ walk => exact (ih walk heq').cons (hnote hs)

/-- Sweeps go on until one of them settles; when none is left, every block that has code has changed
    in each of them. -/
theorem Walk.sweepAll_ends (h : Walk G walked changes table)
    (hagain : ∀ r hr changes table, IsLoop G walked r → Walk G walked changes table →
      Ends G limit walked changes (again r hr table))
    (hloop : IsLoop G walked loop) {remaining : Nat}
    (hcount : ∀ x ∈ loop.blocks, G.codeOf x ≠ [] → limit ≤ changes.count x + remaining) :
    Ends G limit walked changes (sweepAll G limit loop again remaining table) := by
  induction remaining generalizing changes table with
  | zero => exact .error ⟨walked, changes, table, loop, h, hloop, rfl, hcount⟩
  | succ remaining ih =>
    rw [sweepAll]
    generalize hr : sweep G loop again [] loop.blocks rfl table = r
    have hsweep := hr ▸ h.sweep_ends hagain hloop.stretch rfl
    cases hsweep with
    | error hgive => exact .error hgive
    | settled more walk => exact .ok more walk
    | @changed more table walk noted =>
      refine (ih walk fun x hx hc => ?_).of_append
      have hone := List.one_le_count_iff.2 (noted x hx hc)
      have hbefore := hcount x hx hc
      rw [List.count_append]
      omega

end Sweep

/-- Going through a loop again goes on with the walk, or a loop is given up. -/
theorem Walk.settleLoop_ends (h : Walk G walked changes table) (hloop : IsLoop G walked loop) :
    Ends G limit walked changes (settleLoop G limit loop table) := by
  -- the loops on the way through a loop are shorter
  induction hn : loop.size using Nat.strongRecOn generalizing loop changes table with
  | ind n ih =>
    rw [settleLoop]
    refine h.sweepAll_ends (fun r hr changes table hr' h => ?_) hloop fun _ _ _ =>
      Nat.le_add_left _ _
    exact ih r.size (hn ▸ hr) h hr' rfl

/-! ### The whole run -/

/-- Following an edge of the block visited last. -/
theorem Walk.closeLoop_ends (h : Walk G (walked ++ [l]) changes table) {target : Label}
    (hedge : G.Edge l target) :
    Ends G limit (walked ++ [l]) changes
      (closeLoop G limit (.ofList (walked ++ [l])) table target) := by
  cases hc : Loop.closedBy? (walked ++ [l]) target with
  | none =>
    have ht := Loop.closedBy?_eq_none_iff.1 hc
    rw [closeLoop_of_not_mem fun hm => ht (ItemSet.mem_ofList.1 hm)]
    exact h.ends
  | some loop =>
    have ht := ItemSet.mem_ofList.2 (Loop.mem_of_closedBy? hc)
    rw [closeLoop_of_mem ht (h.visitOrder_eq.symm ▸ hc)]
    exact h.settleLoop_ends (isLoop_of_closedBy? hedge hc)

/-- Visits the blocks `rest` when the blocks `walked` have been visited. -/
def visitAll (G : Graph ι) (limit : Nat) (walked rest : List Label) (table : FactTable ι Op Var) :
    Except Error (FactTable ι Op Var) :=
  (rest.foldlM (visit G limit) ⟨table, .ofList walked⟩).map State.table

theorem analyze_eq_visitAll (G : Graph ι) (limit : Nat) :
    (Availability.analyze ⟨.reference, limit⟩ G : Except Error (FactTable ι Op Var)) =
      visitAll G limit [] G.preOrder .empty := rfl

/-- Computes `l` when the blocks `walked` have been visited, and follows its edges. -/
def visitNext (G : Graph ι) (limit : Nat) (walked : List Label) (table : FactTable ι Op Var)
    (l : Label) : Except Error (FactTable ι Op Var) :=
  (G.successorsOf l).foldlM (closeLoop G limit (.ofList (walked ++ [l]))) (recompute G table l)

/-- A visit to the block that is next in the entering order. -/
theorem visit_eq_visitNext (hcoh : Coherent G table) (horder : table.visitOrder = walked)
    (next : walked ++ l :: rest = G.preOrder) :
    visit G limit ⟨table, .ofList walked⟩ l =
      (visitNext G limit walked table l).map (⟨·, .ofList (walked ++ [l])⟩) := by
  have hnew : l ∉ table.visitOrder := horder ▸ Graph.not_mem_walked next
  rw [visit_eq hcoh (Graph.mem_of_append_cons_eq next) hnew, ← ItemSet.ofList_concat, visitNext]

/-- After the next block it is the turn of the others. -/
theorem visitAll_cons (hcoh : Coherent G table) (horder : table.visitOrder = walked)
    (next : walked ++ l :: rest = G.preOrder) :
    visitAll G limit walked (l :: rest) table =
      (visitNext G limit walked table l).bind (visitAll G limit (walked ++ [l]) rest) := by
  rw [visitAll, List.foldlM_cons, visit_eq_visitNext hcoh horder next]
  cases visitNext G limit walked table l <;> rfl

/-- Visiting the next block goes on with the walk, or a loop is given up. -/
theorem Walk.visitNext_ends (h : Walk G walked changes table)
    (next : walked ++ l :: rest = G.preOrder) :
    Ends G limit (walked ++ [l]) changes (visitNext G limit walked table l) :=
  (h.first next).foldlM_ends fun _ ht _ _ h => h.closeLoop_ends (Graph.mem_successorsOf.1 ht)

theorem Walk.of_visit_eq_ok (h : Walk G walked changes table)
    (next : walked ++ l :: rest = G.preOrder) {s : State ι Op Var}
    (hs : visit G limit ⟨table, .ofList walked⟩ l = .ok s) :
    ∃ more table', s = ⟨table', .ofList (walked ++ [l])⟩ ∧
      Walk G (walked ++ [l]) (changes ++ more) table' := by
  have hends : Ends G limit (walked ++ [l]) changes (visitNext G limit walked table l) :=
    h.visitNext_ends next
  rw [visit_eq_visitNext h.coherent h.visitOrder_eq next] at hs
  generalize visitNext G limit walked table l = r at hends hs
  cases hends with
  | error _ => cases hs
  | ok more walk =>
    cases hs
    exact ⟨more, _, rfl, walk⟩

theorem Walk.visitAll_ends (h : Walk G walked changes table)
    (horder : walked ++ rest = G.preOrder) :
    Ends G limit G.preOrder changes (visitAll G limit walked rest table) := by
  induction rest generalizing walked changes table with
  | nil =>
    rw [← horder, List.append_nil]
    exact h.ends
  | cons l rest ih =>
    have hends : Ends G limit (walked ++ [l]) changes (visitNext G limit walked table l) :=
      h.visitNext_ends horder
    rw [visitAll_cons h.coherent h.visitOrder_eq horder]
    generalize visitNext G limit walked table l = r at hends
    cases hends with
    | error hgive => exact .error hgive
    | ok _ walk =>
      refine (ih walk ?_).of_append
      rw [List.append_assoc, List.singleton_append, horder]

/-- A run of the reference strategy walks through all blocks, or gives up a loop. -/
theorem analyze_ends (G : Graph ι) (limit : Nat) :
    Ends G limit G.preOrder []
      (Availability.analyze ⟨.reference, limit⟩ G : Except Error (FactTable ι Op Var)) :=
  analyze_eq_visitAll G limit ▸ Walk.start.visitAll_ends (List.nil_append _)

/-- A run gives a table, or says that a loop was not settled within the limit. -/
theorem exists_table_or_timeout (G : Graph ι) (limit : Nat) :
    (∃ table : FactTable ι Op Var, Availability.analyze ⟨.reference, limit⟩ G = .ok table) ∨
      ∃ start stop, (Availability.analyze ⟨.reference, limit⟩ G :
        Except Error (FactTable ι Op Var)) = .error (.convergenceTimeout start stop limit) := by
  have hends : Ends G limit G.preOrder []
      (Availability.analyze ⟨.reference, limit⟩ G : Except Error (FactTable ι Op Var)) :=
    analyze_ends G limit
  generalize (Availability.analyze ⟨.reference, limit⟩ G :
    Except Error (FactTable ι Op Var)) = r at hends
  cases hends with
  | ok _ _ => exact Or.inl ⟨_, rfl⟩
  | error hgive =>
    obtain ⟨_, _, _, loop, -, -, rfl, -⟩ := hgive
    exact Or.inr ⟨loop.first, loop.last, rfl⟩

/-- A run that gives a table has walked through all blocks. -/
theorem exists_walk_of_analyze (h : Availability.analyze ⟨.reference, limit⟩ G = .ok table) :
    ∃ changes, Walk G G.preOrder changes table := by
  have hends : Ends G limit G.preOrder []
      (Availability.analyze ⟨.reference, limit⟩ G : Except Error (FactTable ι Op Var)) :=
    analyze_ends G limit
  rw [h] at hends
  cases hends with
  | ok more walk => exact ⟨[] ++ more, walk⟩

end Availability.LoopWalk
