import Availability.Proofs.LoopWalk.Walk

/-! The reference strategy gives up every loop of empty blocks.

    Only an instruction can settle a sweep. Where no block of a loop has any, each sweep goes
    through to the end, however many shorter loops it follows on its way, and so does the next:
    either one of the shorter loops is given up, or this one is when no sweep is left. An edge that
    leads back over empty blocks closes such a loop when its source is visited, and if the walk gets
    that far, it gets no further. -/

namespace Availability.LoopWalk

variable {ι Op Var : Type} [Instruction ι Op Var] [DecidableEq Op] [DecidableEq Var]
variable {G : Graph ι} {limit : Nat} {walked changes rest : List Label}
  {table : FactTable ι Op Var} {l u v x : Label} {loop : Loop}

/-! ### Loops of empty blocks -/

/-- A sweep of empty blocks does not settle. -/
theorem Walk.sweep_ne_settled (h : Walk G walked changes table) (hloop : loop.blocks <:+: walked)
    {swept todo : List Label} (heq : swept ++ todo = loop.blocks)
    (hempty : ∀ x ∈ todo, G.codeOf x = []) (t : FactTable ι Op Var) :
    sweep G loop (fun inner _ table => settleLoop G limit inner table) swept todo heq table ≠
      .ok (.settled t) := by
  induction todo generalizing swept changes table with
  | nil =>
    intro hok
    cases hok
  | cons l todo ih =>
    have heq' : (swept ++ [l]) ++ todo = loop.blocks := by
      rw [← heq, List.append_assoc, List.singleton_append]
    have hl : l ∈ walked := hloop.subset (heq ▸ by simp)
    have hnot : ¬ Settles G table l := fun hs => hs.1 (hempty l List.mem_cons_self)
    obtain ⟨note, hstep, -⟩ := h.exists_note hl
    rw [sweep_cons h.coherent (h.visitOrder_eq.symm ▸ hl) (h.mem_graph hl) heq heq', if_neg hnot]
    have hfold : Ends G limit walked (changes ++ note) ((G.successorsOf l).foldlM (followEdge loop
        (fun inner _ table => settleLoop G limit inner table) (swept ++ [l]) todo heq')
        (recompute G table l)) :=
      hstep.foldlM_followEdge_ends (fun _ _ _ _ hr h => h.settleLoop_ends hr) hloop heq'
    generalize (G.successorsOf l).foldlM (followEdge loop _ (swept ++ [l]) todo heq')
      (recompute G table l) = r at hfold ⊢
    cases hfold with
    | error _ =>
      intro hok
      cases hok
    | ok _ walk => exact ih walk heq' fun x hx => hempty x (List.mem_cons_of_mem _ hx)

/-- However many sweeps are left, none of them settles. -/
theorem Walk.sweepAll_ne_ok (h : Walk G walked changes table) (hloop : loop.blocks <:+: walked)
    (hempty : ∀ x ∈ loop.blocks, G.codeOf x = []) (remaining : Nat) (t : FactTable ι Op Var) :
    sweepAll G limit loop (fun inner _ table => settleLoop G limit inner table) remaining table ≠
      .ok t := by
  induction remaining generalizing changes table with
  | zero =>
    intro hok
    cases hok
  | succ remaining ih =>
    rw [sweepAll]
    generalize hr : sweep G loop (fun inner _ table => settleLoop G limit inner table) []
      loop.blocks rfl table = r
    have hends := hr ▸ h.sweep_ends (fun _ _ _ _ hr h => h.settleLoop_ends hr) hloop rfl
    have hnot := hr ▸ h.sweep_ne_settled hloop rfl hempty
    cases hends with
    | error _ =>
      intro hok
      cases hok
    | settled _ _ => exact absurd rfl (hnot _)
    | changed _ walk _ => exact ih walk

/-- A loop of empty blocks does not settle. -/
theorem Walk.settleLoop_ne_ok (h : Walk G walked changes table) (hloop : loop.blocks <:+: walked)
    (hempty : ∀ x ∈ loop.blocks, G.codeOf x = []) (t : FactTable ι Op Var) :
    settleLoop G limit loop table ≠ .ok t := by
  rw [settleLoop]
  exact h.sweepAll_ne_ok hloop hempty limit t

/-! ### Walks that come to such a loop -/

/-- Following edges one after another fails if following one of them does, however far the walk has
    come by then. -/
theorem Walk.foldlM_ne_ok {targets : List Label} {target : Label}
    {f : FactTable ι Op Var → Label → Except Error (FactTable ι Op Var)}
    (hf : ∀ x ∈ targets, ∀ changes table, Walk G walked changes table →
      Ends G limit walked changes (f table x))
    (ht : target ∈ targets)
    (hfail : ∀ changes table t, Walk G walked changes table → f table target ≠ .ok t)
    (h : Walk G walked changes table) (t : FactTable ι Op Var) :
    targets.foldlM f table ≠ .ok t := by
  induction targets generalizing changes table with
  | nil => exact absurd ht List.not_mem_nil
  | cons x targets ih =>
    rw [List.foldlM_cons]
    have hends := hf x List.mem_cons_self changes table h
    have hnot : x = target → ∀ t, f table x ≠ .ok t := by
      rintro rfl t
      exact hfail changes table t h
    generalize f table x = r at hends hnot
    cases hends with
    | error _ =>
      intro hok
      cases hok
    | ok _ walk =>
      have hx : target ≠ x := fun heq => hnot heq.symm _ rfl
      exact ih (fun y hy => hf y (List.mem_cons_of_mem _ hy))
        ((List.mem_cons.1 ht).resolve_left hx) walk

omit [Instruction ι Op Var] [DecidableEq Op] [DecidableEq Var] in
/-- The loop that an edge from `u` to `v` closes lies between the two. -/
theorem idxOf_le_of_mem_blocks (next : walked ++ u :: rest = G.preOrder)
    (hc : Loop.closedBy? (walked ++ [u]) v = some loop) (hx : x ∈ loop.blocks) :
    G.preOrder.idxOf v ≤ G.preOrder.idxOf x ∧ G.preOrder.idxOf x ≤ G.preOrder.idxOf u := by
  obtain ⟨before, hb⟩ := Loop.blocks_suffix hc
  have horder : before ++ v :: (loop.rest ++ rest) = G.preOrder := by
    rw [← next, List.append_cons walked, ← hb, Loop.blocks, Loop.first_eq hc, List.append_assoc,
      List.cons_append]
  have hnew : x ∉ before := fun hm => by
    have hn := G.nodup_preOrder
    rw [← next, List.append_cons walked, ← hb] at hn
    exact List.disjoint_of_nodup_append (List.nodup_append.1 hn).1 hm hx
  refine ⟨Nat.le_of_not_lt fun hlt => hnew ((Graph.mem_walked_iff horder).2 hlt), ?_⟩
  have hxw : x ∈ walked ++ [u] := hb ▸ List.mem_append_right before hx
  rcases List.mem_append.1 hxw with hw | hu
  · exact Nat.le_of_lt ((Graph.mem_walked_iff next).1 hw)
  · exact Nat.le_of_eq (congrArg G.preOrder.idxOf (List.mem_singleton.1 hu))

section

variable (edge : G.Edge u v)
  (hempty : ∀ x ∈ G, G.preOrder.idxOf v ≤ G.preOrder.idxOf x →
    G.preOrder.idxOf x ≤ G.preOrder.idxOf u → G.codeOf x = [])
include edge hempty

/-- A block with an edge back over empty blocks cannot be visited. -/
theorem Walk.visitNext_ne_ok (h : Walk G walked changes table)
    (next : walked ++ u :: rest = G.preOrder) (hv : v ∈ walked ++ [u]) (t : FactTable ι Op Var) :
    visitNext G limit walked table u ≠ .ok t := by
  have hends : ∀ x ∈ G.successorsOf u, ∀ changes table, Walk G (walked ++ [u]) changes table →
      Ends G limit (walked ++ [u]) changes
        (closeLoop G limit (.ofList (walked ++ [u])) table x) := fun x hx _ _ h =>
    h.closeLoop_ends (Graph.mem_successorsOf.1 hx)
  refine (h.first next).foldlM_ne_ok hends (Graph.mem_successorsOf.2 edge)
    (fun changes table t h => ?_) t
  cases hc : Loop.closedBy? (walked ++ [u]) v with
  | none => exact absurd hv (Loop.closedBy?_eq_none_iff.1 hc)
  | some loop =>
    have hloop := isLoop_of_closedBy? edge hc
    rw [closeLoop_of_mem (ItemSet.mem_ofList.2 hv) (h.visitOrder_eq.symm ▸ hc)]
    refine h.settleLoop_ne_ok hloop.stretch (fun x hx => ?_) t
    obtain ⟨hle, hge⟩ := idxOf_le_of_mem_blocks next hc hx
    exact hempty x (h.mem_graph (hloop.stretch.subset hx)) hle hge

/-- No walk gets past such a block. -/
theorem Walk.visitAll_ne_ok (hback : G.preOrder.idxOf v ≤ G.preOrder.idxOf u)
    (h : Walk G walked changes table) (horder : walked ++ rest = G.preOrder) (hu : u ∈ rest)
    (t : FactTable ι Op Var) : visitAll G limit walked rest table ≠ .ok t := by
  induction rest generalizing walked changes table with
  | nil => exact absurd hu List.not_mem_nil
  | cons l rest ih =>
    have hends : Ends G limit (walked ++ [l]) changes (visitNext G limit walked table l) :=
      h.visitNext_ends horder
    have hnot : l = u → ∀ t, visitNext G limit walked table l ≠ .ok t := by
      rintro rfl t
      have hv : v ∈ walked ++ [l] := by
        rcases Nat.lt_or_eq_of_le hback with hlt | heq
        · exact List.mem_append_left _ ((Graph.mem_walked_iff horder).2 hlt)
        · rw [(List.idxOf_inj (Graph.mem_preOrder.2 edge.target_mem)).1 heq]
          exact List.mem_append_right _ (List.mem_singleton_self l)
      exact h.visitNext_ne_ok edge hempty horder hv t
    rw [visitAll_cons h.coherent h.visitOrder_eq horder]
    generalize visitNext G limit walked table l = r at hends hnot
    cases hends with
    | error _ =>
      intro hok
      cases hok
    | ok _ walk =>
      have hl : u ≠ l := fun heq => hnot heq.symm _ rfl
      refine ih walk ?_ ((List.mem_cons.1 hu).resolve_left hl)
      rw [List.append_assoc, List.singleton_append, horder]

end

/-- Where an edge leads back in the entering order, and none of the blocks from its target to its
    source has an instruction, the reference strategy ends with a timeout under every limit,
    whatever else there is in the graph. -/
theorem exists_timeout_of_empty_blocks (edge : G.Edge u v)
    (hback : G.preOrder.idxOf v ≤ G.preOrder.idxOf u)
    (hempty : ∀ l b, G.block l = .ok b → G.preOrder.idxOf v ≤ G.preOrder.idxOf l →
      G.preOrder.idxOf l ≤ G.preOrder.idxOf u → b.code = []) (limit : Nat) :
    ∃ start stop, (Availability.analyze ⟨.reference, limit⟩ G :
      Except Error (FactTable ι Op Var)) = .error (.convergenceTimeout start stop limit) := by
  have hcode : ∀ x ∈ G, G.preOrder.idxOf v ≤ G.preOrder.idxOf x →
      G.preOrder.idxOf x ≤ G.preOrder.idxOf u → G.codeOf x = [] := fun x hx =>
    hempty x _ (Graph.block_eq_ok hx)
  have hnot : ∀ t : FactTable ι Op Var, Availability.analyze ⟨.reference, limit⟩ G ≠ .ok t :=
    Walk.start.visitAll_ne_ok edge hcode hback (List.nil_append _)
      (Graph.mem_preOrder.2 edge.source_mem)
  rcases exists_table_or_timeout G limit with ⟨t, ht⟩ | htimeout
  · exact absurd ht (hnot t)
  · exact htimeout

/-- Two empty blocks on a way round, the second of which also has an edge to itself. -/
def emptyNest : Graph (Summary Unit Nat) where
  blocks :=
    [⟨⟨0⟩, [⟨.pure ⟨(), [0, 1]⟩, some 3⟩], [⟨1⟩]⟩,
     ⟨⟨1⟩, [], [⟨2⟩]⟩,
     ⟨⟨2⟩, [], [⟨1⟩, ⟨2⟩, ⟨3⟩]⟩,
     ⟨⟨3⟩, [⟨.other, some 0⟩], [⟨1⟩]⟩]
  blocks_ne_nil := by decide
  tables := _
  tables_eq := rfl

theorem exists_timeout_emptyNest :
    emptyNest.Edge ⟨2⟩ ⟨1⟩ ∧ ∃ start stop, (Availability.analyze ⟨.reference, 1000⟩ emptyNest :
      Except Error (FactTable (Summary Unit Nat) Unit Nat)) =
        .error (.convergenceTimeout start stop 1000) := by
  have edge : emptyNest.Edge ⟨2⟩ ⟨1⟩ := show _ ∈ Block.edges emptyNest.blocks by decide
  have hcode : ∀ l ∈ emptyNest.labels,
      emptyNest.preOrder.idxOf ⟨1⟩ ≤ emptyNest.preOrder.idxOf l →
      emptyNest.preOrder.idxOf l ≤ emptyNest.preOrder.idxOf ⟨2⟩ → emptyNest.codeOf l = [] := by
    decide +kernel
  refine ⟨edge, exists_timeout_of_empty_blocks edge (by decide +kernel) (fun l b hb => ?_) 1000⟩
  obtain ⟨hl, rfl⟩ := Graph.block_eq_ok_iff.1 hb
  exact hcode l hl

end Availability.LoopWalk
