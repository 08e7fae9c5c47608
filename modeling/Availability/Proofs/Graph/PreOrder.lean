import Mathlib.Data.List.Nodup
import Availability.Proofs.Graph.PostOrder

/-! What a depth-first search enters, and in which order.

    The stack decides only when a block is entered: searching from two stretches of it is searching
    from the first and then from the second. So the search from the entry alone comes first. What it
    enters, other than the entry, it has found on a block that it entered before, and in the end no
    edge leads out of what it has entered. Every block that can be reached is thus entered after one
    of its predecessors. -/

namespace Availability.Graph

variable {ι : Type} (G : Graph ι)

@[simp] theorem enterAll_nil (out : List Label) : G.enterAll out [] = out := by
  rw [enterAll]

theorem enterAll_cons_of_mem {out : List Label} {l : Label} (h : l ∈ out) (stack : List Label) :
    G.enterAll out (l :: stack) = G.enterAll out stack := by
  rw [enterAll, if_pos h]

theorem enterAll_cons_of_not_mem {out : List Label} {l : Label} (h : l ∉ out)
    (stack : List Label) :
    G.enterAll out (l :: stack) = G.enterAll (out ++ [l])
      ((G.successorsOf l).filter (fun s => decide (s ∉ out ++ [l])) ++ stack) := by
  rw [enterAll, if_neg h]

/-- A search from two stretches of the stack is two searches, one after the other. -/
theorem enterAll_append (out stack more : List Label) :
    G.enterAll out (stack ++ more) = G.enterAll (G.enterAll out stack) more := by
  induction out, stack using enterAll.induct G with
  | case1 out => rw [List.nil_append, enterAll_nil]
  | case2 out l stack hl ih =>
    rw [List.cons_append, enterAll_cons_of_mem G hl, ih, enterAll_cons_of_mem G hl]
  | case3 out l stack hl ih =>
    rw [List.cons_append, enterAll_cons_of_not_mem G hl, ← List.append_assoc, ih,
      enterAll_cons_of_not_mem G hl]

/-- What has been entered stays where it is in the order. -/
theorem prefix_enterAll (out stack : List Label) : out <+: G.enterAll out stack := by
  induction out, stack using enterAll.induct G with
  | case1 out => simp
  | case2 out l stack hl ih => rwa [enterAll_cons_of_mem G hl]
  | case3 out l stack hl ih =>
    rw [enterAll_cons_of_not_mem G hl]
    exact (List.prefix_append out [l]).trans ih

/-- What holds while a search from `roots` is under way: the blocks `out` have been entered, first
    one first, and the stack holds blocks that it may enter next. -/
structure Entering (roots out stack : List Label) : Prop where
  nodup : out.Nodup
  covers : ∀ x ∈ roots, x ∈ out ∨ x ∈ stack
  closed : ∀ u ∈ out, ∀ v, G.Edge u v → v ∈ out ∨ v ∈ stack
  /-- Whatever has been entered was asked for, or a predecessor was entered before it. -/
  parent : ∀ x ∈ out, x ∈ roots ∨ ∃ p, G.Edge p x ∧ [p, x].Sublist out
  asked : ∀ x ∈ stack, x ∈ roots ∨ ∃ p ∈ out, G.Edge p x

variable {G} {roots out stack : List Label} {l : Label}

theorem entering_start (roots : List Label) : G.Entering roots [] roots where
  nodup := List.nodup_nil
  covers := fun _ hx => Or.inr hx
  closed := by simp
  parent := by simp
  asked := fun _ hx => Or.inl hx

/-- A block entered before is passed over. -/
theorem Entering.pass (h : G.Entering roots out (l :: stack)) (hl : l ∈ out) :
    G.Entering roots out stack where
  nodup := h.nodup
  covers := by
    intro x hx
    rcases h.covers x hx with ho | hs
    · exact Or.inl ho
    · rcases List.mem_cons.1 hs with rfl | hs
      · exact Or.inl hl
      · exact Or.inr hs
  closed := by
    intro u hu v huv
    rcases h.closed u hu v huv with ho | hs
    · exact Or.inl ho
    · rcases List.mem_cons.1 hs with rfl | hs
      · exact Or.inl hl
      · exact Or.inr hs
  parent := h.parent
  asked := fun x hx => h.asked x (List.mem_cons_of_mem _ hx)

/-- A new block is entered, and those of its successors that are new come to the top. -/
theorem Entering.enter (h : G.Entering roots out (l :: stack)) (hl : l ∉ out) :
    G.Entering roots (out ++ [l])
      ((G.successorsOf l).filter (fun s => decide (s ∉ out ++ [l])) ++ stack) where
  nodup := by
    refine List.nodup_append.2 ⟨h.nodup, List.nodup_singleton l, ?_⟩
    rintro x hx y hy rfl
    exact hl (List.mem_singleton.1 hy ▸ hx)
  covers := by
    intro x hx
    rcases h.covers x hx with ho | hs
    · exact Or.inl (List.mem_append_left _ ho)
    · rcases List.mem_cons.1 hs with rfl | hs
      · exact Or.inl (by simp)
      · exact Or.inr (List.mem_append_right _ hs)
  closed := by
    intro u hu v huv
    by_cases hv : v ∈ out ++ [l]
    · exact Or.inl hv
    · refine Or.inr ?_
      rcases List.mem_append.1 hu with hu | hu
      · rcases h.closed u hu v huv with ho | hs
        · exact absurd (List.mem_append_left _ ho) hv
        · rcases List.mem_cons.1 hs with rfl | hs
          · exact absurd (by simp) hv
          · exact List.mem_append_right _ hs
      · rw [List.mem_singleton.1 hu] at huv
        refine List.mem_append_left _ (List.mem_filter.2 ⟨mem_successorsOf.2 huv, ?_⟩)
        exact decide_eq_true hv
  parent := by
    intro x hx
    rcases List.mem_append.1 hx with hx | hx
    · rcases h.parent x hx with hr | ⟨p, hp, hsub⟩
      · exact Or.inl hr
      · exact Or.inr ⟨p, hp, hsub.trans (List.sublist_append_left _ _)⟩
    · rw [List.mem_singleton.1 hx]
      rcases h.asked l List.mem_cons_self with hr | ⟨p, hp, hpl⟩
      · exact Or.inl hr
      · exact Or.inr ⟨p, hpl, (List.singleton_sublist.2 hp).append (List.Sublist.refl [l])⟩
  asked := by
    intro x hx
    rcases List.mem_append.1 hx with hx | hx
    · have hs := List.mem_of_mem_filter hx
      exact Or.inr ⟨l, by simp, mem_successorsOf.1 hs⟩
    · rcases h.asked x (List.mem_cons_of_mem _ hx) with hr | ⟨p, hp, hpx⟩
      · exact Or.inl hr
      · exact Or.inr ⟨p, List.mem_append_left _ hp, hpx⟩

/-- A search goes on until nothing is left on the stack. -/
theorem Entering.enterAll (h : G.Entering roots out stack) :
    G.Entering roots (G.enterAll out stack) [] := by
  induction out, stack using enterAll.induct G with
  | case1 out => rwa [enterAll_nil]
  | case2 out l stack hl ih =>
    rw [enterAll_cons_of_mem G hl]
    exact ih (h.pass hl)
  | case3 out l stack hl ih =>
    rw [enterAll_cons_of_not_mem G hl]
    exact ih (h.enter hl)

/-! ### The whole graph -/

variable (G)

theorem preOrder_entering : G.Entering (G.entry :: G.labels) G.preOrder [] :=
  (entering_start (G.entry :: G.labels)).enterAll

theorem nodup_preOrder : G.preOrder.Nodup := G.preOrder_entering.nodup

variable {G}

theorem mem_preOrder : l ∈ G.preOrder ↔ l ∈ G := by
  constructor
  · intro h
    rcases G.preOrder_entering.parent l h with hr | ⟨p, hp, -⟩
    · rcases List.mem_cons.1 hr with rfl | hr
      · exact G.entry_mem
      · exact hr
    · exact hp.target_mem
  · intro h
    rcases G.preOrder_entering.covers l (List.mem_cons_of_mem _ h) with hm | hn
    · exact hm
    · exact absurd hn List.not_mem_nil

variable (G) in
theorem perm_preOrder : G.preOrder.Perm G.labels :=
  (List.perm_ext_iff_of_nodup G.nodup_preOrder G.nodup_labels).2 fun _ => mem_preOrder

/-! ### However far a walk has come -/

variable {walked rest : List Label} {p : Label}

theorem mem_of_append_cons_eq (h : walked ++ l :: rest = G.preOrder) : l ∈ G := by
  rw [← mem_preOrder, ← h]
  simp

/-- The blocks walked before a block are those that come before it in the order. -/
theorem mem_walked_iff (h : walked ++ l :: rest = G.preOrder) :
    p ∈ walked ↔ G.preOrder.idxOf p < G.preOrder.idxOf l := by
  have hn := G.nodup_preOrder
  rw [← h] at hn ⊢
  have hl : l ∉ walked := fun hm => List.disjoint_of_nodup_append hn hm List.mem_cons_self
  rw [List.idxOf_append_of_notMem hl, List.idxOf_cons_self, Nat.add_zero]
  constructor
  · intro hp
    rw [List.idxOf_append_of_mem hp]
    exact List.idxOf_lt_length_iff.2 hp
  · intro hlt
    by_contra hp
    rw [List.idxOf_append_of_notMem hp] at hlt
    omega

theorem not_mem_walked (h : walked ++ l :: rest = G.preOrder) : l ∉ walked := fun hl =>
  Nat.lt_irrefl _ ((mem_walked_iff h).1 hl)

theorem idxOf_lt_of_sublist (h : [p, l].Sublist G.preOrder) :
    G.preOrder.idxOf p < G.preOrder.idxOf l :=
  idxOf_lt_of_sublist_of_nodup G.nodup_preOrder h

/-- No path leads out of what the search from the entry has entered. -/
theorem Entering.mem_of_reachable (h : G.Entering [G.entry] out []) (hl : G.Reachable l) :
    l ∈ out := by
  induction hl with
  | refl => exact (h.covers G.entry (by simp)).resolve_right List.not_mem_nil
  | tail _ edge ih => exact (h.closed _ ih _ edge).resolve_right List.not_mem_nil

/-- A block that can be reached, other than the entry, is entered after one of its predecessors. -/
theorem Reachable.exists_earlier_predecessor (hl : G.Reachable l) (hne : l ≠ G.entry)
    (h : walked ++ l :: rest = G.preOrder) : ∃ p ∈ walked, G.Edge p l := by
  have hfirst : G.Entering [G.entry] (G.enterAll [] [G.entry]) [] :=
    (entering_start [G.entry]).enterAll
  have horder : G.preOrder = G.enterAll (G.enterAll [] [G.entry]) G.labels :=
    G.enterAll_append [] [G.entry] G.labels
  have hpre : G.enterAll [] [G.entry] <+: G.preOrder := horder ▸ G.prefix_enterAll _ _
  rcases hfirst.parent l (hfirst.mem_of_reachable hl) with hr | ⟨p, hp, hsub⟩
  · exact absurd (List.mem_singleton.1 hr) hne
  · have hlt := idxOf_lt_of_sublist (hsub.trans hpre.sublist)
    exact ⟨p, (mem_walked_iff h).2 hlt, hp⟩

end Availability.Graph
