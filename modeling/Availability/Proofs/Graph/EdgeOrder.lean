import Availability.Proofs.Graph.PreOrder

/-! How the edges of a graph lie in the orders of a depth-first search.

    When a search leaves a block, every successor of it has been entered. Those that have not been
    left by then are on the way from where the search started to the block, so that a path leads
    back from them. Every other edge points backwards in the leaving order. Where all edges but
    those from a block to itself point forwards in the entering order, there is no way back at all:
    then the reversed leaving order runs along the edges as well. -/

namespace Availability.Graph

variable {ι : Type} (G : Graph ι)

/-- How the blocks `new` follow one another when a search from `todo` leaves them, the blocks
    `entered` having been entered before. -/
structure LeavingOrder (entered todo new : List Label) : Prop where
  reached : ∀ x ∈ new, ∃ r ∈ todo, Relation.ReflTransGen G.Edge r x
  /-- A block is left after a successor of it, unless the successor leads back to it. -/
  edge : ∀ u ∈ new, ∀ v, G.Edge u v →
    v ∈ entered ∨ [v, u].Sublist new ∨ Relation.ReflTransGen G.Edge v u

variable {G} {entered entered' todo below after : List Label} {l u v : Label}

/-- A block entered before is passed over. -/
theorem LeavingOrder.cons {new : List Label} (h : G.LeavingOrder entered todo new) (l : Label) :
    G.LeavingOrder entered (l :: todo) new where
  reached := by
    intro x hx
    obtain ⟨r, hr, path⟩ := h.reached x hx
    exact ⟨r, List.mem_cons_of_mem _ hr, path⟩
  edge := h.edge

/-- Everything left below `l` is reached from `l`. -/
theorem LeavingOrder.path_of_mem (hb : G.LeavingOrder entered (G.successorsOf l) below)
    (hu : u ∈ below) : Relation.ReflTransGen G.Edge l u := by
  obtain ⟨r, hr, path⟩ := hb.reached u hu
  exact .head (mem_successorsOf.1 hr) path

/-- A new block is left after all that lies below it, and before what else was asked for. -/
theorem LeavingOrder.cons_of_not_mem
    (hcov : ∀ x ∈ G.successorsOf l, x ∈ entered ++ [l] ∨ x ∈ below)
    (hb : G.LeavingOrder (entered ++ [l]) (G.successorsOf l) below)
    (he : ∀ x, x ∈ entered' ↔ x ∈ entered ++ [l] ∨ x ∈ below)
    (ha : G.LeavingOrder entered' todo after) :
    G.LeavingOrder entered (l :: todo) (below ++ l :: after) where
  reached := by
    intro x hx
    rcases List.mem_append.1 hx with hx | hx
    · exact ⟨l, List.mem_cons_self, hb.path_of_mem hx⟩
    · rcases List.mem_cons.1 hx with rfl | hx
      · exact ⟨x, List.mem_cons_self, .refl⟩
      · exact (ha.cons l).reached x hx
  edge := by
    intro u hu v huv
    rcases List.mem_append.1 hu with hu | hu
    · -- from below `l`: what was entered before is as it was, and `l` leads back
      rcases hb.edge u hu v huv with hv | hsub | path
      · rcases List.mem_append.1 hv with hv | hv
        · exact Or.inl hv
        · rw [List.mem_singleton.1 hv]
          exact Or.inr (Or.inr (hb.path_of_mem hu))
      · exact Or.inr (Or.inl (hsub.trans (List.sublist_append_left _ _)))
      · exact Or.inr (Or.inr path)
    · rcases List.mem_cons.1 hu with rfl | hu
      · rcases hcov v (mem_successorsOf.2 huv) with hv | hv
        · rcases List.mem_append.1 hv with hv | hv
          · exact Or.inl hv
          · rw [List.mem_singleton.1 hv]
            exact Or.inr (Or.inr .refl)
        · refine Or.inr (Or.inl ?_)
          exact (List.singleton_sublist.2 hv).append (List.singleton_sublist.2 (by simp))
      · rcases ha.edge u hu v huv with hv | hsub | path
        · rw [he, List.mem_append, List.mem_singleton, or_assoc] at hv
          rcases hv with hv | hv
          · exact Or.inl hv
          · -- `l` and all that lies below it are left before `u`
            have hv' : v ∈ below ++ [l] := by simpa [or_comm] using hv
            refine Or.inr (Or.inl ?_)
            rw [List.append_cons]
            exact (List.singleton_sublist.2 hv').append (List.singleton_sublist.2 hu)
        · refine Or.inr (Or.inl (hsub.trans ?_))
          exact (List.sublist_cons_self l after).trans (List.sublist_append_right _ _)
        · exact Or.inr (Or.inr path)

/-- Every search leaves the blocks it enters in such an order. -/
theorem search_leavingOrder (s : Search) (todo : List Label) :
    ∀ new, (G.search s todo).left = s.left ++ new → G.LeavingOrder s.entered todo new := by
  induction s, todo using searchAll.induct G with
  | case1 s =>
    intro new hleft
    have hnil : new = [] := by simpa using hleft
    exact ⟨by simp [hnil], by simp [hnil]⟩
  | case2 s l todo hl ih =>
    rw [search_cons_of_mem G hl]
    exact fun new hleft => (ih new hleft).cons l
  | case3 s l todo hl _ ihb iha _ =>
    obtain ⟨below, hbl, hbe, hb⟩ := G.search_leaving ⟨s.entered ++ [l], s.left⟩ (G.successorsOf l)
    obtain ⟨after, hal, -, -⟩ := G.search_leaving
      ⟨(G.search ⟨s.entered ++ [l], s.left⟩ (G.successorsOf l)).entered,
        (G.search ⟨s.entered ++ [l], s.left⟩ (G.successorsOf l)).left ++ [l]⟩ todo
    rw [search_cons_of_not_mem G hl]
    intro new hleft
    have hnew : new = below ++ l :: after := by
      have h := hleft.symm.trans hal
      rw [hbl] at h
      simpa using h
    rw [hnew]
    exact LeavingOrder.cons_of_not_mem hb.covers (ihb below hbl) hbe (iha after hal)

variable (G) in
theorem postOrder_leavingOrder : G.LeavingOrder [] (G.entry :: G.labels) G.postOrder :=
  search_leavingOrder ⟨[], []⟩ _ _ (List.nil_append _).symm

/-- An edge leads to a block that is left before, or to one from which a path leads back. -/
theorem Edge.sublist_postOrder_or_path (h : G.Edge u v) :
    [v, u].Sublist G.postOrder ∨ Relation.ReflTransGen G.Edge v u :=
  (G.postOrder_leavingOrder.edge u (G.mem_postOrder.2 h.source_mem) v h).resolve_left
    List.not_mem_nil

/-! ### Graphs without cycles -/

variable (G) in
/-- No path leads from a block back to it. -/
def Acyclic : Prop := ∀ l, ¬ Relation.TransGen G.Edge l l

/-- Ranks that fall along every edge leave no way back. -/
theorem acyclic_of_rank {rank : Label → Nat} (h : ∀ u v, G.Edge u v → rank v < rank u) :
    G.Acyclic := by
  have hpath : ∀ u v, Relation.TransGen G.Edge u v → rank v < rank u := by
    intro u v path
    induction path with
    | single edge => exact h _ _ edge
    | tail _ edge ih => exact Nat.lt_trans (h _ _ edge) ih
  exact fun l path => Nat.lt_irrefl _ (hpath l l path)

/-- There is no cycle exactly when every edge leads to a block that is left before. -/
theorem acyclic_iff : G.Acyclic ↔ ∀ u v, G.Edge u v → [v, u].Sublist G.postOrder := by
  constructor
  · intro h u v edge
    rcases edge.sublist_postOrder_or_path with hsub | path
    · exact hsub
    · exact absurd (.tail' path edge) (h v)
  · exact fun h => acyclic_of_rank fun u v edge =>
      idxOf_lt_of_sublist_of_nodup G.nodup_postOrder (h u v edge)

instance : Decidable G.Acyclic :=
  decidable_of_iff (∀ e ∈ Block.edges G.blocks, [e.2, e.1].Sublist G.postOrder)
    (Iff.trans ⟨fun h u v huv => h (u, v) huv, fun h e he => h e.1 e.2 he⟩ acyclic_iff.symm)

/-! ### The order in which a search of the whole graph finishes -/

variable (G) in
/-- The order starts with what can be reached from the entry, and the entry ends that part. -/
theorem exists_postOrder_eq_reachable :
    ∃ below rest, G.postOrder = below ++ G.entry :: rest ∧
      G.Leaving [G.entry] (G.successorsOf G.entry) below ∧
      ∀ l, G.Reachable l ↔ l = G.entry ∨ l ∈ below := by
  obtain ⟨below, rest, horder, hleft, hb, hreach⟩ := G.exists_postOrder_eq
  have hpath : G.LeavingOrder [G.entry] (G.successorsOf G.entry) below :=
    search_leavingOrder ⟨[G.entry], []⟩ _ below hleft
  refine ⟨below, rest, horder, hb, fun l => ⟨hreach l, ?_⟩⟩
  rintro (rfl | hl)
  · exact .refl
  · exact hpath.path_of_mem hl

variable (G) in
/-- The blocks as a depth-first search of the whole graph, begun at the entry, finishes with
    them. -/
structure FinishingOrder (order : List Label) : Prop where
  nodup : order.Nodup
  mem_iff : ∀ l, l ∈ order ↔ l ∈ G
  /-- What can be reached from the entry comes before all that cannot. -/
  reachable_first : ∀ l m, G.Reachable l → m ∈ G → ¬ G.Reachable m → [l, m].Sublist order
  /-- The entry is the last block that can be reached. -/
  entry_last : ∀ l, G.Reachable l → l ≠ G.entry → [l, G.entry].Sublist order
  /-- The search came to a block from one that it finishes with later. -/
  later_predecessor : ∀ l, G.Reachable l → l ≠ G.entry →
    ∃ p, G.Edge p l ∧ G.Reachable p ∧ [l, p].Sublist order
  /-- An edge leads to a block that is finished before, or to one from which a path leads back. -/
  edge : ∀ u v, G.Edge u v → [v, u].Sublist order ∨ Relation.ReflTransGen G.Edge v u
  /-- Without cycles the reversed order runs along all edges. -/
  topological : G.Acyclic → ∀ u v, G.Edge u v → [u, v].Sublist order.reverse

/-- The leaving order is the order in which a search of the whole graph finishes. -/
theorem postOrder_finishingOrder (G : Graph ι) : G.FinishingOrder G.postOrder := by
  obtain ⟨below, rest, horder, hb, hreach⟩ := G.exists_postOrder_eq_reachable
  have hmem : ∀ l, G.Reachable l ↔ l ∈ below ++ [G.entry] := by
    intro l
    rw [hreach, List.mem_append, List.mem_singleton, or_comm]
  rw [List.append_cons] at horder
  have hfirst : (below ++ [G.entry]).Sublist G.postOrder :=
    horder ▸ List.sublist_append_left _ _
  exact
    { nodup := G.nodup_postOrder
      mem_iff := fun l => G.mem_postOrder
      reachable_first := by
        intro l m hl hm hnot
        rw [← G.mem_postOrder, horder, List.mem_append, ← hmem] at hm
        rw [horder]
        exact (List.singleton_sublist.2 ((hmem l).1 hl)).append
          (List.singleton_sublist.2 (hm.resolve_left hnot))
      entry_last := by
        intro l hl hne
        have hbelow : l ∈ below := ((hreach l).1 hl).resolve_left hne
        exact ((List.singleton_sublist.2 hbelow).append (List.Sublist.refl [G.entry])).trans hfirst
      later_predecessor := by
        intro l hl hne
        obtain ⟨p, hp, hsub⟩ := hb.exists_later_predecessor (((hreach l).1 hl).resolve_left hne)
        exact ⟨p, hp, (hmem p).2 (hsub.subset (by simp)), hsub.trans hfirst⟩
      edge := fun u v huv => huv.sublist_postOrder_or_path
      topological := by
        intro hG u v huv
        simpa using (acyclic_iff.1 hG u v huv).reverse }

-- loops behind the entry, and block 4, to which nothing leads
example : ((Graph.ofBlocks [⟨⟨3⟩, [], [⟨0⟩]⟩, ⟨⟨0⟩, [], [⟨1⟩, ⟨2⟩]⟩, ⟨⟨1⟩, [], [⟨0⟩]⟩,
      ⟨⟨2⟩, [], [⟨1⟩, ⟨2⟩]⟩, ⟨⟨4⟩, [], [⟨0⟩]⟩] : Except Error (Graph Unit)).toOption.map
    Graph.postOrder) = some [⟨1⟩, ⟨2⟩, ⟨0⟩, ⟨3⟩, ⟨4⟩] := by decide +kernel

/-! ### Graphs without loops of two blocks or more -/

variable (G) in
/-- Apart from edges from a block to itself, all edges lead forwards in the entering order. -/
def OnlySelfLoops : Prop :=
  ∀ u v, G.Edge u v → u = v ∨ G.preOrder.idxOf u < G.preOrder.idxOf v

instance : Decidable G.OnlySelfLoops :=
  decidable_of_iff
    (∀ e ∈ Block.edges G.blocks, e.1 = e.2 ∨ G.preOrder.idxOf e.1 < G.preOrder.idxOf e.2)
    ⟨fun h u v huv => h (u, v) huv, fun h e he => h e.1 e.2 he⟩

namespace OnlySelfLoops

variable (h : G.OnlySelfLoops)
include h

/-- No path leads back. -/
theorem idxOf_le (path : Relation.ReflTransGen G.Edge u v) :
    G.preOrder.idxOf u ≤ G.preOrder.idxOf v := by
  induction path with
  | refl => exact Nat.le_refl _
  | tail _ edge ih =>
    rcases h _ _ edge with rfl | hlt
    · exact ih
    · exact Nat.le_trans ih (Nat.le_of_lt hlt)

/-- A block is left after its successors. -/
theorem sublist_postOrder (edge : G.Edge u v) (hne : u ≠ v) : [v, u].Sublist G.postOrder := by
  rcases edge.sublist_postOrder_or_path with hsub | path
  · exact hsub
  · exact absurd (h.idxOf_le path) (Nat.not_le_of_lt ((h u v edge).resolve_left hne))

/-- No edge leads back to a block walked before. -/
theorem not_edge_of_mem_walked {walked rest : List Label}
    (next : walked ++ l :: rest = G.preOrder) (hv : v ∈ walked) : ¬ G.Edge l v := by
  intro edge
  have hlt := (mem_walked_iff next).1 hv
  rcases h l v edge with rfl | hgt
  · exact Nat.lt_irrefl _ hlt
  · exact Nat.lt_asymm hlt hgt

end OnlySelfLoops

end Availability.Graph
