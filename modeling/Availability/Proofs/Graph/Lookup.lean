import Mathlib.Data.List.Nodup
import Availability.Graph

/-! Looking up labels in a graph: on the labels of the graph every lookup succeeds, and what it
    finds agrees with the blocks and the edges.

    The index holds every label where it stands in the layout, and labels are distinct, so what it
    leads to is the block with the label. The table of predecessors is a fold over all edges. Label
    by label it is a fold over the edges that lead to the label, and block by block these list the
    block once or not at all. So the predecessors are the blocks with the label among their
    successors, in layout order. -/

namespace Availability

variable {ι : Type}

/-! ### The table of predecessors -/

namespace Tables

/-- Lists the sources of edges one after another, each once. -/
def addSources (sources : List Label) (edges : List (Label × Label)) : List Label :=
  edges.foldl (fun ps e => addSource ps e.1) sources

/-- Edges from blocks that are listed already change nothing. -/
theorem addSources_of_forall_mem : ∀ {edges : List (Label × Label)} {sources : List Label},
    (∀ e ∈ edges, e.1 ∈ sources) → addSources sources edges = sources
  | [], _, _ => rfl
  | e :: edges, sources, h => by
      rw [addSources, List.foldl_cons, addSource, if_pos (h e List.mem_cons_self)]
      exact addSources_of_forall_mem fun e' he' => h e' (List.mem_cons_of_mem _ he')

/-- Edges that all come from one new block list it once, however many they are. -/
theorem addSources_of_forall_eq {p : Label} : ∀ {edges : List (Label × Label)}
    {sources : List Label}, edges ≠ [] → (∀ e ∈ edges, e.1 = p) → p ∉ sources →
    addSources sources edges = sources ++ [p]
  | [], _, hne, _, _ => absurd rfl hne
  | e :: edges, sources, _, h, hp => by
      have he : e.1 = p := h e List.mem_cons_self
      rw [addSources, List.foldl_cons, he, addSource, if_neg hp]
      refine addSources_of_forall_mem fun e' he' => ?_
      simp [h e' (List.mem_cons_of_mem _ he')]

/-- The edges of a new block to `l` list the block if there are any. -/
theorem addSources_block {b : Block ι} {l : Label} {sources : List Label}
    (hnew : b.label ∉ sources) :
    addSources sources ((b.successors.map fun s => (b.label, s)).filter
        fun e => decide (e.2 = l)) =
      if l ∈ b.successors then sources ++ [b.label] else sources := by
  by_cases hl : l ∈ b.successors
  · rw [if_pos hl]
    refine addSources_of_forall_eq (List.ne_nil_of_mem (a := (b.label, l)) ?_) (by simp) hnew
    exact List.mem_filter.2 ⟨List.mem_map_of_mem hl, by simp⟩
  · rw [if_neg hl]
    refine addSources_of_forall_mem fun e he => absurd ?_ hl
    obtain ⟨hmap, hel⟩ := List.mem_filter.1 he
    obtain ⟨s, hs, rfl⟩ := List.mem_map.1 hmap
    exact of_decide_eq_true hel ▸ hs

/-- Where labels are distinct, the edges to `l` list the blocks that have `l` among their
    successors, one block after another. -/
theorem addSources_edges {l : Label} : ∀ {blocks : List (Block ι)} {sources : List Label},
    (Block.labels blocks).Nodup → (∀ p ∈ sources, p ∉ Block.labels blocks) →
    addSources sources ((Block.edges blocks).filter fun e => decide (e.2 = l)) =
      sources ++ Block.labels (blocks.filter fun b => decide (l ∈ b.successors))
  | [], sources, _, _ => by simp [addSources, Block.edges, Block.labels]
  | b :: blocks, sources, hn, hs => by
      obtain ⟨hb, hn⟩ : b.label ∉ Block.labels blocks ∧ (Block.labels blocks).Nodup :=
        List.nodup_cons.1 hn
      have hnew : b.label ∉ sources := fun hm => hs _ hm List.mem_cons_self
      have hrest : ∀ p ∈ sources, p ∉ Block.labels blocks := fun p hp hm =>
        hs p hp (List.mem_cons_of_mem _ hm)
      rw [Block.edges, List.flatMap_cons, List.filter_append, addSources, List.foldl_append,
        ← addSources, ← addSources, ← Block.edges, addSources_block hnew]
      by_cases hl : l ∈ b.successors
      · have hfresh : ∀ p ∈ sources ++ [b.label], p ∉ Block.labels blocks := by
          intro p hp
          rcases List.mem_append.1 hp with hp | hp
          · exact hrest p hp
          · exact List.mem_singleton.1 hp ▸ hb
        rw [if_pos hl, addSources_edges hn hfresh, List.filter_cons_of_pos (by simpa using hl),
          List.append_assoc]
        rfl
      · rw [if_neg hl, addSources_edges hn hrest, List.filter_cons_of_neg (by simpa using hl)]

variable {t t' : Tables} {edges : List (Label × Label)}

/-- An edge is entered only if its target has been, and changes what leads there. -/
theorem of_addEdge_eq_ok {e : Label × Label} (h : t.addEdge e = .ok t') :
    t.predecessors.get? e.2 ≠ none ∧ ∀ l, t'.predecessors.get? l =
      (t.predecessors.get? l).map fun ps => if l = e.2 then addSource ps e.1 else ps := by
  unfold addEdge at h
  split at h
  · cases h
  · next ps hps =>
    cases h
    refine ⟨by simp [hps], fun l => ?_⟩
    rw [LabelMap.get?_set]
    by_cases hl : l = e.2 <;> simp [hl, hps]

/-- Edges are entered only if their targets have been. The list at `l` then changes by those that
    lead to `l`. -/
theorem of_foldlM_addEdge_eq_ok (h : edges.foldlM addEdge t = .ok t') :
    (∀ e ∈ edges, t.predecessors.get? e.2 ≠ none) ∧ ∀ l, t'.predecessors.get? l =
      (t.predecessors.get? l).map fun ps =>
        addSources ps (edges.filter fun e => decide (e.2 = l)) := by
  induction edges generalizing t with
  | nil =>
    cases h
    simp [addSources]
  | cons e edges ih =>
    rw [List.foldlM_cons] at h
    obtain ⟨u, hu, hrest⟩ := bind_eq_ok_iff.1 h
    obtain ⟨hknown, hstep⟩ := of_addEdge_eq_ok hu
    obtain ⟨hall, hrun⟩ := ih hrest
    refine ⟨List.forall_mem_cons.2 ⟨hknown, fun e' he' hnone => hall e' he' ?_⟩, fun l => ?_⟩
    · rw [hstep, hnone]
      rfl
    · rw [hrun, hstep, Option.map_map]
      by_cases hl : l = e.2
      · rw [List.filter_cons_of_pos (by simpa using hl.symm)]
        simp [hl, addSources, Function.comp_def]
      · rw [List.filter_cons_of_neg (by simpa using fun h => hl h.symm)]
        simp [hl, Function.comp_def]

/-- Tables are made for blocks with distinct labels and known successors only. -/
theorem of_ofBlocks_eq_ok {blocks : List (Block ι)} (h : ofBlocks blocks = .ok t) :
    (Block.labels blocks).Nodup ∧ (∀ e ∈ Block.edges blocks, e.2 ∈ Block.labels blocks) ∧
      ∀ l, t.predecessors.get? l = if l ∈ Block.labels blocks then
        some (addSources [] ((Block.edges blocks).filter fun e => decide (e.2 = l))) else none := by
  obtain ⟨u, hu, hedges⟩ := bind_eq_ok_iff.1 h
  obtain ⟨hn, hlists⟩ := lists_empty.of_addBlocks_eq_ok List.nodup_nil hu
  rw [List.nil_append] at hn hlists
  obtain ⟨hall, hrun⟩ := of_foldlM_addEdge_eq_ok hedges
  simp only [hlists.predecessors_eq] at hall hrun
  refine ⟨hn, fun e he => ?_, fun l => ?_⟩
  · by_contra hno
    exact hall e he (if_neg hno)
  · rw [hrun]
    split <;> rfl

end Tables

namespace Graph

variable (G : Graph ι)

/-- The instructions of `l`, and none for a label that is not in the graph. -/
def codeOf (l : Label) : List ι := (G.block? l).elim [] Block.code

/-- The predecessors of `l`, and none for a label that is not in the graph. -/
def predecessorsOf (l : Label) : List Label := (G.tables.predecessors.get? l).getD []

theorem nodup_labels : (Block.labels G.blocks).Nodup := (Tables.of_ofBlocks_eq_ok G.tables_eq).1

theorem closed : ∀ e ∈ Block.edges G.blocks, e.2 ∈ Block.labels G.blocks :=
  (Tables.of_ofBlocks_eq_ok G.tables_eq).2.1

variable {G}

theorem Edge.target_mem {u v : Label} (h : G.Edge u v) : v ∈ G := G.closed _ h

theorem contains_iff {l : Label} : G.contains l = true ↔ l ∈ G := by
  rw [contains, index_get?]
  exact List.isSome_idxOf?

theorem block?_eq_none_iff {l : Label} : G.block? l = none ↔ l ∉ G := by
  rw [← contains_iff, contains, block?]
  split <;> simp [*]

theorem block?_eq_some_iff {l : Label} {b : Block ι} :
    G.block? l = some b ↔ b ∈ G.blocks ∧ b.label = l := by
  refine ⟨mem_of_block?_eq_some, ?_⟩
  rintro ⟨hb, rfl⟩
  cases hc : G.block? b.label with
  | none => exact absurd (List.mem_map_of_mem hb) (block?_eq_none_iff.1 hc)
  | some c =>
    obtain ⟨hmem, hlabel⟩ := mem_of_block?_eq_some hc
    rw [List.inj_on_of_nodup_map G.nodup_labels hmem hb hlabel]

theorem mem_successorsOf {u v : Label} : v ∈ G.successorsOf u ↔ G.Edge u v := by
  rw [Edge, Block.mem_edges, successorsOf]
  cases h : G.block? u with
  | none =>
    have hu := block?_eq_none_iff.1 h
    simp only [Option.elim_none, List.not_mem_nil, false_iff]
    rintro ⟨b, hb, rfl, _⟩
    exact hu (List.mem_map_of_mem hb)
  | some c =>
    obtain ⟨hc, rfl⟩ := block?_eq_some_iff.1 h
    constructor
    · exact fun hv => ⟨c, hc, rfl, hv⟩
    · rintro ⟨b, hb, hbc, hv⟩
      rw [List.inj_on_of_nodup_map G.nodup_labels hb hc hbc] at hv
      exact hv

theorem predecessors_get? (l : Label) :
    G.tables.predecessors.get? l =
      if l ∈ G then
        some (Tables.addSources [] ((Block.edges G.blocks).filter fun e => decide (e.2 = l)))
      else none :=
  (Tables.of_ofBlocks_eq_ok G.tables_eq).2.2 l

theorem predecessors_eq_ok {l : Label} (h : l ∈ G) :
    G.predecessors l = .ok (G.predecessorsOf l) := by
  rw [predecessors, predecessorsOf, predecessors_get?, if_pos h]
  rfl

theorem predecessors_eq_error {l : Label} (h : l ∉ G) :
    G.predecessors l = .error (.unknownBlock l) := by
  rw [predecessors, predecessors_get?, if_neg h]
  rfl

/-- The predecessors can be looked up for the labels of the graph and for no others. -/
theorem predecessors_eq_ok_iff {l : Label} {ps : List Label} :
    G.predecessors l = .ok ps ↔ l ∈ G ∧ ps = G.predecessorsOf l := by
  constructor
  · intro h
    by_cases hl : l ∈ G
    · rw [predecessors_eq_ok hl] at h
      exact ⟨hl, (Except.ok.inj h).symm⟩
    · rw [predecessors_eq_error hl] at h
      cases h
  · rintro ⟨hl, rfl⟩
    exact predecessors_eq_ok hl

/-- The predecessors of a block are those that have it among their successors, in layout order. -/
theorem predecessorsOf_eq {l : Label} (h : l ∈ G) :
    G.predecessorsOf l =
      Block.labels (G.blocks.filter fun b => decide (l ∈ b.successors)) := by
  rw [predecessorsOf, predecessors_get?, if_pos h, Option.getD_some,
    Tables.addSources_edges G.nodup_labels (by simp), List.nil_append]

theorem mem_predecessorsOf {p l : Label} (h : l ∈ G) : p ∈ G.predecessorsOf l ↔ G.Edge p l := by
  rw [predecessorsOf_eq h, Edge, Block.mem_edges]
  simp [Block.labels, and_assoc, and_comm]

/-- No block is listed twice among the predecessors of another. -/
theorem nodup_predecessorsOf (G : Graph ι) (l : Label) : (G.predecessorsOf l).Nodup := by
  by_cases h : l ∈ G
  · rw [predecessorsOf_eq h]
    exact (List.filter_sublist.map Block.label).nodup G.nodup_labels
  · rw [predecessorsOf, predecessors_get?, if_neg h]
    exact List.nodup_nil

theorem block_eq_ok {l : Label} (h : l ∈ G) :
    G.block l = .ok ⟨l, G.codeOf l, G.successorsOf l⟩ := by
  rw [block, codeOf, successorsOf]
  cases hb : G.block? l with
  | none => exact absurd h (block?_eq_none_iff.1 hb)
  | some b =>
    obtain ⟨-, rfl⟩ := block?_eq_some_iff.1 hb
    rfl

theorem codeOf_ne_nil (h : ∀ b ∈ G.blocks, b.code ≠ []) {l : Label} (hl : l ∈ G) :
    G.codeOf l ≠ [] := by
  rw [codeOf]
  cases hb : G.block? l with
  | none => exact absurd hl (block?_eq_none_iff.1 hb)
  | some b => exact h b (block?_eq_some_iff.1 hb).1

theorem block_eq_error {l : Label} (h : l ∉ G) : G.block l = .error (.unknownBlock l) := by
  rw [block, block?_eq_none_iff.2 h]
  rfl

/-- A block can be looked up for the labels of the graph and for no others. -/
theorem block_eq_ok_iff {l : Label} {b : Block ι} :
    G.block l = .ok b ↔ l ∈ G ∧ b = ⟨l, G.codeOf l, G.successorsOf l⟩ := by
  constructor
  · intro h
    by_cases hl : l ∈ G
    · rw [block_eq_ok hl] at h
      exact ⟨hl, (Except.ok.inj h).symm⟩
    · rw [block_eq_error hl] at h
      cases h
  · rintro ⟨hl, rfl⟩
    exact block_eq_ok hl

theorem successors_eq_ok {l : Label} (h : l ∈ G) : G.successors l = .ok (G.successorsOf l) := by
  rw [successors, block_eq_ok h]
  rfl

theorem successors_eq_error {l : Label} (h : l ∉ G) :
    G.successors l = .error (.unknownBlock l) := by
  rw [successors, block_eq_error h]
  rfl

/-- The successors can be looked up for the labels of the graph and for no others. -/
theorem successors_eq_ok_iff {l : Label} {next : List Label} :
    G.successors l = .ok next ↔ l ∈ G ∧ next = G.successorsOf l := by
  constructor
  · intro h
    by_cases hl : l ∈ G
    · rw [successors_eq_ok hl] at h
      exact ⟨hl, (Except.ok.inj h).symm⟩
    · rw [successors_eq_error hl] at h
      cases h
  · rintro ⟨hl, rfl⟩
    exact successors_eq_ok hl

end Graph

end Availability
