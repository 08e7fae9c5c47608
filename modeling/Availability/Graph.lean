import Availability.Error

/-! Control-flow graphs: blocks of instructions and the edges between them.

    A graph is a non-empty list of blocks with distinct labels whose successors all name blocks of
    the list. The first block is the entry. Beside the blocks it keeps two tables: where the block
    with a label stands in the list, and which blocks have an edge to it. `Graph.ofBlocks` fills
    them in two passes, and these are the only check: the first stops at a label that has been
    entered already, the second at a successor that has not. Labels are looked up in the tables
    only. -/

namespace Availability

/-- A run of instructions that is entered at the top and left at the bottom. -/
structure Block (ι : Type) where
  label : Label
  code : List ι
  /-- Where control may go next, in order and possibly repeated. -/
  successors : List Label

variable {ι : Type}

namespace Block

/-- The labels of blocks, in layout order. -/
def labels (blocks : List (Block ι)) : List Label := blocks.map Block.label

/-- All edges, as pairs of source and target, in layout order. -/
def edges (blocks : List (Block ι)) : List (Label × Label) :=
  blocks.flatMap fun b => b.successors.map fun s => (b.label, s)

theorem mem_edges {blocks : List (Block ι)} {u v : Label} :
    (u, v) ∈ edges blocks ↔ ∃ b ∈ blocks, b.label = u ∧ v ∈ b.successors := by
  simp only [edges, List.mem_flatMap, List.mem_map, Prod.mk.injEq]
  constructor
  · rintro ⟨b, hb, s, hs, rfl, rfl⟩
    exact ⟨b, hb, rfl, hs⟩
  · rintro ⟨b, hb, rfl, hv⟩
    exact ⟨b, hb, v, hv, rfl, rfl⟩

end Block

/-! ### Tables -/

/-- What is kept of blocks by their labels. -/
structure Tables where
  /-- Where in the layout a block stands. -/
  index : LabelMap Nat
  /-- The blocks with an edge to a block, in the order of the edges. -/
  predecessors : LabelMap (List Label)

namespace Tables

/-- No block is entered. -/
def empty : Tables := ⟨.empty, .empty⟩

/-- Enters a block that stands at `position`, with no predecessors yet. No label may be entered
    twice. -/
def addBlock (t : Tables) (position : Nat) (l : Label) : Except Error Tables :=
  if (t.index.get? l).isSome then .error (.duplicateBlock l)
  else .ok ⟨t.index.set l position, t.predecessors.set l []⟩

/-- Enters blocks one after another, the first of them at `position`. -/
def addBlocks (t : Tables) (position : Nat) : List Label → Except Error Tables
  | [] => .ok t
  | l :: ls => do addBlocks (← t.addBlock position l) (position + 1) ls

/-- Adds a block to predecessors, unless it is there already. -/
def addSource (ps : List Label) (p : Label) : List Label := if p ∈ ps then ps else ps ++ [p]

/-- Enters an edge. The block that it leads to must have been entered. -/
def addEdge (t : Tables) (e : Label × Label) : Except Error Tables :=
  match t.predecessors.get? e.2 with
  | none => .error (.unknownBlock e.2)
  | some ps => .ok { t with predecessors := t.predecessors.set e.2 (addSource ps e.1) }

/-- The tables of these blocks: all blocks are entered, and then all edges. -/
def ofBlocks (blocks : List (Block ι)) : Except Error Tables := do
  let t ← empty.addBlocks 0 (Block.labels blocks)
  (Block.edges blocks).foldlM addEdge t

/-- The labels `ls` have been entered, each at its place, and no edges. -/
structure Lists (t : Tables) (ls : List Label) : Prop where
  index_eq : ∀ l, t.index.get? l = ls.idxOf? l
  predecessors_eq : ∀ l, t.predecessors.get? l = if l ∈ ls then some [] else none

variable {t t' : Tables} {ls done : List Label} {l : Label}

theorem lists_empty : empty.Lists [] := ⟨fun _ => rfl, fun _ => rfl⟩

theorem Lists.addBlock_of_mem (h : t.Lists done) (hl : l ∈ done) (position : Nat) :
    t.addBlock position l = .error (.duplicateBlock l) := by
  rw [addBlock, h.index_eq, if_pos (List.isSome_idxOf?.2 hl)]

theorem idxOf?_concat (hl : l ∉ done) (k : Label) :
    (done ++ [l]).idxOf? k = if k = l then some done.length else done.idxOf? k := by
  have happend : (done ++ [l]).idxOf? k =
      (done.idxOf? k).or (([l].idxOf? k).map (· + done.length)) := List.findIdx?_append
  rw [happend, List.idxOf?_cons]
  by_cases hk : k = l
  · simp [hk, List.idxOf?_eq_none_iff.2 hl]
  · have hlk : ¬ l = k := fun h => hk h.symm
    simp [hk, hlk]

/-- A label that is not there yet is entered behind the others. -/
theorem Lists.addBlock_of_not_mem (h : t.Lists done) (hl : l ∉ done) :
    ∃ t', t.addBlock done.length l = .ok t' ∧ t'.Lists (done ++ [l]) := by
  have hnone : ¬ (done.idxOf? l).isSome := fun hs => hl (List.isSome_idxOf?.1 hs)
  refine ⟨_, by rw [addBlock, h.index_eq, if_neg hnone], fun k => ?_, fun k => ?_⟩
  · rw [LabelMap.get?_set, h.index_eq, idxOf?_concat hl]
  · rw [LabelMap.get?_set, h.predecessors_eq]
    by_cases hk : k = l <;> simp [hk]

/-- Labels are entered behind one another, as long as none of them is there already. -/
theorem Lists.of_addBlocks_eq_ok (h : t.Lists done) (hn : done.Nodup)
    (hok : t.addBlocks done.length ls = .ok t') : (done ++ ls).Nodup ∧ t'.Lists (done ++ ls) := by
  induction ls generalizing t done with
  | nil =>
    cases hok
    rw [List.append_nil]
    exact ⟨hn, h⟩
  | cons l ls ih =>
    rw [addBlocks] at hok
    by_cases hl : l ∈ done
    · rw [h.addBlock_of_mem hl] at hok
      cases hok
    · obtain ⟨u, hu, hlists⟩ := h.addBlock_of_not_mem hl
      have hnodup : (done ++ [l]).Nodup := List.nodup_append.2
        ⟨hn, by simp, fun a ha b hb hab => hl (List.mem_singleton.1 hb ▸ hab ▸ ha)⟩
      have hlen : (done ++ [l]).length = done.length + 1 := List.length_append
      rw [hu] at hok
      rw [List.append_cons]
      exact ih hlists hnodup (hlen ▸ hok)

/-- Entering edges leaves the index alone. -/
theorem index_of_foldlM_addEdge_eq_ok {edges : List (Label × Label)}
    (hok : edges.foldlM addEdge t = .ok t') : t'.index = t.index := by
  induction edges generalizing t with
  | nil =>
    cases hok
    rfl
  | cons e edges ih =>
    rw [List.foldlM_cons] at hok
    obtain ⟨u, hu, hrest⟩ := bind_eq_ok_iff.1 hok
    rw [ih hrest]
    unfold addEdge at hu
    split at hu
    · cases hu
    · cases hu
      rfl

end Tables

/-! ### Graphs -/

/-- A control-flow graph. -/
structure Graph (ι : Type) where
  /-- The blocks in layout order; the first is the entry. -/
  blocks : List (Block ι)
  blocks_ne_nil : blocks ≠ []
  /-- Where blocks stand and what leads to them, tabulated once. -/
  tables : Tables
  tables_eq : Tables.ofBlocks blocks = .ok tables

namespace Graph

/-- The graph of these blocks, or the first defect: no blocks at all, else a repeated label, else
    a successor that names no block. -/
def ofBlocks (blocks : List (Block ι)) : Except Error (Graph ι) :=
  if hne : blocks = [] then .error .emptyGraph
  else match h : Tables.ofBlocks blocks with
    | .error e => .error e
    | .ok tables => .ok ⟨blocks, hne, tables, h⟩

variable (G : Graph ι)

/-- The labels of the graph, in layout order. -/
def labels : List Label := Block.labels G.blocks

/-- Where control enters the graph. -/
def entry : Label := (G.blocks.head G.blocks_ne_nil).label

/-- The number of blocks. -/
def size : Nat := G.blocks.length

/-- A label is in a graph when it labels one of the blocks. -/
instance : Membership Label (Graph ι) := ⟨fun G l => l ∈ G.labels⟩

instance (l : Label) : Decidable (l ∈ G) := inferInstanceAs (Decidable (l ∈ G.labels))

/-- There is an edge from `u` to each of the successors that `u` lists. -/
def Edge (u v : Label) : Prop := (u, v) ∈ Block.edges G.blocks

theorem entry_mem : G.entry ∈ G :=
  List.mem_map_of_mem (List.head_mem G.blocks_ne_nil)

variable {G} in
theorem Edge.source_mem {u v : Label} (h : G.Edge u v) : u ∈ G := by
  obtain ⟨b, hb, rfl, _⟩ := Block.mem_edges.1 h
  exact List.mem_map_of_mem hb

/-! ### Looking up a label -/

/-- The index says where the first block with a label stands. -/
theorem index_get? (l : Label) : G.tables.index.get? l = G.labels.idxOf? l := by
  obtain ⟨t, ht, hedges⟩ := bind_eq_ok_iff.1 G.tables_eq
  have hlists := (Tables.lists_empty.of_addBlocks_eq_ok List.nodup_nil ht).2
  rw [Tables.index_of_foldlM_addEdge_eq_ok hedges]
  exact hlists.index_eq l

variable {G} in
theorem index_lt {l : Label} {n : Nat} (h : G.tables.index.get? l = some n) :
    n < G.blocks.length := by
  rw [index_get?] at h
  obtain ⟨hn, -⟩ := List.idxOf?_eq_some_iff.1 h
  rwa [labels, Block.labels, List.length_map] at hn

/-- Whether some block is labelled `l`. -/
def contains (l : Label) : Bool := (G.tables.index.get? l).isSome

/-- The block labelled `l`. -/
def block? (l : Label) : Option (Block ι) :=
  match h : G.tables.index.get? l with
  | none => none
  | some n => some (G.blocks.get ⟨n, index_lt h⟩)

/-- The block labelled `l`, or an error that names `l`. -/
def block (l : Label) : Except Error (Block ι) := (G.block? l).elim (.error (.unknownBlock l)) .ok

/-- The successors of the block labelled `l`, or an error that names `l`. -/
def successors (l : Label) : Except Error (List Label) := (G.block l).map Block.successors

/-- The predecessors of the block labelled `l`, or an error that names `l`. -/
def predecessors (l : Label) : Except Error (List Label) :=
  (G.tables.predecessors.get? l).elim (.error (.unknownBlock l)) .ok

/-- The successors of `l`, and none for a label that is not in the graph. -/
def successorsOf (l : Label) : List Label := (G.block? l).elim [] Block.successors

variable {G} in
/-- At the place that the index names stands a block with the label. -/
theorem mem_of_block?_eq_some {l : Label} {b : Block ι} (h : G.block? l = some b) :
    b ∈ G.blocks ∧ b.label = l := by
  unfold block? at h
  split at h
  · cases h
  · next n hn =>
    cases h
    refine ⟨List.get_mem _ _, ?_⟩
    rw [index_get?] at hn
    obtain ⟨_, hlabel, -⟩ := List.idxOf?_eq_some_iff.1 hn
    simpa [labels, Block.labels] using hlabel

end Graph

end Availability
