import Availability.Graph

/-! Depth-first orders of the blocks of a graph.

    Both orders start at the entry and then at every block in layout order, so that blocks which
    cannot be reached from the entry are listed too. `preOrder` lists a block when it is entered
    and keeps what is still to be entered on a stack. `postOrder` lists a block when it is left,
    after everything below it. Either search ends because the edges that are still to be followed,
    together with the entries already waiting, become fewer with every step. -/

namespace Availability

variable {ι : Type}

/-! ### Edges still to be followed -/

/-- The number of edges that leave blocks not yet seen. -/
def openEdgesOf (blocks : List (Block ι)) (seen : List Label) : Nat :=
  match blocks with
  | [] => 0
  | b :: blocks => (if b.label ∈ seen then 0 else b.successors.length) + openEdgesOf blocks seen

theorem openEdgesOf_cons (b : Block ι) (blocks : List (Block ι)) (seen : List Label) :
    openEdgesOf (b :: blocks) seen =
      (if b.label ∈ seen then 0 else b.successors.length) + openEdgesOf blocks seen := rfl

/-- Seeing more leaves no more edges open. -/
theorem openEdgesOf_mono {seen seen' : List Label} (h : seen ⊆ seen') :
    ∀ blocks : List (Block ι), openEdgesOf blocks seen' ≤ openEdgesOf blocks seen
  | [] => Nat.le_refl _
  | b :: blocks => by
      have ih := openEdgesOf_mono h blocks
      rw [openEdgesOf_cons, openEdgesOf_cons]
      by_cases hb : b.label ∈ seen
      · rw [if_pos hb, if_pos (h hb)]
        omega
      · rw [if_neg hb]
        split <;> omega

/-- Seeing a new block closes the edges that leave it. -/
theorem openEdgesOf_concat_add_le {seen : List Label} {b : Block ι} (hb : b.label ∉ seen) :
    ∀ {blocks : List (Block ι)}, b ∈ blocks →
      openEdgesOf blocks (seen ++ [b.label]) + b.successors.length ≤ openEdgesOf blocks seen
  | c :: blocks, hmem => by
      have hmono := openEdgesOf_mono (List.subset_append_left seen [b.label]) blocks
      rw [openEdgesOf_cons, openEdgesOf_cons]
      rcases List.mem_cons.1 hmem with rfl | hmem
      · rw [if_pos (by simp), if_neg hb]
        omega
      · have ih := openEdgesOf_concat_add_le hb hmem
        by_cases hc : c.label ∈ seen
        · rw [if_pos hc, if_pos (List.mem_append_left _ hc)]
          omega
        · rw [if_neg hc]
          split <;> omega

namespace Graph

variable (G : Graph ι)

/-- The number of edges of `G` that leave blocks not yet seen. -/
def openEdges (seen : List Label) : Nat := openEdgesOf G.blocks seen

theorem openEdges_concat_add_le {seen : List Label} {l : Label} (hl : l ∉ seen) :
    G.openEdges (seen ++ [l]) + (G.successorsOf l).length ≤ G.openEdges seen := by
  rw [successorsOf]
  cases hb : G.block? l with
  | none => exact openEdgesOf_mono (List.subset_append_left seen [l]) G.blocks
  | some b =>
    obtain ⟨hmem, rfl⟩ := mem_of_block?_eq_some hb
    exact openEdgesOf_concat_add_le hl hmem

/-! ### Entering order -/

/-- Enters the blocks on the stack, first one first, and what can be reached from each before the
    next; `out` lists the blocks entered so far. -/
def enterAll (out : List Label) : (stack : List Label) → List Label
  | [] => out
  | l :: stack =>
    if l ∈ out then enterAll out stack
    else enterAll (out ++ [l])
      ((G.successorsOf l).filter (fun s => decide (s ∉ out ++ [l])) ++ stack)
termination_by stack => stack.length + G.openEdges out
decreasing_by
  · simp
  · next h =>
    have h₁ := G.openEdges_concat_add_le h
    have h₂ := List.length_filter_le (fun s => decide (s ∉ out ++ [l])) (G.successorsOf l)
    simp only [List.length_append, List.length_cons]
    omega

/-- The blocks in the order in which a depth-first search enters them, first successors first. -/
def preOrder : List Label := G.enterAll [] (G.entry :: G.labels)

/-! ### Leaving order -/

/-- How far a depth-first search has come. -/
structure Search where
  /-- The blocks entered, first one first. -/
  entered : List Label
  /-- The blocks left, first one first. -/
  left : List Label

/-- Searches from each of the blocks in turn: enters a block unless it was entered before, searches
    from its successors, and leaves it. What was entered stays entered. -/
def searchAll (s : Search) : (todo : List Label) → { r : Search // s.entered ⊆ r.entered }
  | [] => ⟨s, fun _ h => h⟩
  | l :: todo =>
    if l ∈ s.entered then searchAll s todo
    else
      let below := searchAll ⟨s.entered ++ [l], s.left⟩ (G.successorsOf l)
      let after := searchAll ⟨below.1.entered, below.1.left ++ [l]⟩ todo
      ⟨after.1, fun _ h => after.2 (below.2 (List.mem_append_left _ h))⟩
termination_by todo => todo.length + G.openEdges s.entered
decreasing_by
  · simp
  · next h =>
    have := G.openEdges_concat_add_le h
    simp only [List.length_cons]
    omega
  · exact Nat.add_lt_add_of_lt_of_le (Nat.lt_succ_self _)
      (openEdgesOf_mono (fun _ h => below.2 (List.mem_append_left [l] h)) G.blocks)

/-- Where a search from each of the blocks in turn ends. -/
def search (s : Search) (todo : List Label) : Search := (G.searchAll s todo).1

@[simp] theorem search_nil (s : Search) : G.search s [] = s := by
  rw [search, searchAll]

theorem search_cons_of_mem {s : Search} {l : Label} (h : l ∈ s.entered) (todo : List Label) :
    G.search s (l :: todo) = G.search s todo := by
  rw [search, searchAll, if_pos h, search]

theorem search_cons_of_not_mem {s : Search} {l : Label} (h : l ∉ s.entered) (todo : List Label) :
    G.search s (l :: todo) =
      let below := G.search ⟨s.entered ++ [l], s.left⟩ (G.successorsOf l)
      G.search ⟨below.entered, below.left ++ [l]⟩ todo := by
  rw [search, searchAll, if_neg h]
  rfl

/-- The blocks in the order in which a depth-first search leaves them, first successors first. -/
def postOrder : List Label := (G.search ⟨[], []⟩ (G.entry :: G.labels)).left

end Graph

end Availability
