import Availability.Proofs.Graph.Lookup
import Availability.Proofs.Graph.PreOrder

/-! Depth-first searches look up blocks of the graph and nothing else.

    The searches take the successors of a label that names no block to be none. `enterChecked` and
    `searchChecked` go the same way, but fail at such a label. They never do: a search starts from
    labels of the graph, and from there on it looks up successors of blocks, which name blocks
    again. -/

namespace Availability.Graph

variable {ι : Type} (G : Graph ι)

theorem openEdges_concat_add_le_of_successors_eq_ok {seen next : List Label} {l : Label}
    (hl : l ∉ seen) (h : G.successors l = .ok next) :
    G.openEdges (seen ++ [l]) + next.length ≤ G.openEdges seen := by
  rw [(successors_eq_ok_iff.1 h).2]
  exact G.openEdges_concat_add_le hl

/-! ### Entering order -/

/-- Enters the blocks on the stack like `enterAll`, or fails at the first label that names none. -/
def enterChecked (out : List Label) : (stack : List Label) → Except Error (List Label)
  | [] => .ok out
  | l :: stack =>
    if l ∈ out then enterChecked out stack
    else match _hs : G.successors l with
      | .error e => .error e
      | .ok next =>
        enterChecked (out ++ [l]) (next.filter (fun s => decide (s ∉ out ++ [l])) ++ stack)
termination_by stack => stack.length + G.openEdges out
decreasing_by
  · simp
  · next h =>
    have h₁ := G.openEdges_concat_add_le_of_successors_eq_ok h _hs
    have h₂ := List.length_filter_le (fun s => decide (s ∉ out ++ [l])) next
    simp only [List.length_append, List.length_cons]
    omega

/-- The entering order, or an error if the search comes to a label that names no block. -/
def checkedPreOrder : Except Error (List Label) := G.enterChecked [] (G.entry :: G.labels)

/-! ### Leaving order -/

/-- Searches from the blocks in turn like `searchAll`, or fails at the first label that names
    none. -/
def searchChecked (s : Search) :
    (todo : List Label) → Except Error { r : Search // s.entered ⊆ r.entered }
  | [] => .ok ⟨s, fun _ h => h⟩
  | l :: todo =>
    if l ∈ s.entered then searchChecked s todo
    else match _hs : G.successors l with
      | .error e => .error e
      | .ok next => do
        let below ← searchChecked ⟨s.entered ++ [l], s.left⟩ next
        let after ← searchChecked ⟨below.1.entered, below.1.left ++ [l]⟩ todo
        return ⟨after.1, fun _ h => after.2 (below.2 (List.mem_append_left _ h))⟩
termination_by todo => todo.length + G.openEdges s.entered
decreasing_by
  · simp
  · next h =>
    have := G.openEdges_concat_add_le_of_successors_eq_ok h _hs
    simp only [List.length_cons]
    omega
  · exact Nat.add_lt_add_of_lt_of_le (Nat.lt_succ_self _)
      (openEdgesOf_mono (fun _ h => below.2 (List.mem_append_left [l] h)) G.blocks)

/-- The leaving order, or an error if the search comes to a label that names no block. -/
def checkedPostOrder : Except Error (List Label) :=
  (G.searchChecked ⟨[], []⟩ (G.entry :: G.labels)).map fun r => r.1.left

/-! ### No lookup fails -/

variable {G} {l : Label}

theorem mem_of_mem_successorsOf {s : Label} (h : s ∈ G.successorsOf l) : s ∈ G :=
  (mem_successorsOf.1 h).target_mem

theorem enterChecked_eq_ok {out stack : List Label} (h : ∀ l ∈ stack, l ∈ G) :
    G.enterChecked out stack = .ok (G.enterAll out stack) := by
  induction out, stack using enterAll.induct G with
  | case1 out => rw [enterChecked, enterAll_nil]
  | case2 out l stack hl ih =>
    rw [enterChecked, if_pos hl, enterAll_cons_of_mem G hl]
    exact ih (List.forall_mem_cons.1 h).2
  | case3 out l stack hl ih =>
    obtain ⟨hlG, hstack⟩ := List.forall_mem_cons.1 h
    rw [enterChecked, if_neg hl, enterAll_cons_of_not_mem G hl]
    split
    · next hs =>
      rw [successors_eq_ok hlG] at hs
      cases hs
    · next hs =>
      obtain ⟨-, rfl⟩ := successors_eq_ok_iff.1 hs
      refine ih (List.forall_mem_append.2 ⟨fun s hm => ?_, hstack⟩)
      exact mem_of_mem_successorsOf (List.mem_of_mem_filter hm)

theorem searchChecked_eq_ok {s : Search} {todo : List Label} (h : ∀ l ∈ todo, l ∈ G) :
    G.searchChecked s todo = .ok (G.searchAll s todo) := by
  induction s, todo using searchAll.induct G with
  | case1 s => rw [searchChecked, searchAll]
  | case2 s l todo hl ih =>
    rw [searchChecked, if_pos hl, searchAll, if_pos hl]
    exact ih (List.forall_mem_cons.1 h).2
  | case3 s l todo hl below ihb iha after =>
    obtain ⟨hlG, htodo⟩ := List.forall_mem_cons.1 h
    rw [searchChecked, if_neg hl, searchAll, if_neg hl]
    split
    · next hs =>
      rw [successors_eq_ok hlG] at hs
      cases hs
    · next hs =>
      obtain ⟨-, rfl⟩ := successors_eq_ok_iff.1 hs
      rw [ihb fun s hm => mem_of_mem_successorsOf hm]
      show Except.bind (G.searchChecked ⟨below.1.entered, below.1.left ++ [l]⟩ todo) _ = _
      rw [iha htodo]
      rfl

variable (G)

theorem mem_of_mem_roots : ∀ l ∈ G.entry :: G.labels, l ∈ G :=
  List.forall_mem_cons.2 ⟨G.entry_mem, fun _ hl => hl⟩

theorem checkedPreOrder_eq_ok : G.checkedPreOrder = .ok G.preOrder :=
  enterChecked_eq_ok G.mem_of_mem_roots

theorem checkedPostOrder_eq_ok : G.checkedPostOrder = .ok G.postOrder := by
  rw [checkedPostOrder, searchChecked_eq_ok G.mem_of_mem_roots]
  rfl

end Availability.Graph
