import Availability.Proofs.Graph.PreOrder

/-! The stack enters blocks in the order of the recursive search.

    The recursive search is given by its equation: a block entered before is passed over, and a new
    one is entered before the search goes on from each of its successors in turn. Every entry of the
    stack stands for such a call that is still to be made. Entries of blocks that have been entered
    since, and second entries of one block, are calls that pass the block over, so that it makes no
    difference which of them were kept off the stack when it was filled. The search that gives the
    leaving order makes the same calls, and since it ends, the equation has no second solution. -/

namespace Availability.Graph

variable {ι : Type} (G : Graph ι)

/-- `enter` searches by recursion: given the blocks entered so far, it passes over one of them; a
    new block is entered, and then each of its successors is searched from, first one first. -/
def SearchesRecursively (enter : List Label → Label → List Label) : Prop :=
  ∀ entered l, enter entered l =
    if l ∈ entered then entered else (G.successorsOf l).foldl enter (entered ++ [l])

variable {G}

/-- Calls made in turn enter what the leaving search enters, so that the equation determines its
    solution. -/
theorem SearchesRecursively.foldl_eq_entered {enter : List Label → Label → List Label}
    (h : G.SearchesRecursively enter) (s : Search) (todo : List Label) :
    todo.foldl enter s.entered = (G.search s todo).entered := by
  induction s, todo using searchAll.induct G with
  | case1 s => rw [search_nil, List.foldl_nil]
  | case2 s l todo hl ih => rw [search_cons_of_mem G hl, List.foldl_cons, h, if_pos hl, ih]
  | case3 s l todo hl _ ihb iha _ =>
    rw [search_cons_of_not_mem G hl, List.foldl_cons, h, if_neg hl, ihb]
    exact iha

variable (G)

/-! ### The stack -/

/-- A stack is searched one entry after the other. -/
theorem enterAll_cons (out : List Label) (l : Label) (stack : List Label) :
    G.enterAll out (l :: stack) = G.enterAll (G.enterAll out [l]) stack :=
  G.enterAll_append out [l] stack

/-- It makes no difference whether the entries share a stack or each has one of its own. -/
theorem foldl_enterAll (out stack : List Label) :
    stack.foldl (fun out l => G.enterAll out [l]) out = G.enterAll out stack := by
  induction stack generalizing out with
  | nil => rw [List.foldl_nil, enterAll_nil]
  | cons l stack ih => rw [List.foldl_cons, ih, ← enterAll_cons]

/-- Entries of blocks entered before can be kept off the stack. -/
theorem enterAll_filter_of_subset {seen out : List Label} (h : seen ⊆ out) (stack : List Label) :
    G.enterAll out (stack.filter fun s => decide (s ∉ seen)) = G.enterAll out stack := by
  induction stack generalizing out with
  | nil => rfl
  | cons s stack ih =>
    by_cases hs : s ∈ seen
    · rw [List.filter_cons_of_neg (by simpa using hs), enterAll_cons_of_mem G (h hs), ih h]
    · have hgrow : seen ⊆ G.enterAll out [s] :=
        List.Subset.trans h (G.prefix_enterAll out [s]).subset
      rw [List.filter_cons_of_pos (by simpa using hs), enterAll_cons, ih hgrow, ← enterAll_cons]

/-- To search a stack of one entry is to make the call that the entry stands for. -/
theorem searchesRecursively_enterAll : G.SearchesRecursively fun out l => G.enterAll out [l] := by
  intro out l
  show G.enterAll out [l] = _
  by_cases hl : l ∈ out
  · rw [if_pos hl, enterAll_cons_of_mem G hl, enterAll_nil]
  · rw [if_neg hl, enterAll_cons_of_not_mem G hl, List.append_nil,
      enterAll_filter_of_subset G (List.Subset.refl _), foldl_enterAll]

variable {G}

/-- The entries of a stack are calls still to be made, first one first. -/
theorem SearchesRecursively.foldl_eq_enterAll {enter : List Label → Label → List Label}
    (h : G.SearchesRecursively enter) (out stack : List Label) :
    stack.foldl enter out = G.enterAll out stack := by
  have hstack := G.searchesRecursively_enterAll
  rw [← foldl_enterAll]
  exact (h.foldl_eq_entered ⟨out, []⟩ stack).trans (hstack.foldl_eq_entered ⟨out, []⟩ stack).symm

/-! ### The whole graph -/

/-- The entry is entered first. -/
theorem ne_entry_of_walked_ne_nil {walked rest : List Label} {l : Label}
    (h : walked ++ l :: rest = G.preOrder) (hne : walked ≠ []) : l ≠ G.entry := by
  have hfirst : [G.entry] <+: G.preOrder := by
    rw [preOrder, enterAll_cons_of_not_mem G List.not_mem_nil]
    exact G.prefix_enterAll _ _
  have hwalked : walked <+: G.preOrder := h ▸ List.prefix_append walked _
  have hentry : [G.entry] <+: walked :=
    List.prefix_of_prefix_length_le hfirst hwalked (List.length_pos_iff.2 hne)
  rintro rfl
  exact not_mem_walked h (hentry.subset List.mem_cons_self)

/-- The equation of the recursive search has one solution. Run from the entry and then from every
    block in layout order, it enters the blocks in the entering order: each of them once, and each
    that can be reached, other than the first, after one of its predecessors. -/
theorem preOrder_eq_recursive (G : Graph ι) :
    (∃! enter, G.SearchesRecursively enter) ∧
    (∀ enter, G.SearchesRecursively enter → G.preOrder = (G.entry :: G.labels).foldl enter []) ∧
    (∀ l, G.preOrder.count l = if l ∈ G then 1 else 0) ∧
    ∀ walked l rest, walked ++ l :: rest = G.preOrder → walked ≠ [] → G.Reachable l →
      ∃ p ∈ walked, G.Edge p l := by
  refine ⟨⟨_, G.searchesRecursively_enterAll, ?_⟩, ?_, ?_, ?_⟩
  · intro enter h
    funext out l
    exact h.foldl_eq_enterAll out [l]
  · exact fun enter h => (h.foldl_eq_enterAll [] (G.entry :: G.labels)).symm
  · intro l
    split
    · next hl => exact List.count_eq_one_of_mem G.nodup_preOrder (mem_preOrder.2 hl)
    · next hl => exact List.count_eq_zero_of_not_mem (mem_preOrder.not.2 hl)
  · intro walked l rest hsplit hne hl
    exact hl.exists_earlier_predecessor (ne_entry_of_walked_ne_nil hsplit hne) hsplit

-- block 2 is on the stack three times when it is entered
example : ((Graph.ofBlocks [⟨⟨0⟩, [], [⟨1⟩, ⟨2⟩, ⟨1⟩]⟩, ⟨⟨1⟩, [], [⟨3⟩, ⟨2⟩]⟩,
      ⟨⟨2⟩, [], [⟨0⟩]⟩, ⟨⟨3⟩, [], [⟨2⟩, ⟨3⟩]⟩] : Except Error (Graph Unit)).toOption.map
    Graph.preOrder) = some [⟨0⟩, ⟨1⟩, ⟨3⟩, ⟨2⟩] := by decide +kernel

end Availability.Graph
