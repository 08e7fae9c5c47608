import Availability.Label

/-! Loops, as stretches of a walk through a graph.

    When a walk has visited some blocks and the last of them has an edge back to one of the others,
    the blocks from that one to the last form a loop. A loop found on the way through another one
    is shorter than it, unless it is the same: that is why following loops within loops comes to
    an end. -/

namespace Availability

/-- A stretch of a walk that an edge from its last block to its first closes. -/
structure Loop where
  first : Label
  rest : List Label
  deriving DecidableEq

namespace Loop

/-- The blocks of a loop, in the order of the walk. -/
def blocks (r : Loop) : List Label := r.first :: r.rest

/-- The block that the closing edge leaves. -/
def last (r : Loop) : Label := r.rest.getLastD r.first

/-- The number of blocks. -/
def size (r : Loop) : Nat := r.blocks.length

/-- The loop that is closed when the last block walked has an edge to `target`; none if `target`
    has not been walked. -/
def closedBy? (walked : List Label) (target : Label) : Option Loop :=
  match walked.dropWhile fun l => decide (l ≠ target) with
  | [] => none
  | first :: rest => some ⟨first, rest⟩

theorem eq_of_blocks_eq {r r' : Loop} (h : r.blocks = r'.blocks) : r = r' := by
  cases r
  cases r'
  simpa [blocks] using h

theorem closedBy?_eq_none_iff {walked : List Label} {target : Label} :
    closedBy? walked target = none ↔ target ∉ walked := by
  unfold closedBy?
  induction walked with
  | nil => simp
  | cons l walked ih =>
    by_cases h : l = target
    · simp [h]
    · have h' : ¬ target = l := fun e => h e.symm
      simpa [List.dropWhile_cons, h, h'] using ih

theorem mem_of_closedBy? {walked : List Label} {target : Label} {r : Loop}
    (h : closedBy? walked target = some r) : target ∈ walked := by
  have hne : closedBy? walked target ≠ none := by simp [h]
  exact Decidable.not_not.1 fun hm => hne (closedBy?_eq_none_iff.2 hm)

/-- The closing edge leads to the first block. -/
theorem first_eq {walked : List Label} {target : Label} {r : Loop}
    (h : closedBy? walked target = some r) : r.first = target := by
  unfold closedBy? at h
  split at h
  · cases h
  · next first rest heq =>
    cases h
    have hhead := List.head?_dropWhile_not (fun l => decide (l ≠ target)) walked
    rw [heq] at hhead
    simpa using hhead

/-- A loop is the end of the walk that closed it. -/
theorem blocks_suffix {walked : List Label} {target : Label} {r : Loop}
    (h : closedBy? walked target = some r) : r.blocks <:+ walked := by
  unfold closedBy? at h
  split at h
  · cases h
  · next heq =>
    cases h
    rw [blocks, ← heq]
    exact List.dropWhile_suffix _

/-- The closing edge leaves the last block walked. -/
theorem getLast?_eq {walked : List Label} {target : Label} {r : Loop}
    (h : closedBy? walked target = some r) : walked.getLast? = some r.last := by
  obtain ⟨before, hb⟩ := blocks_suffix h
  rw [← hb, List.getLast?_append, blocks, List.getLast?_cons, last]
  simp [List.getLastD_eq_getLast?]

/-- A loop closed while going through another one is shorter, or the same. -/
theorem size_lt {swept todo : List Label} {target : Label} {outer inner : Loop}
    (hw : swept ++ todo = outer.blocks) (hc : closedBy? swept target = some inner)
    (hne : inner ≠ outer) : inner.size < outer.size := by
  have hs := blocks_suffix hc
  have hlen : swept.length + todo.length = outer.size := by
    rw [size, ← hw, List.length_append]
  have hle : inner.size ≤ swept.length := hs.length_le
  refine Nat.lt_of_le_of_ne (by omega) fun heq => hne (eq_of_blocks_eq ?_)
  have htodo : todo = [] := List.length_eq_zero_iff.1 (by omega)
  rw [← hw, htodo, List.append_nil]
  exact hs.eq_of_length (by show inner.size = _; omega)

end Loop

end Availability
