/-! Labels of blocks, and tables keyed by labels.

    A table has at most one value for a label: entering a label again replaces its value. What a
    table holds is read by `get?`, and each operation has one lemma that says what can be read after
    it. -/

namespace Availability

/-- The name of a block. -/
structure Label where
  number : UInt32
  deriving DecidableEq

/-- A label in running text, as in `L7`. -/
def Label.name (l : Label) : String := "L" ++ Nat.repr l.number.toNat

/-- A label as a field of a record, as in `Label(7)`. -/
def Label.record (l : Label) : String := "Label(" ++ Nat.repr l.number.toNat ++ ")"

/-- A table of values by label. -/
structure LabelMap (α : Type) where
  entries : List (Label × α)

namespace LabelMap

variable {α : Type}

/-- The value at `l`. -/
def get? (m : LabelMap α) (l : Label) : Option α := m.entries.lookup l

/-- The table without entries. -/
def empty : LabelMap α := ⟨[]⟩

/-- Enters `v` at `l`: in place if there is an entry for `l`, else at the end. -/
def setEntry (l : Label) (v : α) : List (Label × α) → List (Label × α)
  | [] => [(l, v)]
  | (k, w) :: es => if k = l then (l, v) :: es else (k, w) :: setEntry l v es

theorem lookup_setEntry (l k : Label) (v : α) : ∀ es : List (Label × α),
    (setEntry l v es).lookup k = if k = l then some v else es.lookup k
  | [] => by
      by_cases hk : k = l
      · simp [setEntry, hk]
      · simp [setEntry, List.lookup_cons, beq_false_of_ne hk, hk]
  | (j, w) :: es => by
      have ih := lookup_setEntry l k v es
      by_cases hj : j = l
      · subst hj
        by_cases hk : k = j
        · simp [setEntry, hk]
        · simp [setEntry, List.lookup_cons, beq_false_of_ne hk, hk]
      · by_cases hk : k = j
        · subst hk
          simp [setEntry, hj]
        · simp [setEntry, List.lookup_cons, beq_false_of_ne hk, hj, ih]

/-- The table with `v` entered at `l`. -/
def set (m : LabelMap α) (l : Label) (v : α) : LabelMap α := ⟨setEntry l v m.entries⟩

theorem get?_set (m : LabelMap α) (l k : Label) (v : α) :
    (m.set l v).get? k = if k = l then some v else m.get? k :=
  lookup_setEntry l k v m.entries

/-- The table with `v` entered at each of the labels. -/
def constant (labels : List Label) (v : α) : LabelMap α := labels.foldl (·.set · v) empty

theorem get?_foldl_set (v : α) (l : Label) : ∀ (labels : List Label) (m : LabelMap α),
    (labels.foldl (·.set · v) m).get? l = if l ∈ labels then some v else m.get? l
  | [], m => by simp
  | k :: labels, m => by
      rw [List.foldl_cons, get?_foldl_set v l labels, get?_set]
      by_cases hl : l ∈ labels
      · simp [hl]
      · by_cases hk : l = k <;> simp [hl, hk]

theorem get?_constant (labels : List Label) (v : α) (l : Label) :
    (constant labels v).get? l = if l ∈ labels then some v else none :=
  get?_foldl_set v l labels empty

end LabelMap

end Availability
