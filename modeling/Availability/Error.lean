import Availability.Label

/-! Everything that can go wrong when a graph is built or analyzed, and its two written forms: a
    sentence, and a record of the cause with its fields. What can go wrong gives an
    `Except Error`; a result of two steps is taken apart by `bind_eq_ok_iff`. -/

namespace Availability

/-- Why a graph or an analysis was given up. -/
inductive Error where
  /-- The fact after an instruction was asked for before it was computed. -/
  | notComputed
  /-- The label names no block of the graph. -/
  | unknownBlock (label : Label)
  /-- Two blocks have the label. -/
  | duplicateBlock (label : Label)
  /-- There are no blocks. -/
  | emptyGraph
  /-- The facts of the blocks from `start` to `stop` were still changing after `sweeps` rounds. -/
  | convergenceTimeout (start stop : Label) (sweeps : Nat)
  deriving DecidableEq

/-- An error in one sentence. -/
def Error.message : Error → String
  | .notComputed => "outgoing fact read before the flow function ran"
  | .unknownBlock l => "block " ++ l.name ++ " is not part of the graph"
  | .duplicateBlock l => "block " ++ l.name ++ " appears more than once"
  | .emptyGraph => "graph has no blocks"
  | .convergenceTimeout start stop sweeps =>
    "no fixed point for blocks " ++ start.name ++ "..=" ++ stop.name ++ " after " ++
      Nat.repr sweeps ++ " sweeps"

/-- An error as a record: its name and its fields. -/
def Error.record : Error → String
  | .notComputed => "NotComputed"
  | .unknownBlock l => "UnknownBlock(" ++ l.record ++ ")"
  | .duplicateBlock l => "DuplicateBlock(" ++ l.record ++ ")"
  | .emptyGraph => "EmptyGraph"
  | .convergenceTimeout start stop sweeps =>
    "ConvergenceTimeout \x7b start: " ++ start.record ++ ", end: " ++ stop.record ++
      ", sweeps: " ++ Nat.repr sweeps ++ " \x7d"

variable {α β : Type} {r : Except Error α}

/-- Two steps give a result when the first does, and the second does from there. -/
theorem bind_eq_ok_iff {f : α → Except Error β} {b : β} :
    (r >>= f) = .ok b ↔ ∃ a, r = .ok a ∧ f a = .ok b := by
  cases r with
  | ok a => exact ⟨fun h => ⟨a, rfl, h⟩, fun ⟨_, rfl, h⟩ => h⟩
  | error e => exact ⟨nofun, fun ⟨_, h, _⟩ => nomatch h⟩

/-- Results for all members of a list are a list of results. -/
theorem mapM_eq_ok {as : List α} {f : α → Except Error β} {g : α → β}
    (h : ∀ a ∈ as, f a = .ok (g a)) : as.mapM f = .ok (as.map g) := by
  induction as with
  | nil => rfl
  | cons a as ih =>
    rw [List.mapM_cons, h a List.mem_cons_self, ih fun a ha => h a (List.mem_cons_of_mem _ ha)]
    rfl

/-- A result that passes a test is one. -/
theorem exists_eq_ok_of_any {p : α → Bool} (h : r.toOption.any p = true) :
    ∃ a, r = .ok a ∧ p a = true := by
  cases r with
  | ok a => exact ⟨a, rfl, h⟩
  | error e => cases h

end Availability
