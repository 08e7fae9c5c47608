import Availability.Analysis
import Availability.Proofs.LoopWalk.Recompute

/-! The limit of the reference strategy is a cut-off and nothing else.

    Every loop, also one met on the way through another, may take as many sweeps as the limit says.
    A loop that settles within them takes the same sweeps under a larger limit, and leaves the same
    facts. So whatever a run gives, a run with a larger limit gives as well; this is shown function
    by function, as each of them keeps the results of those that it calls. -/

namespace Availability.LoopWalk

/-! ### Keeping a result -/

section Keeps

variable {α β : Type} {r r' : Except Error α}

/-- What `r` gives, `r'` gives as well. Where `r` fails, `r'` may do anything. -/
def Keeps (r r' : Except Error α) : Prop := ∀ a, r = .ok a → r' = .ok a

theorem Keeps.refl (r : Except Error α) : Keeps r r := fun _ h => h

theorem Keeps.bind {f f' : α → Except Error β} (hr : Keeps r r') (hf : ∀ a, Keeps (f a) (f' a)) :
    Keeps (r >>= f) (r' >>= f') := by
  intro b h
  cases hra : r with
  | error e =>
    rw [hra] at h
    cases h
  | ok a =>
    rw [hra] at h
    rw [hr a hra]
    exact hf a b h

theorem Keeps.map (hr : Keeps r r') (f : α → β) : Keeps (r.map f) (r'.map f) := by
  intro b h
  cases hra : r with
  | error e =>
    rw [hra] at h
    cases h
  | ok a => rwa [hr a hra, ← hra]

theorem keeps_foldlM {f f' : β → α → Except Error β} (hf : ∀ b a, Keeps (f b a) (f' b a))
    (as : List α) (b : β) : Keeps (as.foldlM f b) (as.foldlM f' b) := by
  induction as generalizing b with
  | nil => exact .refl _
  | cons a as ih =>
    rw [List.foldlM_cons, List.foldlM_cons]
    exact (hf b a).bind ih

end Keeps

variable {ι Op Var : Type} [Instruction ι Op Var] [DecidableEq Op] [DecidableEq Var]
variable {G : Graph ι} {loop : Loop} {limit limit' : Nat}

/-! ### Loops -/

section Sweep

variable {again again' : (r : Loop) → r.size < loop.size → FactTable ι Op Var →
  Except Error (FactTable ι Op Var)}
variable (hagain : ∀ r hr table, Keeps (again r hr table) (again' r hr table))
include hagain

omit [Instruction ι Op Var] [DecidableEq Op] [DecidableEq Var] in
theorem keeps_followEdge {swept todo : List Label} (h : swept ++ todo = loop.blocks)
    (table : FactTable ι Op Var) (target : Label) :
    Keeps (followEdge loop again swept todo h table target)
      (followEdge loop again' swept todo h table target) := by
  cases hc : Loop.closedBy? swept target with
  | none =>
    have ht := Loop.closedBy?_eq_none_iff.1 hc
    rw [followEdge_of_not_mem ht, followEdge_of_not_mem ht]
    exact .refl _
  | some inner =>
    rcases eq_or_ne inner loop with rfl | hne
    · rw [followEdge_self hc, followEdge_self hc]
      exact .refl _
    · rw [followEdge_of_ne hc hne, followEdge_of_ne hc hne]
      exact hagain inner _ table

theorem keeps_sweep {swept todo : List Label} (h : swept ++ todo = loop.blocks)
    (table : FactTable ι Op Var) :
    Keeps (sweep G loop again swept todo h table) (sweep G loop again' swept todo h table) := by
  induction todo generalizing swept table with
  | nil => exact .refl _
  | cons l todo ih =>
    -- up to the edges of `l`, both do the same
    refine (Keeps.refl (factInto G table.handsOn l)).bind fun before => ?_
    refine (Keeps.refl (replay before (table.facts l))).bind fun pass => ?_
    cases pass with
    | settled facts => exact .refl _
    | changed facts =>
      refine (Keeps.refl (G.successors l)).bind fun targets => ?_
      exact (keeps_foldlM (keeps_followEdge hagain _) targets _).bind (ih _)

/-- More sweeps may be left, as long as none fewer are. -/
theorem keeps_sweepAll {remaining remaining' : Nat} (hle : remaining ≤ remaining')
    (table : FactTable ι Op Var) :
    Keeps (sweepAll G limit loop again remaining table)
      (sweepAll G limit' loop again' remaining' table) := by
  induction remaining generalizing remaining' table with
  | zero =>
    intro t hok
    cases hok
  | succ remaining ih =>
    obtain ⟨remaining', rfl⟩ := Nat.exists_eq_add_of_le' (Nat.one_le_of_lt hle)
    refine (keeps_sweep hagain rfl table).bind fun pass => ?_
    cases pass with
    | settled table => exact .refl _
    | changed table => exact ih (Nat.le_of_succ_le_succ hle) table

end Sweep

theorem keeps_settleLoop (hle : limit ≤ limit') (loop : Loop) (table : FactTable ι Op Var) :
    Keeps (settleLoop G limit loop table) (settleLoop G limit' loop table) := by
  -- the loops on the way through a loop are shorter
  induction hn : loop.size using Nat.strongRecOn generalizing loop table with
  | ind n ih =>
    rw [settleLoop, settleLoop.eq_def G limit']
    exact keeps_sweepAll (fun r hr table => ih r.size (hn ▸ hr) r table rfl) hle table

/-! ### The whole run -/

theorem keeps_closeLoop (hle : limit ≤ limit') (visited : ItemSet Label)
    (table : FactTable ι Op Var) (target : Label) :
    Keeps (closeLoop G limit visited table target) (closeLoop G limit' visited table target) := by
  unfold closeLoop
  split
  · split
    · exact .refl _
    · next loop _ => exact keeps_settleLoop hle loop table
  · exact .refl _

theorem keeps_visit (hle : limit ≤ limit') (s : State ι Op Var) (l : Label) :
    Keeps (visit G limit s l) (visit G limit' s l) := by
  refine (Keeps.refl (factInto G s.table.handsOn l)).bind fun before => ?_
  refine (Keeps.refl (G.block l)).bind fun block => ?_
  exact (keeps_foldlM (keeps_closeLoop hle _) block.successors _).map _

/-- A table that the reference strategy gives under some limit is what it gives under every larger
    one: the same facts, the same order of visits and the same number of them. -/
theorem analyze_eq_ok_of_limit_le (hle : limit ≤ limit') {table : FactTable ι Op Var}
    (h : Availability.analyze ⟨.reference, limit⟩ G = .ok table) :
    Availability.analyze ⟨.reference, limit'⟩ G = .ok table :=
  (keeps_foldlM (keeps_visit hle) G.preOrder ⟨.empty, ∅⟩).map State.table table h

/-- Two loops that share a block, and an empty block which cannot be reached. When it closes a loop
    with the block before it, the facts along that one are out of date. -/
def lateLoop : Graph (Summary Unit Nat) where
  blocks :=
    [⟨⟨0⟩, [⟨.pure ⟨(), [0, 1]⟩, some 3⟩], [⟨1⟩]⟩,
     ⟨⟨1⟩, [⟨.other, none⟩], [⟨2⟩, ⟨4⟩]⟩,
     ⟨⟨2⟩, [⟨.other, none⟩], [⟨1⟩, ⟨3⟩]⟩,
     ⟨⟨3⟩, [⟨.other, some 0⟩], [⟨2⟩]⟩,
     ⟨⟨4⟩, [⟨.other, none⟩], []⟩,
     ⟨⟨5⟩, [], [⟨1⟩, ⟨4⟩]⟩]
  blocks_ne_nil := by decide
  tables := _
  tables_eq := rfl

theorem analyze_lateLoop_of_limit_le :
    (Availability.analyze ⟨.reference, 1⟩ lateLoop :
      Except Error (FactTable (Summary Unit Nat) Unit Nat)).toOption.isNone = true ∧
    ∃ table : FactTable (Summary Unit Nat) Unit Nat, table.visits = 14 ∧
      Availability.analyze ⟨.reference, 2⟩ lateLoop = .ok table ∧
      Availability.analyze ⟨.reference, 1000⟩ lateLoop = .ok table := by
  have hany : ((Availability.analyze ⟨.reference, 2⟩ lateLoop).toOption.any fun table =>
      (table : FactTable (Summary Unit Nat) Unit Nat).visits = 14) = true := by decide +kernel
  obtain ⟨table, htable, hvisits⟩ := exists_eq_ok_of_any hany
  refine ⟨?_, table, of_decide_eq_true hvisits, htable, ?_⟩
  · -- one sweep finds the block out of date, and it takes another to see that nothing else changes
    decide +kernel
  · exact analyze_eq_ok_of_limit_le (by decide) htable

end Availability.LoopWalk
