import Mathlib.Data.Finset.Dedup
import Availability.Proofs.Worklist.AllPaths

/-! The worklist strategy gives the same facts however a graph is laid out.

    Layout and the order of successors decide in which order blocks are visited and how often, and
    two runs have nothing in common step by step. They end in the same place all the same: where
    every block can be reached, no run ever falls below a solution of the equations, so the solution
    in which it ends is above all others. Graphs that differ in layout only have the same equations,
    hence the same solutions, and the highest of them is the one that either run ends in. This goes
    for what is said about `top` as well as for the expressions listed. -/

namespace Availability

variable {ι Op Var : Type}

/-- The graphs differ in nothing but the order of their blocks after the entry, and the order and
    repetition of successors. -/
structure SameFlow (G H : Graph ι) : Prop where
  entry_eq : G.entry = H.entry
  mem_iff : ∀ l, l ∈ G ↔ l ∈ H
  code_eq : ∀ l ∈ G, G.codeOf l = H.codeOf l
  successors_eq : ∀ l ∈ G, (G.successorsOf l).toFinset = (H.successorsOf l).toFinset

namespace SameFlow

variable {G H : Graph ι} {l : Label}

theorem symm (h : SameFlow G H) : SameFlow H G where
  entry_eq := h.entry_eq.symm
  mem_iff := fun l => (h.mem_iff l).symm
  code_eq := fun l hl => (h.code_eq l ((h.mem_iff l).2 hl)).symm
  successors_eq := fun l hl => (h.successors_eq l ((h.mem_iff l).2 hl)).symm

theorem edge {u v : Label} (h : SameFlow G H) (edge : G.Edge u v) : H.Edge u v := by
  have hv : v ∈ (G.successorsOf u).toFinset := List.mem_toFinset.2 (Graph.mem_successorsOf.2 edge)
  rw [h.successors_eq u edge.source_mem, List.mem_toFinset] at hv
  exact Graph.mem_successorsOf.1 hv

theorem edge_iff {u v : Label} (h : SameFlow G H) : G.Edge u v ↔ H.Edge u v :=
  ⟨h.edge, h.symm.edge⟩

theorem reachable (h : SameFlow G H) (hl : G.Reachable l) : H.Reachable l := by
  rw [Graph.Reachable, ← h.entry_eq]
  exact Relation.ReflTransGen.mono (fun u v => h.edge) _ _ hl

variable [DecidableEq Op] [DecidableEq Var]

/-- The same facts meet on the way into a block, if in another order. -/
theorem joinInto_eq (h : SameFlow G H) (hl : l ∈ G) (out : Label → Fact (AvailExpr Op Var)) :
    joinInto G out l = joinInto H out l := by
  refine Fact.meetAll_eq_of_mem_iff fun f _ => ?_
  rw [mem_factsInto hl, mem_factsInto ((h.mem_iff l).1 hl)]
  simp only [h.edge_iff, h.entry_eq]

theorem passOn_eq [Instruction ι Op Var] (h : SameFlow G H) (hl : l ∈ G)
    (out : Label → Fact (AvailExpr Op Var)) : passOn G out l = passOn H out l := by
  rw [passOn, h.code_eq l hl, h.joinInto_eq hl, passOn]

end SameFlow

variable [Instruction ι Op Var] [DecidableEq Op] [DecidableEq Var]
variable {G H : Graph ι} {l : Label} {sol out : Label → Fact (AvailExpr Op Var)}

/-! ### Above every solution -/

/-- Every block that has handed on a fact says all that it says according to `sol`. -/
def Above (sol out : Label → Fact (AvailExpr Op Var)) : Prop :=
  ∀ p, out p ≠ .bottom → sol p ≠ .bottom ∧ ∀ q, (sol p).Says q → (out p).Says q

/-- Computing a block that something can come into does not fall below a solution. -/
theorem Above.update (h : Above sol out) (hsol : sol l = passOn G sol l) (hl : l ∈ G)
    (hfed : Fed G out l) : Above sol (Function.update out l (passOn G out l)) := by
  intro p hp
  rcases eq_or_ne p l with rfl | hpl
  · rw [Function.update_self]
    refine ⟨hsol ▸ passOn_ne_bottom G sol p, fun q hq => ?_⟩
    rw [hsol] at hq
    exact says_passOn_mono (hfed.says_joinInto hl fun k hk => ⟨(h k hk).1, (h k hk).2 q⟩) hq
  · rw [Function.update_of_ne hpl] at hp ⊢
    exact h p hp

namespace Worklist

variable {s t : State ι Op Var} {ls ls' : List Label}

/-- Where every block can be reached, no run falls below a solution. -/
theorem Visits.above (hreach : ∀ l ∈ G, G.Reachable l) (h : Visits G s ls t)
    (hinv : ∃ again fresh, Invariant G s again fresh) (hsol : ∀ l ∈ G, sol l = passOn G sol l)
    (hs : Above sol s.handsOn) : Above sol t.handsOn := by
  refine h.state_induction (P := fun s => Above sol s.handsOn) hinv hs ?_
  intro s l waiting again fresh hinv next hl hs
  rw [handsOn_afterVisit]
  exact hs.update (hsol l hl) hl (hinv.fed next (hreach l hl))

/-- The run on one graph ends above the solution that the run on the other ends in. -/
theorem above_of_sameFlow (hflow : SameFlow G H) (hreach : ∀ l ∈ G, G.Reachable l)
    (hvis : Visits G (start G) ls s) (hinv : Invariant H t [] []) :
    Above t.handsOn s.handsOn := by
  refine hvis.above hreach ⟨_, _, invariant_start G⟩ (fun l hl => ?_) fun p hp => ?_
  · rw [hflow.passOn_eq hl]
    exact (hinv.settled_of_mem ((hflow.mem_iff l).1 hl)).handsOn_eq
  · exact absurd (handsOn_start G p) hp

theorem handsOn_eq_of_sameFlow (hflow : SameFlow G H) (hreach : ∀ l ∈ G, G.Reachable l)
    (hvis : Visits G (start G) ls s) (hinv : Invariant G s [] [])
    (hvis' : Visits H (start H) ls' t) (hinv' : Invariant H t [] []) (hl : l ∈ G) :
    s.handsOn l = t.handsOn l := by
  have hreach' : ∀ l ∈ H, H.Reachable l := fun l hl =>
    hflow.reachable (hreach l ((hflow.mem_iff l).2 hl))
  have hne := hinv.handsOn_ne_bottom hl
  have hne' := hinv'.handsOn_ne_bottom ((hflow.mem_iff l).1 hl)
  refine Fact.eq_of_says_iff hne hne' fun q => ⟨?_, ?_⟩
  · exact (above_of_sameFlow hflow.symm hreach' hvis' hinv l hne').2 q
  · exact (above_of_sameFlow hflow hreach hvis hinv' l hne).2 q

/-- Where every block can be reached, the facts before and after every instruction do not depend on
    the layout of the graph, on the order of successors or on the limit. -/
theorem exists_facts_of_sameFlow (hflow : SameFlow G H) (hreach : ∀ l ∈ G, G.Reachable l)
    {limit limit' : Nat} {table table' : FactTable ι Op Var}
    (h : Availability.analyze ⟨.worklist, limit⟩ G = .ok table)
    (h' : Availability.analyze ⟨.worklist, limit'⟩ H = .ok table') (hl : l ∈ G) {n : Nat}
    (hn : n < (G.codeOf l).length) :
    ∃ before after, table.before? ⟨l, n⟩ = some before ∧ table'.before? ⟨l, n⟩ = some before ∧
      table.after? ⟨l, n⟩ = some after ∧ table'.after? ⟨l, n⟩ = some after := by
  obtain ⟨ls, s, hvis, hinv, rfl⟩ := exists_final_of_analyze h
  obtain ⟨ls', t, hvis', hinv', rfl⟩ := exists_final_of_analyze h'
  have hfacts := (hinv.settled_of_mem hl).facts_eq
  have hjoin : joinInto H t.handsOn l = joinInto G s.handsOn l := by
    rw [← hflow.joinInto_eq hl]
    exact joinInto_congr hl fun p hp =>
      (handsOn_eq_of_sameFlow hflow hreach hvis hinv hvis' hinv' hp.source_mem).symm
  have hfacts' : t.table.facts l = chain (joinInto G s.handsOn l) (G.codeOf l) := by
    rw [(hinv'.settled_of_mem ((hflow.mem_iff l).1 hl)).facts_eq, hjoin, hflow.code_eq l hl]
  exact ⟨_, _, before?_eq_some hfacts hn, before?_eq_some hfacts' hn, after?_eq_some hfacts hn,
    after?_eq_some hfacts' hn⟩

/-- An empty entry that a loop leads back to, so that `top` comes into the block behind it. -/
def emptyHeader : Graph (Summary Unit Nat) where
  blocks :=
    [⟨⟨0⟩, [], [⟨1⟩]⟩,
     ⟨⟨1⟩, [⟨.pure ⟨(), [0, 1]⟩, some 2⟩], [⟨0⟩, ⟨2⟩, ⟨3⟩]⟩,
     ⟨⟨2⟩, [⟨.other, some 0⟩], [⟨3⟩]⟩,
     ⟨⟨3⟩, [⟨.other, none⟩], []⟩]
  blocks_ne_nil := by decide
  tables := _
  tables_eq := rfl

/-- The same blocks in another order, with other orders of successors. -/
def emptyHeaderRelaid : Graph (Summary Unit Nat) where
  blocks :=
    [⟨⟨0⟩, [], [⟨1⟩, ⟨1⟩]⟩,
     ⟨⟨3⟩, [⟨.other, none⟩], []⟩,
     ⟨⟨2⟩, [⟨.other, some 0⟩], [⟨3⟩]⟩,
     ⟨⟨1⟩, [⟨.pure ⟨(), [0, 1]⟩, some 2⟩], [⟨3⟩, ⟨2⟩, ⟨0⟩, ⟨3⟩]⟩]
  blocks_ne_nil := by decide
  tables := _
  tables_eq := rfl

theorem sameFlow_emptyHeader : SameFlow emptyHeader emptyHeaderRelaid where
  entry_eq := rfl
  mem_iff := fun l =>
    (show emptyHeader.labels.Perm emptyHeaderRelaid.labels by decide).mem_iff
  code_eq := by decide
  successors_eq := by decide

theorem reachable_emptyHeader (l : Label) (hl : l ∈ emptyHeader) : emptyHeader.Reachable l := by
  have h₁ : emptyHeader.Edge ⟨0⟩ ⟨1⟩ := show _ ∈ Block.edges emptyHeader.blocks by decide
  have h₂ : emptyHeader.Edge ⟨1⟩ ⟨2⟩ := show _ ∈ Block.edges emptyHeader.blocks by decide
  have h₃ : emptyHeader.Edge ⟨1⟩ ⟨3⟩ := show _ ∈ Block.edges emptyHeader.blocks by decide
  have hm : l ∈ [(⟨0⟩ : Label), ⟨1⟩, ⟨2⟩, ⟨3⟩] := hl
  simp only [List.mem_cons, List.not_mem_nil, or_false] at hm
  rcases hm with rfl | rfl | rfl | rfl
  · exact .refl
  · exact .single h₁
  · exact .tail (.single h₁) h₂
  · exact .tail (.single h₁) h₃

theorem exists_facts_emptyHeader :
    ∃ table table', Availability.analyze ⟨.worklist, 3⟩ emptyHeader = .ok table ∧
      Availability.analyze ⟨.worklist, 9⟩ emptyHeaderRelaid = .ok table' ∧
      table'.before? ⟨⟨1⟩, 0⟩ = some (.top : Fact (AvailExpr Unit Nat)) ∧
      table'.before? ⟨⟨3⟩, 0⟩ = some (.value (∅ : ItemSet (AvailExpr Unit Nat))) := by
  have hany : ((Availability.analyze ⟨.worklist, 3⟩ emptyHeader).toOption.any fun table =>
      table.before? ⟨⟨1⟩, 0⟩ = some (.top : Fact (AvailExpr Unit Nat)) ∧
        table.before? ⟨⟨3⟩, 0⟩ = some (.value (∅ : ItemSet (AvailExpr Unit Nat)))) = true := by
    decide +kernel
  have hany' : ((Availability.analyze ⟨.worklist, 9⟩ emptyHeaderRelaid).toOption.any
      fun _ => true) = true := by
    decide +kernel
  obtain ⟨table, h, hdec⟩ := exists_eq_ok_of_any hany
  obtain ⟨table', h', -⟩ := exists_eq_ok_of_any hany'
  obtain ⟨hheader, hexit⟩ := of_decide_eq_true hdec
  obtain ⟨f, -, hf, hf', -⟩ := exists_facts_of_sameFlow sameFlow_emptyHeader
    reachable_emptyHeader h h' (show ⟨1⟩ ∈ emptyHeader by decide) (n := 0) (by decide)
  obtain ⟨g, -, hg, hg', -⟩ := exists_facts_of_sameFlow sameFlow_emptyHeader
    reachable_emptyHeader h h' (show ⟨3⟩ ∈ emptyHeader by decide) (n := 0) (by decide)
  exact ⟨table, table', h, h', hf'.trans (hf.symm.trans hheader), hg'.trans (hg.symm.trans hexit)⟩

end Worklist

end Availability
