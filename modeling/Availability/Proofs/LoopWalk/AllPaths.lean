import Availability.Proofs.LoopWalk.Convergence
import Availability.Proofs.Worklist.AllPaths

/-! What the reference strategy lists, compared with what is available on all paths.

    A walk never loses what is computed on every path: it computes a block only when something can
    come into it. So the reference strategy lists all that the worklist strategy lists. It may list
    more, because it leaves a loop at the first fact that comes out as it was, and the rest of the
    loop keeps facts that no longer follow from what the predecessors hand on. Where none are left
    of that kind, the table solves the equations, and a solution lists nothing but what is computed
    on every path. -/

namespace Availability.LoopWalk

variable {ι Op Var : Type} [Instruction ι Op Var] [DecidableEq Op] [DecidableEq Var]
variable {G : Graph ι} {walked changes : List Label} {table : FactTable ι Op Var} {l x : Label}

/-! ### No walk loses anything -/

/-- The facts along `l` start from all that is computed on every path to it. -/
def StartsCovering (G : Graph ι) (table : FactTable ι Op Var) (l : Label) : Prop :=
  ∃ f, table.facts l = chain f (G.codeOf l) ∧ ∀ e, OnEveryPath G l [] e → e ∈ f

/-- Where every block has code and can be reached, all that is computed on every path is found at
    the start of each block and handed on at its end. -/
theorem Walk.covering (h : Walk G walked changes table) (hcode : ∀ b ∈ G.blocks, b.code ≠ [])
    (hreach : ∀ l ∈ G, G.Reachable l) :
    Covering G table.out ∧ ∀ x ∈ table.visitOrder, StartsCovering G table x := by
  refine h.table_induction
    (P := fun table => Covering G table.out ∧ ∀ x ∈ table.visitOrder, StartsCovering G table x)
    hcode hreach ⟨fun _ _ hne => absurd rfl hne, fun x hx => absurd hx List.not_mem_nil⟩ ?_
  rintro table l hl hfed ⟨hcov, hstarts⟩
  constructor
  · rw [out_recompute (Graph.codeOf_ne_nil hcode hl)]
    exact hcov.update (hreach l hl) hfed
  · exact starts_recompute hstarts fun e he => hcov.mem_joinInto_of_fed hfed he

/-! ### Comparing two tables -/

/-- Every block starts from what its predecessors hand on. -/
def Merged (G : Graph ι) (table : FactTable ι Op Var) : Prop :=
  ∀ l ∈ G, ∃ f, table.before? ⟨l, 0⟩ = some f ∧ factInto G table.handsOn l = .ok f

omit [Instruction ι Op Var] in
theorem merged_iff : Merged G table ↔ ∀ l ∈ G.labels, table.before? ⟨l, 0⟩ ≠ none ∧
    (factInto G table.handsOn l).toOption = table.before? ⟨l, 0⟩ := by
  refine forall₂_congr fun l _ => ?_
  cases table.before? ⟨l, 0⟩ <;> cases factInto G table.handsOn l <;>
    simp [Except.toOption, eq_comm]

instance : Decidable (Merged G table) := decidable_of_iff' _ merged_iff

/-- In a table where every block starts from what its predecessors hand on, the equations are
    solved. -/
theorem solved_of_merged (hcoh : Coherent G table) (hm : Merged G table)
    (hcode : ∀ b ∈ G.blocks, b.code ≠ []) (hl : l ∈ G) {f : Fact (AvailExpr Op Var)}
    (hf : table.facts l = chain f (G.codeOf l)) :
    f = joinInto G table.out l ∧ table.out l = passOn G table.out l := by
  have hc := Graph.codeOf_ne_nil hcode hl
  obtain ⟨g, hbefore, hinto⟩ := hm l hl
  rw [before?_zero hf hc] at hbefore
  rw [hcoh.factInto_eq hl] at hinto
  have hjoin : f = joinInto G table.out l :=
    (Option.some.inj hbefore).trans (Except.ok.inj hinto).symm
  refine ⟨hjoin, ?_⟩
  rw [out_of_facts_eq hf hc, passOn_of_ne_nil hc, ← hjoin]

/-- Facts along the same code list more everywhere when they start from more. -/
theorem available_mono {table table' : FactTable ι Op Var} {code : List ι}
    {f g : Fact (AvailExpr Op Var)} (hf : table.facts l = chain f code)
    (hg : table'.facts l = chain g code) (hle : ∀ e, e ∈ f → e ∈ g) (n : Nat)
    (e : AvailExpr Op Var) :
    (table.AvailableBefore ⟨l, n⟩ e → table'.AvailableBefore ⟨l, n⟩ e) ∧
      (table.AvailableAfter ⟨l, n⟩ e → table'.AvailableAfter ⟨l, n⟩ e) := by
  rw [availableBefore_of_facts_eq hf, availableBefore_of_facts_eq hg,
    availableAfter_of_facts_eq hf, availableAfter_of_facts_eq hg]
  constructor
  · exact And.imp_right (says_transferAll_mono (q := some e) (hle e))
  · exact And.imp_right (says_transferAll_mono (q := some e) (hle e))

/-- Along each block both strategies leave facts of the same code. The reference strategy starts
    from no less than the worklist strategy, and from the same if it starts from what the
    predecessors hand on. -/
theorem Walk.exists_starts {ref : FactTable ι Op Var} (walk : Walk G G.preOrder changes ref)
    (hcode : ∀ b ∈ G.blocks, b.code ≠ []) (hreach : ∀ l ∈ G, G.Reachable l) {ls : List Label}
    {s : Worklist.State ι Op Var} (hvis : Worklist.Visits G (Worklist.start G) ls s)
    (hinv : Worklist.Invariant G s [] []) (l : Label) :
    ∃ (code : List ι) (f g : Fact (AvailExpr Op Var)),
      s.table.facts l = chain f code ∧ ref.facts l = chain g code ∧ (∀ e, e ∈ f → e ∈ g) ∧
      (Merged G ref → ∀ e, e ∈ g → e ∈ f) := by
  by_cases hl : l ∈ G
  · have hinto : ∀ e, e ∈ joinInto G s.handsOn l ↔ OnEveryPath G l [] e := by
      intro e
      rw [← Worklist.mem_transferAll_joinInto_iff hreach hvis hinv hl, transferAll_nil]
    have hvisited : l ∈ ref.visitOrder := walk.visitOrder_eq ▸ Graph.mem_preOrder.2 hl
    obtain ⟨g, hg, hall⟩ := (walk.covering hcode hreach).2 l hvisited
    refine ⟨G.codeOf l, joinInto G s.handsOn l, g, (hinv.settled_of_mem hl).facts_eq, hg,
      fun e he => hall e ((hinto e).1 he), fun hm e he => (hinto e).2 fun ls path => ?_⟩
    have hout : ∀ k ∈ G, ref.out k = passOn G ref.out k := by
      intro k hk
      obtain ⟨_, hf⟩ :=
        walk.coherent.exists_chain k (walk.visitOrder_eq ▸ Graph.mem_preOrder.2 hk)
      exact (solved_of_merged walk.coherent hm hcode hk hf).2
    rw [(solved_of_merged walk.coherent hm hcode hl hg).1] at he
    rw [List.append_nil]
    exact leaves_of_mem_joinInto hout path he
  · have hwl : l ∉ s.table.visitOrder := fun hm =>
      hl ((G.mem_iff_of_append_eq hinv.order_eq).2 (Or.inl hm))
    have href : l ∉ ref.visitOrder := fun hm =>
      hl (Graph.mem_preOrder.1 (walk.visitOrder_eq ▸ hm))
    exact ⟨[], .bottom, .bottom, hinv.valid.coherent.facts_eq_nil l hwl,
      walk.coherent.facts_eq_nil l href, fun _ he => he, fun _ _ he => he⟩

/-- Where every block has code and can be reached, the reference strategy lists whatever the
    worklist strategy lists. If every block of its table starts from what the predecessors hand on,
    the two list the same. -/
theorem available_of_worklist (hcode : ∀ b ∈ G.blocks, b.code ≠ [])
    (hreach : ∀ l ∈ G, G.Reachable l) {limit limit' : Nat} {ref wl : FactTable ι Op Var}
    (href : Availability.analyze ⟨.reference, limit⟩ G = .ok ref)
    (hwl : Availability.analyze ⟨.worklist, limit'⟩ G = .ok wl) :
    (∀ loc e, (wl.AvailableBefore loc e → ref.AvailableBefore loc e) ∧
        (wl.AvailableAfter loc e → ref.AvailableAfter loc e)) ∧
      (Merged G ref → ∀ loc e, (wl.AvailableBefore loc e ↔ ref.AvailableBefore loc e) ∧
        (wl.AvailableAfter loc e ↔ ref.AvailableAfter loc e)) := by
  obtain ⟨changes, walk⟩ := exists_walk_of_analyze href
  obtain ⟨ls, s, hvis, hinv, rfl⟩ := Worklist.exists_final_of_analyze hwl
  constructor
  · rintro ⟨l, n⟩ e
    obtain ⟨code, f, g, hf, hg, hle, -⟩ := walk.exists_starts hcode hreach hvis hinv l
    exact available_mono hf hg hle n e
  · rintro hm ⟨l, n⟩ e
    obtain ⟨code, f, g, hf, hg, hle, hge⟩ := walk.exists_starts hcode hreach hvis hinv l
    obtain ⟨hbefore, hafter⟩ := available_mono hf hg hle n e
    obtain ⟨hbefore', hafter'⟩ := available_mono hg hf (hge hm) n e
    exact ⟨⟨hbefore, hbefore'⟩, ⟨hafter, hafter'⟩⟩

theorem available_killingLoop :
    ∃ ref wl, Availability.analyze ⟨.reference, 3⟩ killingLoop = .ok ref ∧
      Availability.analyze ⟨.worklist, 3⟩ killingLoop = .ok wl ∧ Merged killingLoop ref ∧
      ref.AvailableBefore ⟨⟨3⟩, 0⟩ ⟨⟨(), [2, 2]⟩, 4, false⟩ ∧
      ¬ ref.AvailableBefore ⟨⟨3⟩, 0⟩ ⟨⟨(), [0, 1]⟩, 3, false⟩ := by
  have hboth : ((Availability.analyze ⟨.reference, 3⟩ killingLoop).toOption.any fun ref =>
      (Availability.analyze ⟨.worklist, 3⟩ killingLoop).toOption.any fun wl =>
        Merged killingLoop ref ∧ wl.AvailableBefore ⟨⟨3⟩, 0⟩ ⟨⟨(), [2, 2]⟩, 4, false⟩ ∧
          ¬ wl.AvailableBefore ⟨⟨3⟩, 0⟩ ⟨⟨(), [0, 1]⟩, 3, false⟩) = true := by
    decide +kernel
  obtain ⟨ref, href, hany⟩ := exists_eq_ok_of_any hboth
  obtain ⟨wl, hwl, hdec⟩ := exists_eq_ok_of_any hany
  obtain ⟨hm, hin, hnot⟩ := of_decide_eq_true hdec
  obtain ⟨hmore, hsame⟩ := available_of_worklist (by decide) reachable_killingLoop href hwl
  exact ⟨ref, wl, href, hwl, hm, (hmore _ _).1 hin, fun h => hnot ((hsame hm _ _).1.2 h)⟩

/-- A loop that settles in the arm where an expression is computed again, before the block in which
    the arms join has learnt that it was lost on the other. -/
def regeneratingArm : Graph (Summary Unit Nat) where
  blocks :=
    [⟨⟨0⟩, [⟨.pure ⟨(), [0, 1]⟩, some 3⟩], [⟨1⟩]⟩,
     ⟨⟨1⟩, [⟨.pure ⟨(), [2, 2]⟩, some 4⟩], [⟨2⟩, ⟨3⟩]⟩,
     ⟨⟨2⟩, [⟨.pure ⟨(), [0, 1]⟩, some 3⟩], [⟨3⟩]⟩,
     ⟨⟨3⟩, [⟨.other, some 0⟩], [⟨1⟩]⟩]
  blocks_ne_nil := by decide
  tables := _
  tables_eq := rfl

example : ((Availability.analyze ⟨.reference, 3⟩ regeneratingArm).toOption.any fun ref =>
    (Availability.analyze ⟨.worklist, 3⟩ regeneratingArm).toOption.any fun wl =>
      ref.AvailableBefore ⟨⟨3⟩, 0⟩ ⟨⟨(), [0, 1]⟩, 3, false⟩ ∧
        ¬ wl.AvailableBefore ⟨⟨3⟩, 0⟩ ⟨⟨(), [0, 1]⟩, 3, false⟩) = true := by
  decide +kernel

end Availability.LoopWalk
