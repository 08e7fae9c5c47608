import Availability.Proofs.Coherence
import Availability.Proofs.LoopWalk.AllPaths

/-! Where the expressions come from that an analysis lists: no fact is invented.

    Whatever is listed at a point has been generated by some instruction, and from there control can
    come to the point without running into anything that kills it. This holds of every fact that a
    strategy ever hands on, whether or not it is up to date: a block generates an expression, or
    lets one through that comes into it, and what comes into a block has been handed on by a
    predecessor. -/

namespace Availability

variable {ι Op Var : Type}

/-- Control can come from one point to another by running through `code`. A point is a place in
    front of an instruction, or the end of a block. -/
inductive Graph.Route (G : Graph ι) (start : Location) : (code : List ι) → (stop : Location) → Prop
    where
  | here : G.Route start [] start
  | exec {code : List ι} {l : Label} {n : Nat} {i : ι} (route : G.Route start code ⟨l, n⟩)
      (next : (G.codeOf l)[n]? = some i) : G.Route start (code ++ [i]) ⟨l, n + 1⟩
  | jump {code : List ι} {l k : Label} (route : G.Route start code ⟨l, (G.codeOf l).length⟩)
      (edge : G.Edge l k) : G.Route start code ⟨k, 0⟩

variable [Instruction ι Op Var]

/-- Some instruction generates `e`, and from behind it control can come to `loc` by way of code that
    does not kill `e`. -/
def OnSomePath (G : Graph ι) (loc : Location) (e : AvailExpr Op Var) : Prop :=
  ∃ k m i code, (G.codeOf k)[m]? = some i ∧ Generates i e ∧ G.Route ⟨k, m + 1⟩ code loc ∧
    ∀ j ∈ code, ¬ Kills j e

variable {G : Graph ι} {l : Label} {n : Nat} {i : ι} {e : AvailExpr Op Var}

/-! ### One step further -/

theorem onSomePath_of_generates (hi : (G.codeOf l)[n]? = some i) (hg : Generates i e) :
    OnSomePath G ⟨l, n + 1⟩ e :=
  ⟨l, n, i, [], hi, hg, .here, by simp⟩

theorem OnSomePath.exec (h : OnSomePath G ⟨l, n⟩ e) (hi : (G.codeOf l)[n]? = some i)
    (hk : ¬ Kills i e) : OnSomePath G ⟨l, n + 1⟩ e := by
  obtain ⟨k, m, j, code, hj, hg, route, hcode⟩ := h
  refine ⟨k, m, j, code ++ [i], hj, hg, route.exec hi, fun x hx => ?_⟩
  rcases List.mem_append.1 hx with hx | hx
  · exact hcode x hx
  · rw [List.mem_singleton.1 hx]
    exact hk

theorem OnSomePath.jump {k : Label} (h : OnSomePath G ⟨l, (G.codeOf l).length⟩ e)
    (edge : G.Edge l k) : OnSomePath G ⟨k, 0⟩ e := by
  obtain ⟨k', m, j, code, hj, hg, route, hcode⟩ := h
  exact ⟨k', m, j, code, hj, hg, route.jump edge, hcode⟩

variable [DecidableEq Op] [DecidableEq Var]

/-- Along a block nothing is listed that was not generated in the block or listed in front of it. -/
theorem onSomePath_of_mem_transferAll {f : Fact (AvailExpr Op Var)}
    (hf : ∀ e ∈ f, OnSomePath G ⟨l, 0⟩ e) (hn : n ≤ (G.codeOf l).length)
    (he : e ∈ transferAll ((G.codeOf l).take n) f) : OnSomePath G ⟨l, n⟩ e := by
  induction n generalizing e with
  | zero => exact hf e he
  | succ n ih =>
    have hi := List.getElem?_eq_getElem (Nat.lt_of_succ_le hn)
    rw [List.take_add_one, hi, Option.toList_some, transferAll_concat, mem_transfer] at he
    rcases he with hg | ⟨he, hk⟩
    · exact onSomePath_of_generates hi hg
    · exact (ih (Nat.le_of_succ_le hn) he).exec hi hk

/-! ### From block to block -/

/-- Every block hands on such expressions only as control can bring to its end. -/
def Sourced (G : Graph ι) (out : Label → Fact (AvailExpr Op Var)) : Prop :=
  ∀ p e, e ∈ out p → OnSomePath G ⟨p, (G.codeOf p).length⟩ e

variable {out : Label → Fact (AvailExpr Op Var)}

theorem Sourced.joinInto (h : Sourced G out) (hl : l ∈ G) (he : e ∈ joinInto G out l) :
    OnSomePath G ⟨l, 0⟩ e := by
  obtain ⟨p, edge, hp⟩ := exists_mem_of_mem_joinInto hl he
  exact (h p e hp).jump edge

theorem Sourced.passOn (h : Sourced G out) (hl : l ∈ G) (he : e ∈ passOn G out l) :
    OnSomePath G ⟨l, (G.codeOf l).length⟩ e := by
  rw [Availability.passOn, Fact.mem_settle] at he
  refine onSomePath_of_mem_transferAll (fun e => h.joinInto hl) (Nat.le_refl _) ?_
  rwa [List.take_length]

/-- Computing a block keeps all blocks from handing on anything else. -/
theorem Sourced.update (h : Sourced G out) (hl : l ∈ G) :
    Sourced G (Function.update out l (Availability.passOn G out l)) := by
  intro p e he
  rcases eq_or_ne p l with rfl | hpl
  · rw [Function.update_self] at he
    exact h.passOn hl he
  · rw [Function.update_of_ne hpl] at he
    exact h p e he

omit [DecidableEq Op] [DecidableEq Var] in
theorem sourced_of_bottom (h : ∀ p, out p = .bottom) : Sourced G out := by
  intro p e he
  rw [h p] at he
  exact absurd he (Fact.not_mem_bottom e)

/-- The facts along `l` start from such expressions only as control can bring there. -/
def StartsSourced (G : Graph ι) (table : FactTable ι Op Var) (l : Label) : Prop :=
  ∃ f, table.facts l = chain f (G.codeOf l) ∧ ∀ e ∈ f, OnSomePath G ⟨l, 0⟩ e

variable {table : FactTable ι Op Var}

namespace LoopWalk

theorem sourced_recompute (h : Sourced G table.out) (hl : l ∈ G) :
    Sourced G (recompute G table l).out := by
  by_cases hc : G.codeOf l = []
  · -- a block without code has no facts, and hands on nothing
    intro p e he
    rcases eq_or_ne p l with rfl | hpl
    · have hnil : (recompute G table p).facts p = [] := by
        rw [facts_recompute_self, hc]
        rfl
      rw [FactTable.out_of_facts_eq_nil hnil] at he
      exact absurd he (Fact.not_mem_bottom e)
    · rw [out_recompute_of_ne hpl] at he
      exact h p e he
  · rw [out_recompute hc]
    exact h.update hl

/-- However far a walk has come, no block hands on or starts from anything else. -/
theorem Walk.sourced {walked changes : List Label} (h : Walk G walked changes table) :
    Sourced G table.out ∧ ∀ x ∈ table.visitOrder, StartsSourced G table x := by
  induction h with
  | start => exact ⟨sourced_of_bottom fun _ => rfl, fun x hx => absurd hx List.not_mem_nil⟩
  | first _ next ih =>
    have hl := Graph.mem_of_append_cons_eq next
    exact ⟨sourced_recompute ih.1 hl, starts_recompute ih.2 fun e => ih.1.joinInto hl⟩
  | again walk hl ih =>
    have hlG := walk.mem_graph hl
    exact ⟨sourced_recompute ih.1 hlG, starts_recompute ih.2 fun e => ih.1.joinInto hlG⟩

end LoopWalk

/-- No run of the worklist strategy hands on anything else. -/
theorem Worklist.Visits.sourced {s t : State ι Op Var} {ls : List Label} (h : Visits G s ls t)
    (hinv : ∃ again fresh, Invariant G s again fresh) (hs : Sourced G s.handsOn) :
    Sourced G t.handsOn := by
  refine h.state_induction (P := fun s => Sourced G s.handsOn) hinv hs ?_
  intro s l waiting again fresh _ _ hl hs
  rw [handsOn_afterVisit]
  exact hs.update hl

/-! ### Either strategy -/

theorem startsSourced_of_analyze {config : Config} (h : analyze config G = .ok table)
    (hl : l ∈ G) : StartsSourced G table l := by
  have hv := (mem_visitOrder_of_analyze h).2 hl
  obtain ⟨strategy, limit⟩ := config
  cases strategy with
  | reference =>
    obtain ⟨changes, walk⟩ := LoopWalk.exists_walk_of_analyze h
    exact walk.sourced.2 l hv
  | worklist =>
    obtain ⟨ls, s, hvis, hinv, rfl⟩ := Worklist.exists_final_of_analyze h
    have hs := hvis.sourced ⟨_, _, Worklist.invariant_start G⟩
      (sourced_of_bottom (Worklist.handsOn_start G))
    exact ⟨_, (hinv.settled_of_mem hl).facts_eq, fun e => hs.joinInto hl⟩

theorem facts_of_not_mem_graph {config : Config} (h : analyze config G = .ok table)
    (hl : l ∉ G) : table.facts l = [] :=
  (coherent_of_analyze h).facts_eq_nil l fun hv => hl ((mem_visitOrder_of_analyze h).1 hv)

/-- Whatever an analysis lists before or after an instruction has been generated somewhere, and
    control can come from there to the place without anything on the way that kills it. -/
theorem onSomePath_of_available {config : Config} (h : analyze config G = .ok table) (l : Label)
    (n : Nat) (e : AvailExpr Op Var) :
    (table.AvailableBefore ⟨l, n⟩ e → OnSomePath G ⟨l, n⟩ e) ∧
      (table.AvailableAfter ⟨l, n⟩ e → OnSomePath G ⟨l, n + 1⟩ e) := by
  by_cases hl : l ∈ G
  · obtain ⟨f, hf, hall⟩ := startsSourced_of_analyze h hl
    rw [availableBefore_of_facts_eq hf, availableAfter_of_facts_eq hf]
    constructor
    · rintro ⟨hn, he⟩
      exact onSomePath_of_mem_transferAll hall (Nat.le_of_lt hn) he
    · rintro ⟨hn, he⟩
      exact onSomePath_of_mem_transferAll hall hn he
  · have hnil : table.facts l = chain .bottom ([] : List ι) := facts_of_not_mem_graph h hl
    rw [availableBefore_of_facts_eq hnil, availableAfter_of_facts_eq hnil]
    simp

/-- Behind an empty loop, and in a block that has not learnt that an expression is lost. -/
theorem onSomePath_emptyLoop_regeneratingArm :
    (∃ wl, analyze ⟨.worklist, 2⟩ Worklist.emptyLoop = .ok wl ∧
      wl.AvailableBefore ⟨⟨2⟩, 0⟩ ⟨⟨(), [0, 1]⟩, 2, false⟩ ∧
      OnSomePath Worklist.emptyLoop ⟨⟨2⟩, 0⟩ ⟨⟨(), [0, 1]⟩, 2, false⟩) ∧
    ∃ ref, analyze ⟨.reference, 3⟩ LoopWalk.regeneratingArm = .ok ref ∧
      ref.AvailableBefore ⟨⟨3⟩, 0⟩ ⟨⟨(), [0, 1]⟩, 3, false⟩ ∧
      OnSomePath LoopWalk.regeneratingArm ⟨⟨3⟩, 0⟩ ⟨⟨(), [0, 1]⟩, 3, false⟩ := by
  constructor
  · obtain ⟨wl, hwl, he⟩ := Worklist.exists_analyze_emptyLoop_eq_ok
    exact ⟨wl, hwl, he, (onSomePath_of_available hwl ⟨2⟩ 0 _).1 he⟩
  · have hany : ((analyze ⟨.reference, 3⟩ LoopWalk.regeneratingArm).toOption.any fun ref =>
        ref.AvailableBefore ⟨⟨3⟩, 0⟩ ⟨⟨(), [0, 1]⟩, 3, false⟩) = true := by
      decide +kernel
    obtain ⟨ref, href, he⟩ := exists_eq_ok_of_any hany
    exact ⟨ref, href, of_decide_eq_true he,
      (onSomePath_of_available href ⟨3⟩ 0 _).1 (of_decide_eq_true he)⟩

end Availability
