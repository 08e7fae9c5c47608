import Availability.Proofs.Graph.EdgeOrder
import Availability.Proofs.LoopWalk.Walk
import Availability.Proofs.Worklist.FixedPoint

/-! Both strategies give the same facts where the only loops are edges from a block to itself.

    Each of them comes to a block after all of its other predecessors, at a time when the block
    itself has handed on nothing. What the block hands on then is final: whatever comes back along
    its own edge has been through the block already, so going through it again neither adds nor
    removes anything. There is only one way for all blocks to hand on facts like that. The reference
    strategy goes through such a block once more, and that is what it takes for the facts along it
    to start from what comes in on every edge, its own included. -/

namespace Availability

variable {ι Op Var : Type} [Instruction ι Op Var] [DecidableEq Op] [DecidableEq Var]
variable {G : Graph ι} {out out' : Label → Fact (AvailExpr Op Var)} {l x : Label}

/-! ### What a block hands on at first -/

/-- `l` hands on what it did at first, when nothing came in on an edge from `l` itself. -/
def AsAtFirst (G : Graph ι) (out : Label → Fact (AvailExpr Op Var)) (l : Label) : Prop :=
  out l = passOn G (Function.update out l .bottom) l

omit [Instruction ι Op Var] in
/-- What comes into a block is handed on by the block itself, or comes in on the edges from other
    blocks. -/
theorem mem_or_mem_joinInto_update (hl : l ∈ G) {e : AvailExpr Op Var}
    (he : e ∈ joinInto G out l) :
    e ∈ out l ∨ e ∈ joinInto G (Function.update out l .bottom) l := by
  obtain ⟨p, hp, hep⟩ := exists_mem_of_mem_joinInto hl he
  rcases eq_or_ne p l with rfl | hpl
  · exact Or.inl hep
  · have hb : joinInto G (Function.update out l .bottom) l ≠ .bottom := by
      intro hb
      have hpb := ((joinInto_eq_bottom_iff hl).1 hb).1 p hp
      rw [Function.update_of_ne hpl] at hpb
      rw [hpb] at hep
      exact Fact.not_mem_bottom e hep
    refine Or.inr (says_joinInto_of_ne_bottom (q := some e) hl hb (fun k hk hs => ?_) he)
    have hkl : k ≠ l := by
      rintro rfl
      exact hk (Function.update_self _ _ _)
    rw [Function.update_of_ne hkl] at hk ⊢
    exact hs hk

omit [Instruction ι Op Var] in
/-- What comes in on all other edges and on the own edge comes in. -/
theorem mem_joinInto_of_mem (hl : l ∈ G) {e : AvailExpr Op Var} (hself : e ∈ out l)
    (he : e ∈ joinInto G (Function.update out l .bottom) l) : e ∈ joinInto G out l := by
  refine says_joinInto_mono (q := some e) hl (fun k hk => ?_) (fun k hk hs => ?_) he
  · rcases eq_or_ne k l with rfl | hkl
    · exact Function.update_self _ _ _
    · rwa [Function.update_of_ne hkl]
  · rcases eq_or_ne k l with rfl | hkl
    · exact hself
    · rw [Function.update_of_ne hkl] at hs
      exact hs hk

/-- Going through the block again neither adds nor removes anything. -/
theorem AsAtFirst.mem_passOn_iff (h : AsAtFirst G out l) (hl : l ∈ G) {e : AvailExpr Op Var} :
    e ∈ passOn G out l ↔ e ∈ out l := by
  have hfirst : e ∈ out l ↔ e ∈ passOn G (Function.update out l .bottom) l :=
    iff_of_eq (congrArg (e ∈ ·) h)
  rw [mem_passOn] at hfirst ⊢
  constructor
  · rintro (hleaves | ⟨hinto, hk⟩)
    · exact hfirst.2 (Or.inl hleaves)
    · rcases mem_or_mem_joinInto_update hl hinto with hself | hother
      · exact hself
      · exact hfirst.2 (Or.inr ⟨hother, hk⟩)
  · intro he
    rcases hfirst.1 he with hleaves | ⟨hother, hk⟩
    · exact Or.inl hleaves
    · exact Or.inr ⟨mem_joinInto_of_mem hl he hother, hk⟩

/-- Computing a block that has code once more changes nothing. -/
theorem AsAtFirst.update_passOn (h : AsAtFirst G out l) (hl : l ∈ G) (hc : G.codeOf l ≠ []) :
    Function.update out l (passOn G out l) = out := by
  obtain ⟨s, hs⟩ := transferAll_eq_value hc (joinInto G out l)
  obtain ⟨t, ht⟩ := transferAll_eq_value hc (joinInto G (Function.update out l .bottom) l)
  have hagain : passOn G out l = .value s := by rw [passOn_of_ne_nil hc, hs]
  have hfirst : out l = .value t := h.trans (by rw [passOn_of_ne_nil hc, ht])
  have hst : s = t := by
    refine ItemSet.ext fun e => ?_
    rw [← Fact.mem_value, ← Fact.mem_value, ← hagain, ← hfirst]
    exact h.mem_passOn_iff hl
  rw [hagain, hst, ← hfirst, Function.update_eq_self]

/-- Computing a block for the first time, before any block that it has an edge to. -/
theorem asAtFirst_update (hbot : out l = .bottom) (hx : x ∈ G)
    (h : x = l ∨ ¬ G.Edge l x ∧ AsAtFirst G out x) :
    AsAtFirst G (Function.update out l (passOn G out l)) x := by
  rcases eq_or_ne x l with rfl | hxl
  · rw [AsAtFirst, Function.update_self, Function.update_idem, ← hbot, Function.update_eq_self]
  · obtain ⟨hno, hold⟩ := h.resolve_left hxl
    have hjoin : joinInto G (Function.update (Function.update out l (passOn G out l)) x .bottom) x =
        joinInto G (Function.update out x .bottom) x := by
      refine joinInto_congr hx fun p hp => ?_
      have hpl : p ≠ l := by
        rintro rfl
        exact hno hp
      rw [Function.update_comm hxl.symm, Function.update_of_ne hpl]
    rw [AsAtFirst, Function.update_of_ne hxl, passOn, hjoin]
    exact hold

/-- There is one way for all blocks to hand on what they did at first. -/
theorem eq_of_asAtFirst (hG : G.OnlySelfLoops) (h : ∀ l ∈ G, AsAtFirst G out l)
    (h' : ∀ l ∈ G, AsAtFirst G out' l) (hl : l ∈ G) : out l = out' l := by
  -- the predecessors of a block, apart from the block itself, are entered before it
  induction hn : G.preOrder.idxOf l using Nat.strongRecOn generalizing l with
  | ind n ih =>
    have hjoin : joinInto G (Function.update out l .bottom) l =
        joinInto G (Function.update out' l .bottom) l := by
      refine joinInto_congr hl fun p hp => ?_
      rcases eq_or_ne p l with rfl | hpl
      · rw [Function.update_self, Function.update_self]
      · rw [Function.update_of_ne hpl, Function.update_of_ne hpl]
        have hlt := (hG p l hp).resolve_left hpl
        exact ih _ (hn ▸ hlt) hp.source_mem rfl
    calc out l = passOn G (Function.update out l .bottom) l := h l hl
      _ = passOn G (Function.update out' l .bottom) l := by rw [passOn, hjoin, passOn]
      _ = out' l := (h' l hl).symm

/-- When blocks hand on what `out` says, `l` hands on what it did at first, and the facts along it
    start from what comes into it. -/
structure Follows (G : Graph ι) (out : Label → Fact (AvailExpr Op Var))
    (table : FactTable ι Op Var) (l : Label) : Prop where
  asAtFirst : AsAtFirst G out l
  facts_eq : table.facts l = chain (joinInto G out l) (G.codeOf l)

theorem facts_eq_of_follows (hG : G.OnlySelfLoops) {table table' : FactTable ι Op Var}
    (h : ∀ l ∈ G, Follows G out table l) (h' : ∀ l ∈ G, Follows G out' table' l) (hl : l ∈ G) :
    table.facts l = table'.facts l := by
  have hjoin : joinInto G out l = joinInto G out' l := joinInto_congr hl fun p hp =>
    eq_of_asAtFirst hG (fun k hk => (h k hk).asAtFirst) (fun k hk => (h' k hk).asAtFirst)
      hp.source_mem
  rw [(h l hl).facts_eq, (h' l hl).facts_eq, hjoin]

/-! ### The worklist strategy -/

namespace Worklist

variable {s t : State ι Op Var} {again fresh ls : List Label}

/-- A first visit comes after all visits to predecessors, and every other visit changes nothing. -/
theorem Invariant.asAtFirst_update (hinv : Invariant G s again fresh)
    (hcode : ∀ b ∈ G.blocks, b.code ≠ []) (hG : G.OnlySelfLoops)
    (hs : ∀ x ∈ s.table.visitOrder, AsAtFirst G s.handsOn x) (hl : l ∈ G)
    (hx : x ∈ s.table.visitOrder ∨ x = l) :
    AsAtFirst G (Function.update s.handsOn l (passOn G s.handsOn l)) x := by
  by_cases hv : l ∈ s.table.visitOrder
  · rw [(hs l hv).update_passOn hl (Graph.codeOf_ne_nil hcode hl)]
    rcases hx with hx | rfl
    · exact hs x hx
    · exact hs x hv
  · have hbot : s.handsOn l = .bottom := (hinv.bottom_iff l).2 hv
    rcases hx with hx | rfl
    · have hne : l ≠ x := by
        rintro rfl
        exact hv hx
      have hno : ¬ G.Edge l x := fun edge =>
        hv (G.mem_of_append_eq_of_sublist hinv.order_eq hx (hG.sublist_postOrder edge hne))
      have hxG : x ∈ G := (G.mem_iff_of_append_eq hinv.order_eq).2 (Or.inl hx)
      exact Availability.asAtFirst_update hbot hxG (Or.inr ⟨hno, hs x hx⟩)
    · exact Availability.asAtFirst_update hbot hl (Or.inl rfl)

/-- Throughout a run every visited block hands on what it did at first. -/
theorem Visits.asAtFirst (hcode : ∀ b ∈ G.blocks, b.code ≠ []) (hG : G.OnlySelfLoops)
    (h : Visits G s ls t) (hinv : ∃ again fresh, Invariant G s again fresh)
    (hs : ∀ x ∈ s.table.visitOrder, AsAtFirst G s.handsOn x) :
    ∀ x ∈ t.table.visitOrder, AsAtFirst G t.handsOn x := by
  refine h.state_induction (P := fun s => ∀ x ∈ s.table.visitOrder, AsAtFirst G s.handsOn x)
    hinv hs ?_
  intro s l waiting again fresh hinv next hl hs x hx
  rw [handsOn_afterVisit]
  exact hinv.asAtFirst_update hcode hG hs hl (mem_visitOrder_afterVisit.1 hx)

theorem exists_follows_of_analyze (hcode : ∀ b ∈ G.blocks, b.code ≠ []) (hG : G.OnlySelfLoops)
    {limit : Nat} {table : FactTable ι Op Var}
    (h : Availability.analyze ⟨.worklist, limit⟩ G = .ok table) :
    ∃ out, ∀ l ∈ G, Follows G out table l := by
  obtain ⟨ls, s, hvis, hinv, rfl⟩ := exists_final_of_analyze h
  have hall := hvis.asAtFirst hcode hG ⟨_, _, invariant_start G⟩
    fun x hx => absurd hx List.not_mem_nil
  exact ⟨s.handsOn, fun l hl =>
    ⟨hall l (hinv.mem_visitOrder hl), (hinv.settled_of_mem hl).facts_eq⟩⟩

end Worklist

/-! ### The reference strategy -/

namespace LoopWalk

variable {table : FactTable ι Op Var} {walked late rest : List Label} {limit : Nat}

/-- How things stand when the blocks `walked` have been visited: all of them hand on what they did
    at first, and only the blocks `late` have yet to learn what they hand themselves. -/
structure Reached (G : Graph ι) (table : FactTable ι Op Var) (walked late : List Label) : Prop where
  visitOrder_eq : table.visitOrder = walked
  coherent : Coherent G table
  asAtFirst : ∀ x ∈ walked, AsAtFirst G table.out x
  facts_eq : ∀ x ∈ walked, x ∉ late → table.facts x = chain (joinInto G table.out x) (G.codeOf x)

theorem reached_empty : Reached G (.empty : FactTable ι Op Var) [] [] where
  visitOrder_eq := rfl
  coherent := coherent_empty G
  asAtFirst := by simp
  facts_eq := by simp

section

variable (hcode : ∀ b ∈ G.blocks, b.code ≠ [])
include hcode

/-- Computing the next block. It has something to learn only if it has an edge to itself. -/
theorem Reached.first (h : Reached G table walked []) (hG : G.OnlySelfLoops)
    (next : walked ++ l :: rest = G.preOrder) (hlate : G.Edge l l → l ∈ late) :
    Reached G (recompute G table l) (walked ++ [l]) late := by
  have hnew : l ∉ table.visitOrder := h.visitOrder_eq ▸ Graph.not_mem_walked next
  have hlG : l ∈ G := Graph.mem_of_append_cons_eq next
  have hbot : table.out l = .bottom :=
    FactTable.out_of_facts_eq_nil (h.coherent.facts_eq_nil l hnew)
  have hwalked : ∀ x ∈ walked ++ [l], x ∈ G := fun x hx =>
    Graph.mem_preOrder.1 (next ▸ by simpa [or_assoc] using Or.inl (List.mem_append.1 hx))
  constructor
  · rw [visitOrder_recompute_of_not_mem hnew, h.visitOrder_eq]
  · exact coherent_recompute h.coherent l
  · intro x hx
    rw [out_recompute (Graph.codeOf_ne_nil hcode hlG)]
    refine asAtFirst_update hbot (hwalked x hx) ?_
    rcases List.mem_append.1 hx with hx | hx
    · exact Or.inr ⟨hG.not_edge_of_mem_walked next hx, h.asAtFirst x hx⟩
    · exact Or.inl (List.mem_singleton.1 hx)
  · intro x hx hxl
    have hno : ¬ G.Edge l x := by
      rcases List.mem_append.1 hx with hx | hx
      · exact hG.not_edge_of_mem_walked next hx
      · rw [List.mem_singleton.1 hx] at hxl ⊢
        exact fun hself => hxl (hlate hself)
    have hjoin : joinInto G (recompute G table l).out x = joinInto G table.out x := by
      refine joinInto_congr (hwalked x hx) fun p hp => out_recompute_of_ne ?_
      rintro rfl
      exact hno hp
    rw [hjoin]
    rcases eq_or_ne x l with rfl | hne
    · exact facts_recompute_self
    · rw [facts_recompute_of_ne hne]
      exact h.facts_eq x (by simpa [hne] using hx) List.not_mem_nil

variable (h : Reached G table walked late) (hl : l ∈ walked) (hlG : l ∈ G)
include h hl hlG

theorem Reached.out_recompute_eq : (recompute G table l).out = table.out := by
  have hc := Graph.codeOf_ne_nil hcode hlG
  rw [out_recompute hc, (h.asAtFirst l hl).update_passOn hlG hc]

theorem Reached.settles : Settles G table l :=
  ⟨Graph.codeOf_ne_nil hcode hlG, congrFun (h.out_recompute_eq hcode hl hlG) l⟩

/-- Computing a block once more, after which it has nothing left to learn. -/
theorem Reached.again (hlate : late ⊆ [l]) : Reached G (recompute G table l) walked [] := by
  have hout := h.out_recompute_eq hcode hl hlG
  constructor
  · rw [visitOrder_recompute_of_mem (h.visitOrder_eq.symm ▸ hl), h.visitOrder_eq]
  · exact coherent_recompute h.coherent l
  · rw [hout]
    exact h.asAtFirst
  · intro x hx _
    rw [hout]
    rcases eq_or_ne x l with rfl | hne
    · exact facts_recompute_self
    · rw [facts_recompute_of_ne hne]
      exact h.facts_eq x hx fun hm => hne (List.mem_singleton.1 (hlate hm))

/-- Following the edges of the last block, of which only the one to itself closes a loop. -/
theorem Reached.foldlM_closeLoop (hlimit : 0 < limit) (hlate : late ⊆ [l]) {targets : List Label}
    (htargets : ∀ x ∈ targets, x ∈ walked → x = l) (hlearn : l ∈ targets ∨ late = []) :
    ∃ table', targets.foldlM (closeLoop G limit (.ofList walked)) table = .ok table' ∧
      Reached G table' walked [] := by
  induction targets generalizing table late with
  | nil =>
    obtain rfl := hlearn.resolve_left List.not_mem_nil
    exact ⟨table, rfl, h⟩
  | cons target targets ih =>
    have hrest : ∀ x ∈ targets, x ∈ walked → x = l := fun x hx =>
      htargets x (List.mem_cons_of_mem _ hx)
    rw [List.foldlM_cons]
    rcases eq_or_ne target l with rfl | hne
    · rw [closeLoop_of_settles h.coherent (ItemSet.mem_ofList.2 hl) (h.visitOrder_eq.symm ▸ hl) hlG
        (h.settles hcode hl hlG) hlimit]
      exact ih (h.again hcode hl hlG hlate) (List.nil_subset _) hrest (Or.inr rfl)
    · have hout : target ∉ ItemSet.ofList walked := fun hm =>
        hne (htargets target List.mem_cons_self (ItemSet.mem_ofList.1 hm))
      rw [closeLoop_of_not_mem hout]
      exact ih h hlate hrest
        (hlearn.imp_left fun hm => (List.mem_cons.1 hm).resolve_left hne.symm)

end

theorem foldlM_closeLoop_of_not_mem {visited : ItemSet Label} {targets : List Label}
    (h : ∀ x ∈ targets, x ∉ visited) :
    targets.foldlM (closeLoop G limit visited) table = .ok table := by
  induction targets with
  | nil => rfl
  | cons target targets ih =>
    rw [List.foldlM_cons, closeLoop_of_not_mem (h target List.mem_cons_self)]
    exact ih fun x hx => h x (List.mem_cons_of_mem _ hx)

section

variable (hcode : ∀ b ∈ G.blocks, b.code ≠ []) (hG : G.OnlySelfLoops)
include hcode hG

/-- Visiting the next block. A block without an edge to itself is computed once. -/
theorem Reached.visitNext (h : Reached G table walked [])
    (next : walked ++ l :: rest = G.preOrder) (hlimit : 0 < limit ∨ ¬ G.Edge l l) :
    ∃ table', LoopWalk.visitNext G limit walked table l = .ok table' ∧
      Reached G table' (walked ++ [l]) [] ∧
      (¬ G.Edge l l → table'.visits = table.visits + 1) := by
  have hlG : l ∈ G := Graph.mem_of_append_cons_eq next
  have htargets : ∀ x ∈ G.successorsOf l, x ∈ walked ++ [l] → x = l := by
    intro x hx hm
    rcases List.mem_append.1 hm with hm | hm
    · exact absurd (Graph.mem_successorsOf.1 hx) (hG.not_edge_of_mem_walked next hm)
    · exact List.mem_singleton.1 hm
  by_cases hself : G.Edge l l
  · have hfirst : Reached G (recompute G table l) (walked ++ [l]) [l] :=
      h.first hcode hG next fun _ => List.mem_singleton_self l
    obtain ⟨table', hfold, hreached⟩ := hfirst.foldlM_closeLoop hcode (by simp) hlG
      (hlimit.resolve_right (not_not_intro hself)) (List.Subset.refl _) htargets
      (Or.inl (Graph.mem_successorsOf.2 hself))
    exact ⟨table', hfold, hreached, fun hno => absurd hself hno⟩
  · have hfirst : Reached G (recompute G table l) (walked ++ [l]) [] :=
      h.first hcode hG next fun hs => absurd hs hself
    refine ⟨recompute G table l, foldlM_closeLoop_of_not_mem fun x hx hm => ?_, hfirst,
      fun _ => rfl⟩
    rw [htargets x hx (ItemSet.mem_ofList.1 hm)] at hx
    exact hself (Graph.mem_successorsOf.1 hx)

/-- Visiting all blocks that are left. -/
theorem Reached.visitAll (h : Reached G table walked []) (horder : walked ++ rest = G.preOrder)
    (hlimit : 0 < limit ∨ ∀ l, ¬ G.Edge l l) :
    ∃ table', LoopWalk.visitAll G limit walked rest table = .ok table' ∧
      Reached G table' G.preOrder [] ∧
      ((∀ l, ¬ G.Edge l l) → table'.visits = table.visits + rest.length) := by
  induction rest generalizing walked table with
  | nil =>
    rw [List.append_nil] at horder
    exact ⟨table, rfl, horder ▸ h, fun _ => rfl⟩
  | cons l rest ih =>
    obtain ⟨table₁, hvisit, h₁, hcount₁⟩ :=
      h.visitNext hcode hG horder (hlimit.imp_right (· l))
    have horder₁ : (walked ++ [l]) ++ rest = G.preOrder := by
      rw [List.append_assoc, List.singleton_append, horder]
    obtain ⟨table₂, hall, h₂, hcount₂⟩ := ih h₁ horder₁
    refine ⟨table₂, ?_, h₂, fun hno => ?_⟩
    · rw [visitAll_cons h.coherent h.visitOrder_eq horder, hvisit]
      exact hall
    · rw [hcount₂ hno, hcount₁ (hno l), List.length_cons]
      omega

theorem exists_reached (hlimit : 0 < limit ∨ ∀ l, ¬ G.Edge l l) :
    ∃ table : FactTable ι Op Var, Availability.analyze ⟨.reference, limit⟩ G = .ok table ∧
      Reached G table G.preOrder [] ∧ ((∀ l, ¬ G.Edge l l) → table.visits = G.preOrder.length) := by
  have hstart : Reached G (.empty : FactTable ι Op Var) [] [] := reached_empty
  obtain ⟨table, hall, hreached, hcount⟩ :=
    hstart.visitAll hcode hG (List.nil_append _) hlimit
  exact ⟨table, (analyze_eq_visitAll G limit).trans hall, hreached,
    fun hno => (hcount hno).trans (Nat.zero_add _)⟩

end

theorem Reached.follows (h : Reached G table G.preOrder []) (hl : l ∈ G) :
    Follows G table.out table l where
  asAtFirst := h.asAtFirst l (Graph.mem_preOrder.2 hl)
  facts_eq := h.facts_eq l (Graph.mem_preOrder.2 hl) List.not_mem_nil

end LoopWalk

/-! ### The two compared -/

/-- Where every block has code and the only loops are edges from a block to itself, the reference
    strategy gives a table as soon as a loop may take one sweep. The facts around every instruction
    are those of the worklist strategy. Where there are no loops at all it needs no sweep, and
    visits every block once. -/
theorem exists_reference_eq_worklist (hcode : ∀ b ∈ G.blocks, b.code ≠ []) (hG : G.OnlySelfLoops)
    {limit : Nat} (hlimit : 1 ≤ limit ∨ ∀ l, ¬ G.Edge l l) :
    ∃ ref : FactTable ι Op Var, analyze ⟨.reference, limit⟩ G = .ok ref ∧
      (∀ limit' wl, analyze ⟨.worklist, limit'⟩ G = .ok wl →
        ∀ l ∈ G, ∀ n < (G.codeOf l).length, ∃ before after,
          ref.before? ⟨l, n⟩ = some before ∧ wl.before? ⟨l, n⟩ = some before ∧
          ref.after? ⟨l, n⟩ = some after ∧ wl.after? ⟨l, n⟩ = some after) ∧
      ((∀ l, ¬ G.Edge l l) → ref.visits = G.size ∧ ref.visitOrder.Perm G.labels) := by
  obtain ⟨ref, href, hreached, hcount⟩ := LoopWalk.exists_reached hcode hG hlimit
  refine ⟨ref, href, fun limit' wl hwl l hl n hn => ?_, fun hno => ⟨?_, ?_⟩⟩
  · obtain ⟨out, hfollows⟩ := Worklist.exists_follows_of_analyze hcode hG hwl
    have hfacts := (hreached.follows hl).facts_eq
    have hfacts' : wl.facts l = chain (joinInto G ref.out l) (G.codeOf l) :=
      (facts_eq_of_follows hG hfollows (fun _ => hreached.follows) hl).trans hfacts
    exact ⟨_, _, before?_eq_some hfacts hn, before?_eq_some hfacts' hn,
      after?_eq_some hfacts hn, after?_eq_some hfacts' hn⟩
  · rw [hcount hno, G.perm_preOrder.length_eq]
    exact List.length_map _
  · rw [hreached.visitOrder_eq]
    exact G.perm_preOrder

/-- A block that overwrites an operand on a way round to itself, and one with an edge to itself that
    cannot be reached. -/
def selfLoops : Graph (Summary Unit Nat) where
  blocks :=
    [⟨⟨0⟩, [⟨.pure ⟨(), [0, 1]⟩, some 3⟩], [⟨1⟩]⟩,
     ⟨⟨1⟩, [⟨.pure ⟨(), [2, 2]⟩, some 4⟩, ⟨.other, some 0⟩], [⟨1⟩, ⟨1⟩, ⟨2⟩]⟩,
     ⟨⟨2⟩, [⟨.other, none⟩], []⟩,
     ⟨⟨3⟩, [⟨.pure ⟨(), [0, 1]⟩, some 3⟩], [⟨3⟩]⟩]
  blocks_ne_nil := by decide
  tables := _
  tables_eq := rfl

/-- A way past a block that overwrites an operand, and a block that cannot be reached. -/
def shortcut : Graph (Summary Unit Nat) where
  blocks :=
    [⟨⟨0⟩, [⟨.pure ⟨(), [0, 1]⟩, some 3⟩], [⟨1⟩, ⟨2⟩]⟩,
     ⟨⟨1⟩, [⟨.other, some 0⟩], [⟨2⟩]⟩,
     ⟨⟨2⟩, [⟨.other, none⟩], []⟩,
     ⟨⟨3⟩, [⟨.other, none⟩], []⟩]
  blocks_ne_nil := by decide
  tables := _
  tables_eq := rfl

theorem exists_reference_selfLoops_eq_worklist :
    (∃ ref wl, analyze ⟨.reference, 1⟩ selfLoops = .ok ref ∧
      analyze ⟨.worklist, 2⟩ selfLoops = .ok wl ∧
      ref.before? ⟨⟨1⟩, 0⟩ = some (.value (∅ : ItemSet (AvailExpr Unit Nat))) ∧
      ref.before? ⟨⟨3⟩, 0⟩ = wl.before? ⟨⟨3⟩, 0⟩) ∧
    ∃ ref : FactTable (Summary Unit Nat) Unit Nat,
      analyze ⟨.reference, 0⟩ shortcut = .ok ref ∧ ref.visits = 4 := by
  constructor
  · have hany : ((analyze ⟨.worklist, 2⟩ selfLoops).toOption.any fun wl =>
        wl.before? ⟨⟨1⟩, 0⟩ = some (.value (∅ : ItemSet (AvailExpr Unit Nat)))) = true := by
      decide +kernel
    obtain ⟨wl, hwl, hdec⟩ := exists_eq_ok_of_any hany
    obtain ⟨ref, href, hsame, -⟩ := exists_reference_eq_worklist (by decide)
      (show selfLoops.OnlySelfLoops by decide +kernel) (Or.inl (Nat.le_refl 1))
    obtain ⟨f, -, hf, hf', -⟩ := hsame 2 wl hwl ⟨1⟩ (by decide) 0 (by decide)
    obtain ⟨g, -, hg, hg', -⟩ := hsame 2 wl hwl ⟨3⟩ (by decide) 0 (by decide)
    exact ⟨ref, wl, href, hwl, hf.trans (hf'.symm.trans (of_decide_eq_true hdec)),
      hg.trans hg'.symm⟩
  · have hno : ∀ l, ¬ shortcut.Edge l l := by
      have hall : ∀ e ∈ Block.edges shortcut.blocks, e.1 ≠ e.2 := by decide
      exact fun l hl => hall (l, l) hl rfl
    obtain ⟨ref, href, -, hvisits⟩ := exists_reference_eq_worklist (by decide)
      (show shortcut.OnlySelfLoops by decide +kernel) (Or.inr hno)
    exact ⟨ref, href, (hvisits hno).1⟩

end Availability
