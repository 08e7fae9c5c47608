import Availability.Proofs.Worklist.FixedPoint

/-! The worklist strategy computes availability as it is meant: on all paths.

    An expression is available at a point when, on every path from the entry to there, the code run
    so far leaves it computed. A solution of the equations lists nothing else, by induction on the
    path. It lists all of it because no visit ever loses any: what is available on all paths to a
    block is handed on by every predecessor visited so far, and there is one from the first visit
    on, as blocks are first visited in reverse of the order in which a search leaves them. -/

namespace Availability

variable {ι Op Var : Type}

/-- Control can come from the entry to the top of a block by running through the blocks `ls`. -/
inductive Graph.Path (G : Graph ι) : (ls : List Label) → (l : Label) → Prop where
  | entry : G.Path [] G.entry
  | step {ls : List Label} {u v : Label} (path : G.Path ls u) (edge : G.Edge u v) :
      G.Path (ls ++ [u]) v

theorem Graph.Reachable.exists_path {G : Graph ι} {l : Label} (h : G.Reachable l) :
    ∃ ls, G.Path ls l := by
  induction h with
  | refl => exact ⟨[], .entry⟩
  | tail _ edge ih =>
    obtain ⟨ls, path⟩ := ih
    exact ⟨_, path.step edge⟩

variable [Instruction ι Op Var]

/-- On every path to `l`, running through the blocks of the path and then through `code` leaves `e`
    computed. -/
def OnEveryPath (G : Graph ι) (l : Label) (code : List ι) (e : AvailExpr Op Var) : Prop :=
  ∀ ls, G.Path ls l → Leaves (ls.flatMap G.codeOf ++ code) e

variable {G : Graph ι} {l : Label} {e : AvailExpr Op Var}

/-- Either `code` decides, or it leaves the expression alone and the paths decide. -/
theorem onEveryPath_iff (h : G.Reachable l) {code : List ι} :
    OnEveryPath G l code e ↔
      Leaves code e ∨ (OnEveryPath G l [] e ∧ ∀ i ∈ code, ¬ Kills i e) := by
  constructor
  · intro hall
    by_cases hc : Leaves code e
    · exact Or.inl hc
    · obtain ⟨ls, path⟩ := h.exists_path
      refine Or.inr ⟨fun ls' path' => ?_, ?_⟩
      · rw [List.append_nil]
        exact ((leaves_append.1 (hall ls' path')).resolve_left hc).1
      · exact ((leaves_append.1 (hall ls path)).resolve_left hc).2
  · rintro (hc | ⟨hall, hk⟩) ls path
    · exact leaves_append.2 (Or.inl hc)
    · have hls := hall ls path
      rw [List.append_nil] at hls
      exact leaves_append.2 (Or.inr ⟨hls, hk⟩)

/-- The empty path computes nothing. -/
theorem not_onEveryPath_entry : ¬ OnEveryPath G G.entry [] e :=
  fun h => not_leaves_nil e (h [] .entry)

/-- A path to a predecessor goes on to the block. -/
theorem OnEveryPath.of_edge {p : Label} (h : OnEveryPath G l [] e) (edge : G.Edge p l) :
    OnEveryPath G p (G.codeOf p) e := by
  intro ls path
  have hls := h _ (path.step edge)
  rwa [List.append_nil, List.flatMap_append, List.flatMap_singleton] at hls

variable [DecidableEq Op] [DecidableEq Var] {out : Label → Fact (AvailExpr Op Var)}

/-- What a solution lists on the way into a block has been computed on every path to it. -/
theorem leaves_of_mem_joinInto (hout : ∀ l ∈ G, out l = passOn G out l) {ls : List Label}
    (path : G.Path ls l) (he : e ∈ joinInto G out l) : Leaves (ls.flatMap G.codeOf) e := by
  induction path with
  | entry => exact absurd he (not_mem_joinInto_entry e)
  | @step ls u v path edge ih =>
    have hu := hout u edge.source_mem
    have hmem : e ∈ out u := says_of_says_joinInto (q := some e) he edge
      (hu ▸ passOn_ne_bottom G out u)
    rw [hu, mem_passOn] at hmem
    rw [List.flatMap_append, List.flatMap_singleton, leaves_append]
    rcases hmem with hl | ⟨hj, hk⟩
    · exact Or.inl hl
    · exact Or.inr ⟨ih hj, hk⟩

/-- Every block that hands on something hands on what is computed on every path through it. -/
def Covering (G : Graph ι) (out : Label → Fact (AvailExpr Op Var)) : Prop :=
  ∀ p e, out p ≠ .bottom → OnEveryPath G p (G.codeOf p) e → e ∈ out p

/-- What is computed on every path to a block comes into it, once a predecessor hands on
    something. -/
theorem Covering.mem_joinInto (h : Covering G out) {p : Label} (hp : G.Edge p l)
    (hne : out p ≠ .bottom) (he : OnEveryPath G l [] e) : e ∈ joinInto G out l := by
  have hl : l ∈ G := hp.target_mem
  have hb : joinInto G out l ≠ .bottom := fun hb =>
    hne (((joinInto_eq_bottom_iff hl).1 hb).1 p hp)
  refine (Fact.says_meetAll (q := some e) hb).2 fun f hf hfb => ?_
  rcases (mem_factsInto hl).1 hf with ⟨p', hp', rfl⟩ | ⟨-, rfl, -⟩
  · exact h p' e hfb (he.of_edge hp')
  · exact absurd he not_onEveryPath_entry

/-- What is computed on every path to a block comes into it, as soon as something can. -/
theorem Covering.mem_joinInto_of_fed (h : Covering G out) (hfed : Fed G out l)
    (he : OnEveryPath G l [] e) : e ∈ joinInto G out l := by
  rcases hfed with rfl | ⟨p, hp, hne⟩
  · exact absurd he not_onEveryPath_entry
  · exact h.mem_joinInto hp hne he

/-- Computing a block that something can come into keeps what is computed on every path. -/
theorem Covering.update (h : Covering G out) (hreach : G.Reachable l) (hfed : Fed G out l) :
    Covering G (Function.update out l (passOn G out l)) := by
  intro p e hne he
  rcases eq_or_ne p l with rfl | hpl
  · rw [Function.update_self, mem_passOn]
    rcases (onEveryPath_iff hreach).1 he with hc | ⟨hall, hk⟩
    · exact Or.inl hc
    · exact Or.inr ⟨h.mem_joinInto_of_fed hfed hall, hk⟩
  · rw [Function.update_of_ne hpl] at hne ⊢
    exact h p e hne he

namespace Worklist

variable {s t : State ι Op Var} {again fresh waiting ls : List Label}

/-! ### No visit loses anything -/

/-- The next block to be visited is the entry, or has a predecessor that has been visited. -/
theorem Invariant.exists_visited_predecessor (h : Invariant G s again fresh)
    (hw : s.waiting = l :: waiting) (hreach : G.Reachable l) (hne : l ≠ G.entry) :
    ∃ p, G.Edge p l ∧ s.handsOn p ≠ .bottom := by
  obtain ⟨p, hp, hsub⟩ := hreach.exists_later_predecessor hne
  refine ⟨p, hp, fun hb => (h.bottom_iff p).1 hb ?_⟩
  have heq := h.waiting_eq
  rw [hw] at heq
  cases again with
  | cons k again =>
    cases heq
    exact G.mem_of_append_eq_of_sublist h.order_eq (h.again_visited _ List.mem_cons_self) hsub
  | nil =>
    cases heq
    have horder : (s.table.visitOrder ++ [l]) ++ waiting = G.postOrder.reverse := by
      rw [List.append_assoc]
      exact h.order_eq
    have hpl : p ≠ l := by
      rintro rfl
      have := G.nodup_postOrder.sublist hsub
      simp at this
    have hm := G.mem_of_append_eq_of_sublist horder (by simp) hsub
    rcases List.mem_append.1 hm with hm | hm
    · exact hm
    · exact absurd (List.mem_singleton.1 hm) hpl

/-- Something can come into the next block to be visited. -/
theorem Invariant.fed (h : Invariant G s again fresh) (hw : s.waiting = l :: waiting)
    (hreach : G.Reachable l) : Fed G s.handsOn l := by
  rcases eq_or_ne l G.entry with hen | hen
  · exact Or.inl hen
  · exact Or.inr (h.exists_visited_predecessor hw hreach hen)

/-- No run loses what is computed on every path, where every block can be reached. -/
theorem Visits.covering (hreach : ∀ l ∈ G, G.Reachable l) (h : Visits G s ls t)
    (hinv : ∃ again fresh, Invariant G s again fresh) (hs : Covering G s.handsOn) :
    Covering G t.handsOn := by
  refine h.state_induction (P := fun s => Covering G s.handsOn) hinv hs ?_
  intro s l waiting again fresh hinv next hl hs
  rw [handsOn_afterVisit]
  exact hs.update (hreach l hl) (hinv.fed next (hreach l hl))

omit [DecidableEq Op] [DecidableEq Var] in
theorem covering_start : Covering G (start G : State ι Op Var).handsOn :=
  fun p _ hne => absurd (handsOn_start G p) hne

/-! ### Availability -/

/-- Where the run ends, a block with its equation solved lists at each point what is computed on
    every path to it. -/
theorem mem_transferAll_joinInto_iff (hreach : ∀ l ∈ G, G.Reachable l)
    (hvis : Visits G (start G) ls s) (hinv : Invariant G s [] []) (hl : l ∈ G) {code : List ι} :
    e ∈ transferAll code (joinInto G s.handsOn l) ↔ OnEveryPath G l code e := by
  have hjoin : e ∈ joinInto G s.handsOn l ↔ OnEveryPath G l [] e := by
    constructor
    · intro he ls' path
      rw [List.append_nil]
      exact leaves_of_mem_joinInto (fun k hk => (hinv.settled_of_mem hk).handsOn_eq) path he
    · intro he
      rcases eq_or_ne l G.entry with rfl | hen
      · exact absurd he not_onEveryPath_entry
      · obtain ⟨p, hp, -⟩ := (hreach l hl).exists_later_predecessor hen
        exact (hvis.covering hreach ⟨_, _, invariant_start G⟩ covering_start).mem_joinInto hp
          (hinv.handsOn_ne_bottom hp.source_mem) he
  rw [mem_transferAll, hjoin]
  exact (onEveryPath_iff (hreach l hl)).symm

/-- Where every block can be reached, the worklist strategy lists an expression before or after an
    instruction exactly when every path from the entry to there leaves it computed. -/
theorem available_iff_onEveryPath (hreach : ∀ l ∈ G, G.Reachable l) {limit : Nat}
    {table : FactTable ι Op Var} (h : Availability.analyze ⟨.worklist, limit⟩ G = .ok table)
    (hl : l ∈ G) {n : Nat} (hn : n < (G.codeOf l).length) (e : AvailExpr Op Var) :
    (table.AvailableBefore ⟨l, n⟩ e ↔ OnEveryPath G l ((G.codeOf l).take n) e) ∧
      (table.AvailableAfter ⟨l, n⟩ e ↔ OnEveryPath G l ((G.codeOf l).take (n + 1)) e) := by
  obtain ⟨ls, s, hvis, hinv, rfl⟩ := exists_final_of_analyze h
  have hfacts := (hinv.settled_of_mem hl).facts_eq
  constructor
  · rw [FactTable.AvailableBefore, before?_of_facts_eq hfacts, List.getElem?_eq_getElem hn,
      ← mem_transferAll_joinInto_iff hreach hvis hinv hl]
    simp
  · rw [FactTable.AvailableAfter, after?_of_facts_eq hfacts, List.getElem?_eq_getElem hn,
      ← mem_transferAll_joinInto_iff hreach hvis hinv hl]
    simp

theorem reachable_emptyLoop (l : Label) (hl : l ∈ emptyLoop) : emptyLoop.Reachable l := by
  have h₁ : emptyLoop.Edge ⟨0⟩ ⟨1⟩ := show _ ∈ Block.edges emptyLoop.blocks by decide
  have h₂ : emptyLoop.Edge ⟨1⟩ ⟨2⟩ := show _ ∈ Block.edges emptyLoop.blocks by decide
  have hm : l ∈ [(⟨0⟩ : Label), ⟨1⟩, ⟨2⟩] := hl
  simp only [List.mem_cons, List.not_mem_nil, or_false] at hm
  rcases hm with rfl | rfl | rfl
  · exact .refl
  · exact .single h₁
  · exact .tail (.single h₁) h₂

theorem onEveryPath_emptyLoop :
    ∃ table, Availability.analyze ⟨.worklist, 2⟩ emptyLoop = .ok table ∧
      table.AvailableBefore ⟨⟨2⟩, 0⟩ ⟨⟨(), [0, 1]⟩, 2, false⟩ ∧
      OnEveryPath emptyLoop ⟨2⟩ [] ⟨⟨(), [0, 1]⟩, 2, false⟩ := by
  obtain ⟨table, h, he⟩ := exists_analyze_emptyLoop_eq_ok
  have hl : (⟨2⟩ : Label) ∈ emptyLoop := by decide
  have hiff := available_iff_onEveryPath reachable_emptyLoop h hl (n := 0) (by decide)
    ⟨⟨(), [0, 1]⟩, 2, false⟩
  exact ⟨table, h, he, hiff.1.1 he⟩

end Worklist

end Availability
