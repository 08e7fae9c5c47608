import Availability.Analysis
import Availability.Proofs.Graph.PostOrder
import Availability.Proofs.Worklist.Visit

/-! The worklist strategy ends at a fixed point of the equations.

    Between two visits the waiting blocks are some that have to be visited again, followed by those
    that have never been visited, in reverse leaving order. A visited block that is not waiting is
    settled: it hands on what its equation says, and the facts recorded along it are those that
    follow from what comes into it. A visit settles its block and unsettles at most the successors
    of it, which are put in front. When none is waiting, every block is settled. -/

namespace Availability.Worklist

variable {ι Op Var : Type} [Instruction ι Op Var] [DecidableEq Op] [DecidableEq Var]

/-- What `l` hands on, and the facts recorded along it, follow from what its predecessors hand
    on. -/
structure Settled (G : Graph ι) (s : State ι Op Var) (l : Label) : Prop where
  handsOn_eq : s.handsOn l = passOn G s.handsOn l
  facts_eq : s.table.facts l = chain (joinInto G s.handsOn l) (G.codeOf l)

/-- What holds between two visits: the blocks `again` wait for another visit, the blocks `fresh` for
    their first, and all others are settled. -/
structure Invariant (G : Graph ι) (s : State ι Op Var) (again fresh : List Label) : Prop where
  valid : Valid G s
  waiting_eq : s.waiting = again ++ fresh
  order_eq : s.table.visitOrder ++ fresh = G.postOrder.reverse
  again_visited : ∀ x ∈ again, x ∈ s.table.visitOrder
  bottom_iff : ∀ x, s.handsOn x = .bottom ↔ x ∉ s.table.visitOrder
  settled : ∀ x ∈ s.table.visitOrder, x ∉ again → Settled G s x

variable {G : Graph ι} {s t : State ι Op Var} {l x : Label} {again fresh ls : List Label}

theorem invariant_start (G : Graph ι) :
    Invariant G (start G : State ι Op Var) [] G.postOrder.reverse where
  valid := valid_start G
  waiting_eq := rfl
  order_eq := rfl
  again_visited := by simp
  bottom_iff := fun x => ⟨fun _ => List.not_mem_nil, fun _ => handsOn_start G x⟩
  settled := fun x hx => absurd hx List.not_mem_nil

/-! ### One visit -/

/-- A visit settles its block, and leaves another one settled, if what comes into it is still the
    same afterwards. -/
theorem settled_afterVisit (hx : x = l ∨ Settled G s x)
    (hjoin : joinInto G (afterVisit G s l).handsOn x = joinInto G s.handsOn x) :
    Settled G (afterVisit G s l) x := by
  have hpass : passOn G (afterVisit G s l).handsOn x = passOn G s.handsOn x := by
    rw [passOn, hjoin, passOn]
  rcases eq_or_ne x l with rfl | hxl
  · constructor
    · rw [hpass, handsOn_afterVisit, Function.update_self]
    · rw [hjoin, afterVisit, FactTable.facts_record, if_pos rfl]
  · have hs := hx.resolve_left hxl
    constructor
    · rw [hpass, handsOn_afterVisit, Function.update_of_ne hxl]
      exact hs.handsOn_eq
    · rw [hjoin, afterVisit, FactTable.facts_record, if_neg hxl]
      exact hs.facts_eq

/-- A visit to a block that has been taken off the list restores the invariant. Nothing more has to
    wait if the block hands on what it did before. -/
theorem invariant_afterVisit (hvalid : Valid G s) (hw : s.waiting = again ++ fresh)
    (horder : (afterVisit G s l).table.visitOrder ++ fresh = G.postOrder.reverse)
    (hagain : ∀ x ∈ again, x ∈ s.table.visitOrder)
    (hbot : ∀ x, s.handsOn x = .bottom ↔ x ∉ s.table.visitOrder)
    (hsettled : ∀ x ∈ s.table.visitOrder, x ≠ l → x ∉ again → Settled G s x) :
    ∃ more, Invariant G (afterVisit G s l) (more ++ again) fresh ∧
      (s.handsOn l = passOn G s.handsOn l → more = []) := by
  obtain ⟨more, hwait, hmore, hsame, hjoin⟩ := exists_waiting_afterVisit G s l
  rw [hw] at hwait hmore hjoin
  refine ⟨more, ?_, hsame⟩
  constructor
  · exact valid_afterVisit hvalid l
  · rw [hwait, List.append_assoc]
  · exact horder
  · intro x hx
    rcases List.mem_append.1 hx with hx | hx
    · obtain ⟨hlx, hxw⟩ := hmore x hx
      rcases (G.mem_iff_of_append_eq horder).1 hlx.target_mem with hv | hf
      · exact hv
      · exact absurd (List.mem_append_right _ hf) hxw
    · exact mem_visitOrder_afterVisit.2 (Or.inl (hagain x hx))
  · intro x
    rw [mem_visitOrder_afterVisit, handsOn_afterVisit, not_or, ← hbot]
    rcases eq_or_ne x l with rfl | hxl
    · rw [Function.update_self]
      simp [passOn_ne_bottom]
    · rw [Function.update_of_ne hxl]
      simp [hxl]
  · intro x hx hxa
    have hxf : x ∉ fresh := G.not_mem_of_append_eq horder hx
    rw [List.mem_append, not_or] at hxa
    refine settled_afterVisit ?_ (hjoin x ((G.mem_iff_of_append_eq horder).2 (Or.inl hx)) ?_)
    · rcases mem_visitOrder_afterVisit.1 hx with hxv | hxl
      · rcases eq_or_ne x l with hxl | hxl
        · exact Or.inl hxl
        · exact Or.inr (hsettled x hxv hxl hxa.2)
      · exact Or.inl hxl
    · simp [hxa.1, hxa.2, hxf]

/-- Visiting a block once more. -/
theorem Invariant.revisit (h : Invariant G s (l :: again) fresh) :
    ∃ more,
      Invariant G (afterVisit G { s with waiting := again ++ fresh } l) (more ++ again) fresh ∧
      (s.handsOn l = passOn G s.handsOn l → more = []) := by
  have hl : l ∈ s.table.visitOrder := h.again_visited l List.mem_cons_self
  refine invariant_afterVisit (h.valid.of_waiting _) rfl ?_
    (fun x hx => h.again_visited x (List.mem_cons_of_mem _ hx)) h.bottom_iff
    fun x hx hxl hxa => ?_
  · rw [afterVisit, FactTable.visitOrder_record_of_mem s.table hl]
    exact h.order_eq
  · have hs := h.settled x hx (by simp [hxl, hxa])
    exact ⟨hs.handsOn_eq, hs.facts_eq⟩

/-- Visiting a block for the first time. -/
theorem Invariant.firstVisit (h : Invariant G s [] (l :: fresh)) :
    ∃ more, Invariant G (afterVisit G { s with waiting := fresh } l) more fresh := by
  have hl : l ∉ s.table.visitOrder := fun hv =>
    G.not_mem_of_append_eq h.order_eq hv List.mem_cons_self
  have hw : ({ s with waiting := fresh } : State ι Op Var).waiting = [] ++ fresh := rfl
  have horder : (afterVisit G { s with waiting := fresh } l).table.visitOrder ++ fresh =
      G.postOrder.reverse := by
    rw [afterVisit, FactTable.visitOrder_record_of_not_mem s.table hl, List.append_assoc]
    exact h.order_eq
  obtain ⟨more, hinv, -⟩ := invariant_afterVisit (h.valid.of_waiting _) hw horder (by simp)
    h.bottom_iff fun x hx _ hxa => ⟨(h.settled x hx hxa).handsOn_eq, (h.settled x hx hxa).facts_eq⟩
  exact ⟨more, by rwa [List.append_nil] at hinv⟩

/-! ### Whole runs -/

/-- The invariant holds after every visit. -/
theorem Visits.invariant (h : Visits G s ls t) (hs : ∃ again fresh, Invariant G s again fresh) :
    ∃ again fresh, Invariant G t again fresh := by
  induction h with
  | done s => exact hs
  | visit next step _ ih =>
    obtain ⟨again, fresh, hinv⟩ := hs
    obtain ⟨-, rfl, -⟩ := hinv.valid.of_step step
    refine ih ?_
    have hw := hinv.waiting_eq
    rw [next] at hw
    cases again with
    | cons k again =>
      cases hw
      obtain ⟨more, hinv', -⟩ := hinv.revisit
      exact ⟨_, _, hinv'⟩
    | nil =>
      cases hw
      obtain ⟨more, hinv'⟩ := hinv.firstVisit
      exact ⟨_, _, hinv'⟩

/-- What holds at the start of a run and is kept by every visit holds at the end. -/
theorem Visits.state_induction {P : State ι Op Var → Prop} (h : Visits G s ls t)
    (hinv : ∃ again fresh, Invariant G s again fresh) (hs : P s)
    (hstep : ∀ s l waiting again fresh, Invariant G s again fresh → s.waiting = l :: waiting →
      l ∈ G → P s → P (afterVisit G { s with waiting } l)) : P t := by
  induction h with
  | done s => exact hs
  | @visit s t u l waiting ls next step _ ih =>
    have hinv' := (Visits.visit next step (.done t)).invariant hinv
    obtain ⟨again, fresh, hinv⟩ := hinv
    obtain ⟨hl, rfl, -⟩ := hinv.valid.of_step step
    exact ih hinv' (hstep s l waiting again fresh hinv next hl hs)

/-- A run that gives a table ends in a state in which every block is settled. -/
theorem exists_final_of_analyze {limit : Nat} {table : FactTable ι Op Var}
    (h : Availability.analyze ⟨.worklist, limit⟩ G = .ok table) :
    ∃ ls s, Visits G (start G) ls s ∧ Invariant G s [] [] ∧ s.table = table := by
  obtain ⟨ls, s, hvis, hw, htable⟩ := exists_visits_of_run_eq_ok h
  obtain ⟨again, fresh, hinv⟩ := hvis.invariant ⟨_, _, invariant_start G⟩
  have hnil := hinv.waiting_eq
  rw [hw, eq_comm, List.append_eq_nil_iff] at hnil
  obtain ⟨rfl, rfl⟩ := hnil
  exact ⟨ls, s, hvis, hinv, htable⟩

namespace Invariant

variable (h : Invariant G s [] [])
include h

theorem mem_visitOrder (hl : l ∈ G) : l ∈ s.table.visitOrder := by
  rcases (G.mem_iff_of_append_eq h.order_eq).1 hl with hv | hf
  · exact hv
  · simp at hf

theorem settled_of_mem (hl : l ∈ G) : Settled G s l :=
  h.settled l (h.mem_visitOrder hl) List.not_mem_nil

theorem handsOn_ne_bottom (hl : l ∈ G) : s.handsOn l ≠ .bottom :=
  fun hb => (h.bottom_iff l).1 hb (h.mem_visitOrder hl)

/-- In the end `bottom` comes into those blocks only that no edge leads to. -/
theorem joinInto_eq_bottom_iff (hl : l ∈ G) :
    joinInto G s.handsOn l = .bottom ↔ G.predecessorsOf l = [] := by
  rw [Availability.joinInto_eq_bottom_iff hl, List.eq_nil_iff_forall_not_mem]
  constructor
  · rintro ⟨hb, -⟩ p hp
    have hpl := (Graph.mem_predecessorsOf hl).1 hp
    exact h.handsOn_ne_bottom hpl.source_mem (hb p hpl)
  · intro hnil
    have hno : ∀ p, ¬ G.Edge p l := fun p hp => hnil p ((Graph.mem_predecessorsOf hl).2 hp)
    exact ⟨fun p hp => absurd hp (hno p), fun _ => hno⟩

end Invariant

/-! ### The fixed point -/

/-- `into` and `out` give every block the fact before and after it, so that together with `table`
    they solve the equations of the analysis: what comes into a block is the meet of what its
    predecessors hand on, the facts along a block follow one from the other, and a block hands on
    the last of them. -/
structure FixedPoint (G : Graph ι) (table : FactTable ι Op Var)
    (into out : Label → Fact (AvailExpr Op Var)) : Prop where
  out_ne_bottom : ∀ l ∈ G, out l ≠ .bottom
  into_eq : ∀ l ps, G.predecessors l = .ok ps →
    into l = .meetAll (ps.map out ++ if l = G.entry ∧ ps ≠ [] then [.top] else [])
  into_eq_bottom_iff : ∀ l ps, G.predecessors l = .ok ps → (into l = .bottom ↔ ps = [])
  before_first : ∀ l b, G.block l = .ok b → b.code ≠ [] → table.before? ⟨l, 0⟩ = some (into l)
  before_next : ∀ l b n, G.block l = .ok b → n + 1 < b.code.length →
    table.before? ⟨l, n + 1⟩ = table.after? ⟨l, n⟩
  after_eq : ∀ l b n i, G.block l = .ok b → b.code[n]? = some i →
    table.after? ⟨l, n⟩ = (table.before? ⟨l, n⟩).map (transfer i)
  after_last : ∀ l b, G.block l = .ok b → b.code ≠ [] →
    table.after? ⟨l, b.code.length - 1⟩ = some (out l)
  /-- A block without code hands on what it gets, and nothing for `bottom`. -/
  out_of_nil : ∀ l b, G.block l = .ok b → b.code = [] → out l = (into l).settle

/-- The worklist strategy gives a fixed point, and no block of it hands on `bottom`. -/
theorem exists_fixedPoint {limit : Nat} {table : FactTable ι Op Var}
    (h : Availability.analyze ⟨.worklist, limit⟩ G = .ok table) :
    ∃ into out, FixedPoint G table into out := by
  obtain ⟨ls, s, -, hinv, rfl⟩ := exists_final_of_analyze h
  refine ⟨joinInto G s.handsOn, s.handsOn, ?_⟩
  constructor
  · exact fun l hl => hinv.handsOn_ne_bottom hl
  · intro l ps hps
    obtain ⟨-, rfl⟩ := Graph.predecessors_eq_ok_iff.1 hps
    rw [joinInto, factsInto]
    split
    · rfl
    · rw [List.append_nil]
  · intro l ps hps
    obtain ⟨hl, rfl⟩ := Graph.predecessors_eq_ok_iff.1 hps
    exact hinv.joinInto_eq_bottom_iff hl
  · intro l b hb hne
    obtain ⟨hl, rfl⟩ := Graph.block_eq_ok_iff.1 hb
    exact before?_zero (hinv.settled_of_mem hl).facts_eq hne
  · intro l b n hb hn
    obtain ⟨hl, rfl⟩ := Graph.block_eq_ok_iff.1 hb
    exact before?_succ (hinv.settled_of_mem hl).facts_eq hn
  · intro l b n i hb hi
    obtain ⟨hl, rfl⟩ := Graph.block_eq_ok_iff.1 hb
    exact after?_eq_map (hinv.settled_of_mem hl).facts_eq hi
  · intro l b hb hne
    obtain ⟨hl, rfl⟩ := Graph.block_eq_ok_iff.1 hb
    have hs := hinv.settled_of_mem hl
    rw [hs.handsOn_eq, passOn_of_ne_nil hne]
    exact after?_last hs.facts_eq hne
  · intro l b hb hnil
    obtain ⟨hl, rfl⟩ := Graph.block_eq_ok_iff.1 hb
    rw [(hinv.settled_of_mem hl).handsOn_eq, passOn_of_eq_nil hnil]

/-- A block that computes, an empty block with an edge to itself, and a block behind it. -/
def emptyLoop : Graph (Summary Unit Nat) where
  blocks :=
    [⟨⟨0⟩, [⟨.pure ⟨(), [0, 1]⟩, some 2⟩], [⟨1⟩]⟩,
     ⟨⟨1⟩, [], [⟨1⟩, ⟨2⟩]⟩,
     ⟨⟨2⟩, [⟨.other, none⟩], []⟩]
  blocks_ne_nil := by decide
  tables := _
  tables_eq := rfl

theorem exists_analyze_emptyLoop_eq_ok :
    ∃ table, Availability.analyze ⟨.worklist, 2⟩ emptyLoop = .ok table ∧
      table.AvailableBefore ⟨⟨2⟩, 0⟩ ⟨⟨(), [0, 1]⟩, 2, false⟩ := by
  have h : ((Availability.analyze ⟨.worklist, 2⟩ emptyLoop).toOption.any fun table =>
      table.AvailableBefore ⟨⟨2⟩, 0⟩ ⟨⟨(), [0, 1]⟩, 2, false⟩) = true := by decide +kernel
  obtain ⟨table, hok, he⟩ := exists_eq_ok_of_any h
  exact ⟨table, hok, of_decide_eq_true he⟩

theorem exists_fixedPoint_emptyLoop :
    ∃ table into out, Availability.analyze ⟨.worklist, 2⟩ emptyLoop = .ok table ∧
      FixedPoint emptyLoop table into out := by
  obtain ⟨table, h, -⟩ := exists_analyze_emptyLoop_eq_ok
  obtain ⟨into, out, hfix⟩ := exists_fixedPoint h
  exact ⟨table, into, out, h, hfix⟩

end Availability.Worklist
