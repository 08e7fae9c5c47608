import Mathlib.Logic.Function.Basic
import Availability.Proofs.FactTable
import Availability.Worklist

/-! What one visit does to a worklist, and what a run is made of.

    In a valid state it is known of every block what it hands on, the blocks seen are those in the
    order of visits, and these have facts while the others have none. There a visit never fails on a
    block of the graph, and it makes no difference whether it computes facts for the first time or
    again: it records the facts along the block, replaces what the block hands on by `passOn`, and
    puts the successors that are not waiting yet in front of the others if that is a change. A run
    is a sequence of such visits, each to the block that is next in line; the limit decides how many
    of them take place and nothing else. -/

namespace Availability.Worklist

variable {ι Op Var : Type}

/-- Making blocks wait puts those that are not waiting yet in front. -/
theorem foldl_await (ls waiting : List Label) :
    ∃ more, ls.foldl await waiting = more ++ waiting ∧
      (∀ x ∈ more, x ∈ ls ∧ x ∉ waiting) ∧ ∀ x ∈ ls, x ∈ more ++ waiting := by
  induction ls generalizing waiting with
  | nil => exact ⟨[], by simp⟩
  | cons l ls ih =>
    rw [List.foldl_cons, await]
    by_cases hl : l ∈ waiting
    · rw [if_pos hl]
      obtain ⟨more, heq, hnew, hall⟩ := ih waiting
      refine ⟨more, heq, fun x hx => ⟨List.mem_cons_of_mem _ (hnew x hx).1, (hnew x hx).2⟩, ?_⟩
      intro x hx
      rcases List.mem_cons.1 hx with rfl | hx
      · exact List.mem_append_right _ hl
      · exact hall x hx
    · rw [if_neg hl]
      obtain ⟨more, heq, hnew, hall⟩ := ih (l :: waiting)
      refine ⟨more ++ [l], by simp [heq], fun x hx => ?_, fun x hx => ?_⟩
      · rcases List.mem_append.1 hx with hx | hx
        · obtain ⟨h₁, h₂⟩ := hnew x hx
          exact ⟨List.mem_cons_of_mem _ h₁, fun h => h₂ (List.mem_cons_of_mem _ h)⟩
        · rw [List.mem_singleton.1 hx]
          exact ⟨List.mem_cons_self, hl⟩
      · rw [List.append_assoc, List.singleton_append]
        rcases List.mem_cons.1 hx with rfl | hx
        · simp
        · exact hall x hx

variable [Instruction ι Op Var] [DecidableEq Op] [DecidableEq Var]

/-! ### Valid states -/

/-- What every state of a run has in common. -/
structure Valid (G : Graph ι) (s : State ι Op Var) : Prop where
  /-- It is known of every block what it hands on. -/
  known : ∀ p ∈ G, (s.out.get? p).isSome
  mem_seen_iff : ∀ l, l ∈ s.seen ↔ l ∈ s.table.visitOrder
  coherent : Coherent G s.table

variable {G : Graph ι} {s t u : State ι Op Var} {l : Label} {waiting ls : List Label}

omit [Instruction ι Op Var] [DecidableEq Op] [DecidableEq Var] in
theorem handsOn_start (G : Graph ι) (l : Label) :
    (start G : State ι Op Var).handsOn l = .bottom := by
  rw [State.handsOn, start, LabelMap.get?_constant]
  split <;> rfl

theorem valid_start (G : Graph ι) : Valid G (start G : State ι Op Var) where
  known := by
    intro p hp
    have hlabel : p ∈ G.labels := hp
    rw [start, LabelMap.get?_constant, if_pos hlabel]
    rfl
  mem_seen_iff := by simp [start, FactTable.empty]
  coherent := coherent_empty G

/-- Which blocks are waiting is of no concern. -/
theorem Valid.of_waiting (h : Valid G s) (waiting : List Label) :
    Valid G { s with waiting } :=
  ⟨h.known, h.mem_seen_iff, h.coherent⟩

/-! ### One visit -/

/-- The state after a visit to `l`. -/
def afterVisit (G : Graph ι) (s : State ι Op Var) (l : Label) : State ι Op Var where
  table := s.table.record l (chain (joinInto G s.handsOn l) (G.codeOf l))
  out := if s.handsOn l = passOn G s.handsOn l then s.out
    else s.out.set l (passOn G s.handsOn l)
  seen := s.seen.insert l
  waiting := if s.handsOn l = passOn G s.handsOn l then s.waiting
    else (G.successorsOf l).foldl await s.waiting

theorem Valid.factInto_eq (h : Valid G s) (hl : l ∈ G) :
    factInto G s.handsOn? l = .ok (joinInto G s.handsOn l) := by
  refine factInto_eq_ok hl fun p hp => ?_
  obtain ⟨f, hf⟩ := Option.isSome_iff_exists.1 (h.known p hp.source_mem)
  rw [State.handsOn?, State.handsOn, hf]
  rfl

/-- Computing a block again gives what computing it for the first time gives. -/
theorem Valid.computeBlock_eq (h : Valid G s) (hl : l ∈ G) (f : Fact (AvailExpr Op Var)) :
    computeBlock G s l f =
      .ok (s.table.record l (chain f (G.codeOf l)), transferAll (G.codeOf l) f) := by
  rw [computeBlock]
  by_cases hv : l ∈ s.table.visitOrder
  · rw [if_pos ((h.mem_seen_iff l).2 hv), h.coherent.refresh_facts hv,
      ← s.table.replace_eq_record hv, ← handedOn_chain]
    rfl
  · rw [if_neg (mt (h.mem_seen_iff l).1 hv), Graph.block_eq_ok hl, ← h.coherent.enter_eq hv,
      ← handedOn_chain]
    rfl

theorem Valid.visit_eq (h : Valid G s) (hl : l ∈ G) : visit G s l = .ok (afterVisit G s l) := by
  have hnew : (transferAll (G.codeOf l) (joinInto G s.handsOn l)).settle = passOn G s.handsOn l :=
    rfl
  rw [visit, h.factInto_eq hl]
  simp only [bind, Except.bind, h.computeBlock_eq hl, hnew, Graph.successors_eq_ok hl]
  by_cases hout : s.handsOn l = passOn G s.handsOn l
  · rw [if_pos hout, afterVisit, if_pos hout, if_pos hout]
    rfl
  · rw [if_neg hout, afterVisit, if_neg hout, if_neg hout]
    rfl

/-- A visit succeeds on the blocks of the graph only. -/
theorem Valid.visit_eq_ok_iff (h : Valid G s) :
    visit G s l = .ok t ↔ l ∈ G ∧ t = afterVisit G s l := by
  constructor
  · intro hok
    by_cases hl : l ∈ G
    · rw [h.visit_eq hl] at hok
      exact ⟨hl, (Except.ok.inj hok).symm⟩
    · rw [visit, factInto, Graph.predecessors_eq_error hl] at hok
      cases hok
  · rintro ⟨hl, rfl⟩
    exact h.visit_eq hl

/-- A visit changes what one block hands on. -/
theorem handsOn_afterVisit :
    (afterVisit G s l).handsOn = Function.update s.handsOn l (passOn G s.handsOn l) := by
  funext k
  rw [State.handsOn, afterVisit]
  by_cases h : s.handsOn l = passOn G s.handsOn l
  · rw [if_pos h, ← h, Function.update_eq_self]
    rfl
  · rw [if_neg h, LabelMap.get?_set]
    rcases eq_or_ne k l with rfl | hk
    · rw [if_pos rfl, Function.update_self]
      rfl
    · rw [if_neg hk, Function.update_of_ne hk]
      rfl

theorem mem_visitOrder_afterVisit {x : Label} :
    x ∈ (afterVisit G s l).table.visitOrder ↔ x ∈ s.table.visitOrder ∨ x = l :=
  s.table.mem_visitOrder_record

theorem valid_afterVisit (h : Valid G s) (l : Label) : Valid G (afterVisit G s l) where
  known := by
    intro p hp
    rw [afterVisit]
    split
    · exact h.known p hp
    · rw [LabelMap.get?_set]
      split
      · rfl
      · exact h.known p hp
  mem_seen_iff := by
    intro x
    rw [mem_visitOrder_afterVisit, ← h.mem_seen_iff, or_comm]
    exact ItemSet.mem_insert
  coherent := h.coherent.record l _

/-- The blocks that a visit puts in front are successors, none if the block hands on what it did
    before. What comes into a block that waits neither before nor after the visit is the same. -/
theorem exists_waiting_afterVisit (G : Graph ι) (s : State ι Op Var) (l : Label) :
    ∃ more, (afterVisit G s l).waiting = more ++ s.waiting ∧
      (∀ x ∈ more, G.Edge l x ∧ x ∉ s.waiting) ∧
      (s.handsOn l = passOn G s.handsOn l → more = []) ∧
      ∀ x ∈ G, x ∉ more ++ s.waiting →
        joinInto G (afterVisit G s l).handsOn x = joinInto G s.handsOn x := by
  by_cases hout : s.handsOn l = passOn G s.handsOn l
  · refine ⟨[], if_pos hout, by simp, fun _ => rfl, fun x _ _ => ?_⟩
    rw [handsOn_afterVisit, ← hout, Function.update_eq_self]
  · obtain ⟨more, heq, hnew, hall⟩ := foldl_await (G.successorsOf l) s.waiting
    refine ⟨more, (if_neg hout).trans heq, fun x hx => ?_, fun h => absurd h hout, ?_⟩
    · exact ⟨Graph.mem_successorsOf.1 (hnew x hx).1, (hnew x hx).2⟩
    · intro x hx hxm
      refine joinInto_congr hx fun p hp => ?_
      rw [handsOn_afterVisit, Function.update_of_ne]
      rintro rfl
      exact hxm (hall x (Graph.mem_successorsOf.2 hp))

/-! ### Runs -/

/-- A run from `s` to `t` that visits the blocks `ls`, each of them next in line. -/
inductive Visits (G : Graph ι) : State ι Op Var → List Label → State ι Op Var → Prop where
  | done (s : State ι Op Var) : Visits G s [] s
  | visit {s t u : State ι Op Var} {l : Label} {waiting ls : List Label}
      (next : s.waiting = l :: waiting) (step : visit G { s with waiting } l = .ok t)
      (rest : Visits G t ls u) : Visits G s (l :: ls) u

/-- The first visit of a run from a valid state, and what is left of the run. -/
theorem Valid.of_step (hs : Valid G s) (step : visit G { s with waiting } l = .ok t) :
    l ∈ G ∧ t = afterVisit G { s with waiting } l ∧ Valid G t := by
  obtain ⟨hl, rfl⟩ := (hs.of_waiting waiting).visit_eq_ok_iff.1 step
  exact ⟨hl, rfl, valid_afterVisit (hs.of_waiting waiting) l⟩

/-- A run counts its visits. -/
theorem Visits.visits_eq (h : Visits G s ls t) (hs : Valid G s) :
    t.table.visits = s.table.visits + ls.length := by
  induction h with
  | done s => rfl
  | visit _ step _ ih =>
    obtain ⟨-, rfl, hs'⟩ := hs.of_step step
    rw [ih hs', List.length_cons, Nat.add_comm _ 1, ← Nat.add_assoc]
    rfl

theorem visits_append_iff {ls ls' : List Label} :
    Visits G s (ls ++ ls') u ↔ ∃ t, Visits G s ls t ∧ Visits G t ls' u := by
  constructor
  · intro h
    induction ls generalizing s with
    | nil => exact ⟨s, .done s, h⟩
    | cons l ls ih =>
      cases h with
      | visit next step rest =>
        obtain ⟨t, h₁, h₂⟩ := ih rest
        exact ⟨t, .visit next step h₁, h₂⟩
  · rintro ⟨t, h₁, h₂⟩
    induction h₁ with
    | done s => exact h₂
    | visit next step _ ih => exact .visit next step (ih h₂)

theorem run_of_waiting_eq_nil (h : s.waiting = []) (budget : Nat) :
    run G budget s = .ok s.table := by
  unfold run
  rw [h]

theorem run_zero (h : s.waiting = l :: waiting) :
    run G 0 s = .error (.convergenceTimeout G.entry l s.table.visits) := by
  unfold run
  rw [h]

theorem run_succ (h : s.waiting = l :: waiting) (budget : Nat) :
    run G (budget + 1) s = (visit G { s with waiting } l).bind (run G budget) := by
  rw [run.eq_def, h]
  rfl

/-- A run that comes to an end within its budget gives its table. -/
theorem Visits.run_eq_ok (h : Visits G s ls t) (ht : t.waiting = []) {budget : Nat}
    (hb : ls.length ≤ budget) : run G budget s = .ok t.table := by
  induction h generalizing budget with
  | done s => exact run_of_waiting_eq_nil ht budget
  | visit next step _ ih =>
    obtain ⟨budget, rfl⟩ := Nat.exists_eq_add_of_le' (Nat.one_le_of_lt hb)
    rw [run_succ next, step]
    exact ih ht (Nat.le_of_succ_le_succ hb)

/-- A run with more visits than its budget is cut off before the first of those left over. -/
theorem Visits.run_eq_error (h : Visits G s ls t) (hs : Valid G s) {budget : Nat}
    (hb : budget < ls.length) :
    ∃ l, ls[budget]? = some l ∧
      run G budget s = .error (.convergenceTimeout G.entry l (s.table.visits + budget)) := by
  induction h generalizing budget with
  | done s => exact absurd hb (Nat.not_lt_zero budget)
  | visit next step _ ih =>
    cases budget with
    | zero => exact ⟨_, rfl, run_zero next⟩
    | succ budget =>
      obtain ⟨-, rfl, hs'⟩ := hs.of_step step
      obtain ⟨l, hl, hrun⟩ := ih hs' (Nat.lt_of_succ_lt_succ hb)
      refine ⟨l, hl, ?_⟩
      rw [run_succ next, step, Nat.add_comm budget 1, ← Nat.add_assoc]
      exact hrun

/-- A run that gives a table has visited blocks until none was waiting. -/
theorem exists_visits_of_run_eq_ok {budget : Nat} {table : FactTable ι Op Var}
    (h : run G budget s = .ok table) :
    ∃ ls t, Visits G s ls t ∧ t.waiting = [] ∧ t.table = table := by
  induction budget generalizing s with
  | zero =>
    cases hw : s.waiting with
    | nil =>
      rw [run_of_waiting_eq_nil hw] at h
      exact ⟨[], s, .done s, hw, Except.ok.inj h⟩
    | cons l waiting =>
      rw [run_zero hw] at h
      cases h
  | succ budget ih =>
    cases hw : s.waiting with
    | nil =>
      rw [run_of_waiting_eq_nil hw] at h
      exact ⟨[], s, .done s, hw, Except.ok.inj h⟩
    | cons l waiting =>
      rw [run_succ hw] at h
      cases hv : visit G { s with waiting } l with
      | error e =>
        rw [hv] at h
        cases h
      | ok u =>
        rw [hv] at h
        obtain ⟨ls, t, hvis, ht⟩ := ih h
        exact ⟨l :: ls, t, .visit hw hv hvis, ht⟩

end Availability.Worklist
