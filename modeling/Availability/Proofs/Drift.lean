import Mathlib.Data.Finset.Card
import Mathlib.Data.Finset.Prod
import Mathlib.Logic.Function.Basic
import Mathlib.Tactic.Tauto
import Availability.Proofs.Join

/-! Why facts come to rest after a block has handed on its first fact.

    A first fact can make the blocks behind it gain expressions as well as lose them, so facts do
    not simply shrink. What they do is approach: wherever a block gives the same answer as the first
    fact, it goes on doing so, whichever block is computed anew. There are finitely many questions,
    those about the expressions that the graph computes, so the answers that still differ can be
    counted, and every change leaves fewer of them. -/

namespace Availability

variable {ι Op Var : Type}

/-- Wherever `f` gives the same answer as `goal`, so does `g`. -/
def Fact.Approaches {α : Type} (goal f g : Fact α) : Prop :=
  ∀ q, (f.Says q ↔ goal.Says q) → (g.Says q ↔ goal.Says q)

theorem Fact.Approaches.trans {α : Type} {goal f g h : Fact α} (hfg : goal.Approaches f g)
    (hgh : goal.Approaches g h) : goal.Approaches f h :=
  fun q hq => hgh q (hfg q hq)

/-- To approach `goal` is to gain what it says and to lose what it does not. -/
theorem Fact.approaches_iff {α : Type} {goal f g : Fact α} :
    goal.Approaches f g ↔
      ∀ q, (goal.Says q → f.Says q → g.Says q) ∧ (¬ goal.Says q → g.Says q → f.Says q) := by
  refine forall_congr' fun q => ?_
  by_cases hq : goal.Says q
  · simp [hq]
  · simp [hq, not_imp_not]

variable [DecidableEq Op] [DecidableEq Var] [Instruction ι Op Var]
variable {G : Graph ι} {goal : Fact (AvailExpr Op Var)}
variable {out out' : Label → Fact (AvailExpr Op Var)} {l : Label}

/-! ### Approaching -/

/-- A block hands on an approach, as long as the same blocks have handed on something. -/
theorem approaches_passOn (hl : l ∈ G) (hbot : ∀ p, out p = .bottom ↔ out' p = .bottom)
    (h : ∀ p, goal.Approaches (out p) (out' p)) :
    goal.Approaches (passOn G out l) (passOn G out' l) := by
  refine Fact.approaches_iff.2 fun q => ⟨fun hq => ?_, fun hq => ?_⟩
  · refine says_passOn_mono (says_joinInto_mono hl (fun p => (hbot p).2) fun p hp hs => ?_)
    exact (Fact.approaches_iff.1 (h p) q).1 hq (hs (mt (hbot p).1 hp))
  · refine says_passOn_mono (says_joinInto_mono hl (fun p => (hbot p).1) fun p hp hs => ?_)
    exact (Fact.approaches_iff.1 (h p) q).2 hq (hs (mt (hbot p).2 hp))

/-- Every block that has handed on something approaches `goal` when it is computed anew. -/
def Drifting (G : Graph ι) (goal : Fact (AvailExpr Op Var))
    (out : Label → Fact (AvailExpr Op Var)) : Prop :=
  ∀ l ∈ G, out l ≠ .bottom → goal.Approaches (out l) (passOn G out l)

/-- Where all that has been handed on is settled, a block that hands on its first fact makes all
    blocks drift towards that fact. -/
theorem drifting_of_bottom (hs : ∀ p ∈ G, out p ≠ .bottom → out p = passOn G out p)
    (hl : out l = .bottom) :
    Drifting G (passOn G out l) (Function.update out l (passOn G out l)) := by
  intro p hp hne
  have hold : Function.update out l (passOn G out l) p = passOn G out p := by
    rcases eq_or_ne p l with rfl | hpl
    · rw [Function.update_self]
    · rw [Function.update_of_ne hpl] at hne ⊢
      exact hs p hp hne
  rw [hold]
  refine Fact.approaches_iff.2 fun q => ⟨fun hq => ?_, fun hq => says_passOn_mono fun hj => ?_⟩
  · refine says_passOn_mono (says_joinInto_mono hp (fun k hk => ?_) fun k hk hs => ?_)
    · rcases eq_or_ne k l with rfl | hkl
      · exact hl
      · rwa [Function.update_of_ne hkl] at hk
    · rcases eq_or_ne k l with rfl | hkl
      · rwa [Function.update_self]
      · rw [Function.update_of_ne hkl] at hk ⊢
        exact hs hk
  · -- the join speaks for the new fact only if there is no edge from `l`
    have hno : ¬ G.Edge l p := by
      intro hlp
      have hnew := says_of_says_joinInto hj hlp
      rw [Function.update_self] at hnew
      exact hq (hnew (passOn_ne_bottom G out l))
    have hsame : joinInto G (Function.update out l (passOn G out l)) p = joinInto G out p := by
      refine joinInto_congr hp fun k hk => Function.update_of_ne ?_ _ _
      rintro rfl
      exact hno hk
    rwa [hsame] at hj

/-- Computing a block anew keeps the drift going. -/
theorem Drifting.update (h : Drifting G goal out) (hl : l ∈ G) (hne : out l ≠ .bottom) :
    Drifting G goal (Function.update out l (passOn G out l)) := by
  have hbot : ∀ p, out p = .bottom ↔ Function.update out l (passOn G out l) p = .bottom := by
    intro p
    rcases eq_or_ne p l with rfl | hpl
    · simp [hne, passOn_ne_bottom]
    · rw [Function.update_of_ne hpl]
  have hnear : ∀ p, goal.Approaches (out p) (Function.update out l (passOn G out l) p) := by
    intro p
    rcases eq_or_ne p l with rfl | hpl
    · rw [Function.update_self]
      exact h p hl hne
    · rw [Function.update_of_ne hpl]
      exact fun q hq => hq
  intro p hp hpne
  have hpass := approaches_passOn hp hbot hnear
  rcases eq_or_ne p l with rfl | hpl
  · rwa [Function.update_self]
  · rw [Function.update_of_ne hpl]
    exact (h p hp (mt (hbot p).1 hpne)).trans hpass

/-! ### The questions there are -/

/-- The expression that an instruction computes, held in the variable that it defines. -/
def computes? (i : ι) : Option (AvailExpr Op Var) :=
  (Instruction.defines i).bind fun v => (Instruction.effect i).heldIn? v

omit [DecidableEq Op] [DecidableEq Var] in
theorem Generates.computes?_eq {i : ι} {e : AvailExpr Op Var} (h : Generates i e) :
    computes? i = some e := by
  obtain ⟨v, hv, he, -⟩ := generates_iff.1 h
  rw [computes?, hv]
  exact he

/-- All that the instructions of a graph compute. -/
def Graph.computed (G : Graph ι) : List (AvailExpr Op Var) :=
  G.blocks.flatMap fun b => b.code.filterMap computes?

omit [DecidableEq Op] [DecidableEq Var] in
theorem Leaves.mem_computed {e : AvailExpr Op Var} (h : Leaves (G.codeOf l) e) :
    e ∈ G.computed := by
  obtain ⟨earlier, i, later, hcode, hg, -⟩ := h
  have hi : i ∈ G.codeOf l := by
    rw [hcode]
    exact List.mem_append_right _ List.mem_cons_self
  rw [Graph.codeOf] at hi
  cases hb : G.block? l with
  | none =>
    rw [hb] at hi
    exact absurd hi List.not_mem_nil
  | some b =>
    rw [hb] at hi
    refine List.mem_flatMap.2 ⟨b, (Graph.block?_eq_some_iff.1 hb).1, ?_⟩
    exact List.mem_filterMap.2 ⟨i, hi, hg.computes?_eq⟩

/-- Blocks hand on nothing that the graph does not compute. -/
def OnlyComputed (G : Graph ι) (out : Label → Fact (AvailExpr Op Var)) : Prop :=
  ∀ l e, e ∈ out l → e ∈ G.computed

theorem OnlyComputed.mem_of_mem_passOn (h : OnlyComputed G out) (hl : l ∈ G)
    {e : AvailExpr Op Var} (he : e ∈ passOn G out l) : e ∈ G.computed := by
  rcases mem_passOn.1 he with hleaves | ⟨hj, -⟩
  · exact hleaves.mem_computed
  · obtain ⟨p, -, hp⟩ := exists_mem_of_mem_joinInto hl hj
    exact h p e hp

theorem OnlyComputed.update (h : OnlyComputed G out) (hl : l ∈ G) :
    OnlyComputed G (Function.update out l (passOn G out l)) := by
  intro p e he
  rcases eq_or_ne p l with rfl | hpl
  · rw [Function.update_self] at he
    exact h.mem_of_mem_passOn hl he
  · rw [Function.update_of_ne hpl] at he
    exact h p e he

/-! ### The answers that still differ -/

/-- The blocks and the questions on which they do not agree with `goal`. -/
def disagreements (G : Graph ι) (goal : Fact (AvailExpr Op Var))
    (out : Label → Fact (AvailExpr Op Var)) : Finset (Label × Option (AvailExpr Op Var)) :=
  (G.labels.toFinset ×ˢ insert none (G.computed.toFinset.image some)).filter fun a =>
    ¬ ((out a.1).Says a.2 ↔ goal.Says a.2)

theorem mem_disagreements {q : Option (AvailExpr Op Var)} :
    (l, q) ∈ disagreements G goal out ↔
      l ∈ G ∧ (∀ e, q = some e → e ∈ G.computed) ∧ ¬ ((out l).Says q ↔ goal.Says q) := by
  have hq : q ∈ insert none ((G.computed : List (AvailExpr Op Var)).toFinset.image some) ↔
      ∀ e, q = some e → e ∈ G.computed := by
    cases q <;> simp
  rw [disagreements, Finset.mem_filter, Finset.mem_product, List.mem_toFinset, hq, and_assoc]
  rfl

/-- In a drift, a block that changes what it hands on leaves fewer disagreements. -/
theorem Drifting.card_disagreements_lt (h : Drifting G goal out) (hc : OnlyComputed G out)
    (hl : l ∈ G) (hne : out l ≠ .bottom) (hchange : out l ≠ passOn G out l) :
    (disagreements G goal (Function.update out l (passOn G out l))).card <
      (disagreements G goal out).card := by
  have hsub : disagreements G goal (Function.update out l (passOn G out l)) ⊆
      disagreements G goal out := by
    rintro ⟨p, q⟩ hpq
    obtain ⟨hp, hq, hdiff⟩ := mem_disagreements.1 hpq
    refine mem_disagreements.2 ⟨hp, hq, fun hagree => hdiff ?_⟩
    rcases eq_or_ne p l with rfl | hpl
    · rw [Function.update_self]
      exact h p hp hne q hagree
    · rwa [Function.update_of_ne hpl]
  obtain ⟨q, hq⟩ : ∃ q, ¬ ((out l).Says q ↔ (passOn G out l).Says q) := by
    by_contra hall
    exact hchange (Fact.eq_of_says_iff hne (passOn_ne_bottom G out l) (not_exists_not.1 hall))
  have hcomputed : ∀ e, q = some e → e ∈ G.computed := by
    rintro e rfl
    by_contra he
    refine hq (iff_of_false (fun hout => he (hc l e hout)) fun hpass => ?_)
    exact he (hc.mem_of_mem_passOn hl hpass)
  -- of two answers that differ one is that of `goal`, and it is the later one
  have hbefore : ¬ ((out l).Says q ↔ goal.Says q) := fun hagree =>
    hq (hagree.trans (h l hl hne q hagree).symm)
  have hafter : (passOn G out l).Says q ↔ goal.Says q := by
    tauto
  refine Finset.card_lt_card ((Finset.ssubset_iff_of_subset hsub).2 ⟨(l, q), ?_, ?_⟩)
  · exact mem_disagreements.2 ⟨hl, hcomputed, hbefore⟩
  · intro hmem
    have hdiff := (mem_disagreements.1 hmem).2.2
    rw [Function.update_self] at hdiff
    exact hdiff hafter

end Availability
