import Mathlib.Data.Finset.Option
import Availability.Proofs.Drift

/-! Why facts only shrink where blocks are visited after one of their predecessors.

    A block that something comes into says less each time it is computed anew: its predecessors say
    less than before, or one more of them has a say. The questions it can say yes to are those about
    the expressions that the graph generates, and whether it is anything but `top`. So the number of
    times that a block can still change what it hands on is known at every moment, and every change
    uses up one of them. -/

namespace Availability

variable {ι Op Var : Type} [Instruction ι Op Var]

/-! ### What a graph generates -/

theorem Generates.not_reads_holder {i : ι} {e : AvailExpr Op Var} (h : Generates i e) :
    ¬ e.expr.Reads e.holder := by
  obtain ⟨v, x, -, hx, ⟨-, rfl⟩ | ⟨-, rfl⟩⟩ := h
  · exact hx
  · exact hx

theorem Effect.holder_of_heldIn? {eff : Effect Op Var} {v : Var} {e : AvailExpr Op Var}
    (h : eff.heldIn? v = some e) : e.holder = v := by
  cases eff with
  | pure x =>
    cases h
    rfl
  | load x =>
    cases h
    rfl
  | store => cases h
  | unknown => cases h
  | other => cases h

variable [DecidableEq Op] [DecidableEq Var]

/-- The expressions that the instructions of a graph generate. An expression that reads the variable
    it is put into is computed but not generated. -/
def Graph.generated (G : Graph ι) : Finset (AvailExpr Op Var) :=
  G.computed.toFinset.filter fun e => ¬ e.expr.Reads e.holder

variable {G : Graph ι} {out out' : Label → Fact (AvailExpr Op Var)} {l : Label}

theorem Graph.mem_generated {e : AvailExpr Op Var} :
    e ∈ G.generated ↔ ∃ b ∈ G.blocks, ∃ i ∈ b.code, Generates i e := by
  rw [generated, Finset.mem_filter, List.mem_toFinset, computed, List.mem_flatMap]
  constructor
  · rintro ⟨⟨b, hb, he⟩, hr⟩
    obtain ⟨i, hi, hc⟩ := List.mem_filterMap.1 he
    obtain ⟨v, hv, hh⟩ := Option.bind_eq_some_iff.1 hc
    rw [Effect.holder_of_heldIn? hh] at hr
    exact ⟨b, hb, i, hi, generates_iff.2 ⟨v, hv, hh, hr⟩⟩
  · rintro ⟨b, hb, i, hi, hg⟩
    exact ⟨⟨b, hb, List.mem_filterMap.2 ⟨i, hi, hg.computes?_eq⟩⟩, hg.not_reads_holder⟩

theorem Leaves.mem_generated {e : AvailExpr Op Var} (h : Leaves (G.codeOf l) e) :
    e ∈ G.generated := by
  have hc := h.mem_computed
  obtain ⟨_, _, _, _, hg, _⟩ := h
  exact Finset.mem_filter.2 ⟨List.mem_toFinset.2 hc, hg.not_reads_holder⟩

/-! ### Shrinking -/

/-- Computing a block anew can only take away from what it hands on, whichever block it is. -/
structure Descending (G : Graph ι) (out : Label → Fact (AvailExpr Op Var)) : Prop where
  fed : ∀ l ∈ G, out l ≠ .bottom → Fed G out l
  shrinks : ∀ l ∈ G, out l ≠ .bottom → ∀ q, (passOn G out l).Says q → (out l).Says q
  generated : ∀ l e, e ∈ out l → e ∈ G.generated

/-- Nothing has been handed on yet. -/
theorem descending_bottom (h : ∀ l, out l = .bottom) : Descending G out where
  fed := fun l _ hne => absurd (h l) hne
  shrinks := fun l _ hne => absurd (h l) hne
  generated := fun l e he => absurd (h l ▸ he) (Fact.not_mem_bottom e)

theorem Descending.mem_generated_of_mem_passOn (h : Descending G out) (hl : l ∈ G)
    {e : AvailExpr Op Var} (he : e ∈ passOn G out l) : e ∈ G.generated := by
  rcases mem_passOn.1 he with hleaves | ⟨hj, -⟩
  · exact hleaves.mem_generated
  · obtain ⟨p, -, hp⟩ := exists_mem_of_mem_joinInto hl hj
    exact h.generated p e hp

/-- Computing a block that something can come into, be it anew or for the first time, keeps all
    blocks shrinking. -/
theorem Descending.update (h : Descending G out) (hl : l ∈ G) (hfed : Fed G out l) :
    Descending G (Function.update out l (passOn G out l)) := by
  have hless : ∀ q p, out p ≠ .bottom → Function.update out l (passOn G out l) p ≠ .bottom ∧
      ((Function.update out l (passOn G out l) p).Says q → (out p).Says q) := by
    intro q p hp
    rcases eq_or_ne p l with rfl | hpl
    · rw [Function.update_self]
      exact ⟨passOn_ne_bottom G out p, h.shrinks p hl hp q⟩
    · rw [Function.update_of_ne hpl]
      exact ⟨hp, fun hq => hq⟩
  have hfed' : ∀ p ∈ G, Function.update out l (passOn G out l) p ≠ .bottom → Fed G out p := by
    intro p hp hne
    rcases eq_or_ne p l with rfl | hpl
    · exact hfed
    · rw [Function.update_of_ne hpl] at hne
      exact h.fed p hp hne
  constructor
  · intro p hp hne
    exact (hfed' p hp hne).mono fun k hk => (hless none k hk).1
  · intro p hp hne q hq
    have hpass : (passOn G out p).Says q :=
      says_passOn_mono ((hfed' p hp hne).says_joinInto hp (hless q)) hq
    rcases eq_or_ne p l with rfl | hpl
    · rwa [Function.update_self]
    · rw [Function.update_of_ne hpl] at hne ⊢
      exact h.shrinks p hp hne q hpass
  · intro p e he
    rcases eq_or_ne p l with rfl | hpl
    · rw [Function.update_self] at he
      exact h.mem_generated_of_mem_passOn hl he
    · rw [Function.update_of_ne hpl] at he
      exact h.generated p e he

/-! ### How often a block can change -/

/-- The questions that `f` says yes to, among those about what the graph generates. -/
def answers (G : Graph ι) (f : Fact (AvailExpr Op Var)) : Finset (Option (AvailExpr Op Var)) :=
  G.generated.insertNone.filter fun q => f.Says q

/-- How often a block that hands on `f` can still change it: once for the first fact, and once for
    each question that it says yes to. -/
def credit (G : Graph ι) (f : Fact (AvailExpr Op Var)) : Nat :=
  if f = .bottom then (G.generated : Finset (AvailExpr Op Var)).card + 2 else (answers G f).card

theorem credit_bottom :
    credit G (.bottom : Fact (AvailExpr Op Var)) =
      (G.generated : Finset (AvailExpr Op Var)).card + 2 :=
  if_pos rfl

theorem credit_of_ne_bottom {f : Fact (AvailExpr Op Var)} (h : f ≠ .bottom) :
    credit G f = (answers G f).card :=
  if_neg h

theorem credit_le {f : Fact (AvailExpr Op Var)} (h : f ≠ .bottom) :
    credit G f ≤ (G.generated : Finset (AvailExpr Op Var)).card + 1 := by
  rw [credit_of_ne_bottom h, ← Finset.card_insertNone]
  exact Finset.card_filter_le _ _

/-- A value can be changed into `top` in the end. -/
theorem credit_value_pos (s : ItemSet (AvailExpr Op Var)) : 0 < credit G (.value s) := by
  rw [credit_of_ne_bottom (by simp), Finset.card_pos]
  exact ⟨none, by simp [answers]⟩

/-- Every change uses up some of the credit. -/
theorem Descending.credit_lt (h : Descending G out) (hl : l ∈ G)
    (hchange : out l ≠ passOn G out l) : credit G (passOn G out l) < credit G (out l) := by
  have hnew := passOn_ne_bottom G out l
  by_cases hb : out l = .bottom
  · rw [hb, credit_bottom]
    exact Nat.lt_succ_of_le (credit_le hnew)
  · have hsub : answers G (passOn G out l) ⊆ answers G (out l) := by
      intro q hq
      obtain ⟨hgen, hsays⟩ := Finset.mem_filter.1 hq
      exact Finset.mem_filter.2 ⟨hgen, h.shrinks l hl hb q hsays⟩
    obtain ⟨q, hq⟩ : ∃ q, ¬ ((out l).Says q ↔ (passOn G out l).Says q) := by
      by_contra hall
      exact hchange (Fact.eq_of_says_iff hb hnew (not_exists_not.1 hall))
    have hold : (out l).Says q := by
      by_contra hno
      exact hq (iff_of_false hno fun hsays => hno (h.shrinks l hl hb q hsays))
    have hgen : q ∈ (G.generated : Finset (AvailExpr Op Var)).insertNone := by
      cases q with
      | none => exact Finset.none_mem_insertNone
      | some e => exact Finset.some_mem_insertNone.2 (h.generated l e hold)
    rw [credit_of_ne_bottom hb, credit_of_ne_bottom hnew]
    refine Finset.card_lt_card ((Finset.ssubset_iff_of_subset hsub).2
      ⟨q, Finset.mem_filter.2 ⟨hgen, hold⟩, fun hmem => ?_⟩)
    exact hq (iff_of_true hold (Finset.mem_filter.1 hmem).2)

end Availability
