import Availability.Fact
import Availability.Instruction

/-! How one instruction, and then a whole block, changes what is available.

    An instruction that writes memory drops every expression read from memory. One that defines a
    variable then drops every expression that depends on the variable and adds its own, unless its
    own reads the variable it has just overwritten. `Kills` and `Generates` say the same per
    expression, and `mem_transfer` ties the two together. -/

namespace Availability

variable {ι Op Var : Type} [Instruction ι Op Var]

open Instruction

/-- The instruction leaves the value of `e`'s expression in `e`'s holder. -/
def Generates (i : ι) (e : AvailExpr Op Var) : Prop :=
  ∃ v x, defines i = some v ∧ ¬ x.Reads v ∧
    ((effect i = .pure x ∧ e = ⟨x, v, false⟩) ∨ (effect i = .load x ∧ e = ⟨x, v, true⟩))

/-- The instruction may make `e` stale: it may change memory that `e` was read from, or it defines
    a variable that `e` depends on. -/
def Kills (i : ι) (e : AvailExpr Op Var) : Prop :=
  ((effect i = .store ∨ effect i = .unknown) ∧ e.readsMemory = true) ∨
    ∃ v, defines i = some v ∧ e.DependsOn v

variable [DecidableEq Op] [DecidableEq Var]

/-- What a write to memory leaves available, if the effect makes one. -/
def afterWrite (eff : Effect Op Var) (s : ItemSet (AvailExpr Op Var)) :
    ItemSet (AvailExpr Op Var) :=
  if eff.writesMemory then s.filter (fun e => !e.readsMemory) else s

/-- What a definition of `v` leaves and makes available. -/
def afterDefinition (eff : Effect Op Var) (v : Var) (s : ItemSet (AvailExpr Op Var)) :
    ItemSet (AvailExpr Op Var) :=
  let kept := s.filter (fun e => decide (¬ e.DependsOn v))
  match eff.heldIn? v with
  | some e => if e.expr.Reads v then kept else kept.insert e
  | none => kept

/-- The fact after `i`, given the fact before it. The result is always a value: a fact without
    items, `bottom` included, starts from the empty set. -/
def transfer (i : ι) (f : Fact (AvailExpr Op Var)) : Fact (AvailExpr Op Var) :=
  let kept := afterWrite (effect i) f.items
  .value <| match defines i with
    | some v => afterDefinition (effect i) v kept
    | none => kept

/-- The fact after a whole list of instructions. -/
def transferAll (code : List ι) (f : Fact (AvailExpr Op Var)) : Fact (AvailExpr Op Var) :=
  code.foldl (fun g i => transfer i g) f

@[simp] theorem transferAll_nil (f : Fact (AvailExpr Op Var)) :
    transferAll ([] : List ι) f = f := rfl

@[simp] theorem transferAll_cons (i : ι) (code : List ι) (f : Fact (AvailExpr Op Var)) :
    transferAll (i :: code) f = transferAll code (transfer i f) := rfl

/-! ### One expression at a time -/

omit [DecidableEq Op] [DecidableEq Var] in
theorem mem_afterWrite {i : ι} {s : ItemSet (AvailExpr Op Var)} {e : AvailExpr Op Var} :
    e ∈ afterWrite (effect i) s ↔
      e ∈ s ∧ ¬ ((effect i = .store ∨ effect i = .unknown) ∧ e.readsMemory = true) := by
  cases h : effect i <;> simp [afterWrite, Effect.writesMemory]

theorem mem_afterDefinition {eff : Effect Op Var} {v : Var} {s : ItemSet (AvailExpr Op Var)}
    {e : AvailExpr Op Var} :
    e ∈ afterDefinition eff v s ↔
      (eff.heldIn? v = some e ∧ ¬ e.expr.Reads v) ∨ (e ∈ s ∧ ¬ e.DependsOn v) := by
  unfold afterDefinition
  cases h : eff.heldIn? v with
  | none => simp
  | some g =>
    by_cases hg : g.expr.Reads v
    · simp only [hg, if_true, ItemSet.mem_filter, decide_eq_true_eq, Option.some.injEq]
      constructor
      · exact Or.inr
      · rintro (⟨rfl, hne⟩ | h)
        · exact absurd hg hne
        · exact h
    · simp only [hg, if_false, ItemSet.mem_insert, ItemSet.mem_filter, decide_eq_true_eq,
        Option.some.injEq]
      constructor
      · rintro (rfl | h)
        · exact Or.inl ⟨rfl, hg⟩
        · exact Or.inr h
      · rintro (⟨rfl, _⟩ | h)
        · exact Or.inl rfl
        · exact Or.inr h

omit [DecidableEq Op] [DecidableEq Var] in
theorem generates_iff {i : ι} {e : AvailExpr Op Var} :
    Generates i e ↔
      ∃ v, defines i = some v ∧ (effect i).heldIn? v = some e ∧ ¬ e.expr.Reads v := by
  constructor
  · rintro ⟨v, x, hv, hx, ⟨he, rfl⟩ | ⟨he, rfl⟩⟩
    · exact ⟨v, hv, by simp [he, Effect.heldIn?], hx⟩
    · exact ⟨v, hv, by simp [he, Effect.heldIn?], hx⟩
  · rintro ⟨v, hv, he, hx⟩
    cases h : effect i with
    | pure x =>
      simp only [h, Effect.heldIn?, Option.some.injEq] at he
      subst he
      exact ⟨v, x, hv, hx, Or.inl ⟨h, rfl⟩⟩
    | load x =>
      simp only [h, Effect.heldIn?, Option.some.injEq] at he
      subst he
      exact ⟨v, x, hv, hx, Or.inr ⟨h, rfl⟩⟩
    | store => simp [h, Effect.heldIn?] at he
    | unknown => simp [h, Effect.heldIn?] at he
    | other => simp [h, Effect.heldIn?] at he

/-- After an instruction `e` is available when the instruction generates it, or when it was
    available before and the instruction does not kill it. -/
theorem mem_transfer {i : ι} {f : Fact (AvailExpr Op Var)} {e : AvailExpr Op Var} :
    e ∈ transfer i f ↔ Generates i e ∨ (e ∈ f ∧ ¬ Kills i e) := by
  rw [generates_iff, Kills, transfer]
  cases h : defines i with
  | none => simp [mem_afterWrite]
  | some v =>
    simp only [Fact.mem_value, mem_afterDefinition, mem_afterWrite, Fact.mem_items,
      Option.some.injEq]
    constructor
    · rintro (⟨he, hr⟩ | ⟨⟨hf, hw⟩, hd⟩)
      · exact Or.inl ⟨v, rfl, he, hr⟩
      · refine Or.inr ⟨hf, ?_⟩
        rintro (hk | ⟨w, rfl, hk⟩)
        · exact hw hk
        · exact hd hk
    · rintro (⟨w, rfl, he, hr⟩ | ⟨hf, hk⟩)
      · exact Or.inl ⟨he, hr⟩
      · exact Or.inr ⟨⟨hf, fun h => hk (Or.inl h)⟩, fun h => hk (Or.inr ⟨v, rfl, h⟩)⟩

end Availability
