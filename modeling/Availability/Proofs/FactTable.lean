import Availability.Join
import Availability.Proofs.Join

/-! Tables as they are between two visits.

    A table is coherent when a visited block has one fact per instruction, each following from the
    one before it, and a block that has not been visited has none. On such tables a first visit and
    any later one come to the same: the block is in the order afterwards, once, and the facts along
    it are those that the visit computed. `record` says this in one equation, whichever of the two
    it was. -/

namespace Availability

variable {ι Op Var : Type}

namespace FactTable

variable (table : FactTable ι Op Var) {l x : Label} {facts : List (Annotated ι Op Var)}

/-- The table after a visit to `l` that leaves these facts along it. -/
def record (l : Label) (facts : List (Annotated ι Op Var)) : FactTable ι Op Var where
  blocks := table.blocks.set l facts
  visitOrder := if l ∈ table.visitOrder then table.visitOrder else table.visitOrder ++ [l]
  visits := table.visits + 1

theorem replace_eq_record (h : l ∈ table.visitOrder) :
    table.replace l facts = table.record l facts := by
  rw [replace, record, if_pos h]

theorem enter_eq_record (h : l ∉ table.visitOrder) (hnil : table.facts l = []) :
    table.enter l facts = table.record l facts := by
  rw [enter, record, if_neg h, hnil, List.nil_append]

theorem facts_record (l k : Label) (facts : List (Annotated ι Op Var)) :
    (table.record l facts).facts k = if k = l then facts else table.facts k := by
  show ((table.blocks.set l facts).get? k).getD [] = _
  rw [LabelMap.get?_set]
  split <;> rfl

theorem visitOrder_record_of_mem (h : l ∈ table.visitOrder) :
    (table.record l facts).visitOrder = table.visitOrder := if_pos h

theorem visitOrder_record_of_not_mem (h : l ∉ table.visitOrder) :
    (table.record l facts).visitOrder = table.visitOrder ++ [l] := if_neg h

theorem mem_visitOrder_record :
    x ∈ (table.record l facts).visitOrder ↔ x ∈ table.visitOrder ∨ x = l := by
  by_cases h : l ∈ table.visitOrder
  · rw [visitOrder_record_of_mem table h]
    refine ⟨Or.inl, ?_⟩
    rintro (hx | rfl)
    · exact hx
    · exact h
  · rw [visitOrder_record_of_not_mem table h, List.mem_append, List.mem_singleton]

/-- What a block hands its successors, `bottom` if there is no fact to hand on. -/
def out (l : Label) : Fact (AvailExpr Op Var) :=
  ((table.facts l).getLast?.bind Annotated.after?).getD .bottom

variable {table}

theorem out_of_facts_eq_nil (h : table.facts l = []) : table.out l = .bottom := by
  rw [out, h]
  rfl

end FactTable

variable [Instruction ι Op Var] [DecidableEq Op] [DecidableEq Var]
variable {G : Graph ι} {table : FactTable ι Op Var} {l : Label} {f : Fact (AvailExpr Op Var)}
  {code : List ι}

/-! ### The end of a block -/

theorem exists_getLast?_chain (h : code ≠ []) (f : Fact (AvailExpr Op Var)) :
    ∃ a, (chain f code).getLast? = some a ∧ a.after? = some (transferAll code f) := by
  have hlen := List.length_pos_iff.2 h
  have hlast : code.length - 1 < code.length := by omega
  refine ⟨⟨code[code.length - 1], transferAll (code.take (code.length - 1)) f,
    some (transferAll code f)⟩, ?_, rfl⟩
  rw [List.getLast?_eq_getElem?, length_chain, getElem?_chain, List.getElem?_eq_getElem hlast,
    Nat.sub_add_cancel hlen, List.take_length]
  rfl

theorem out_of_facts_eq (h : table.facts l = chain f code) (hne : code ≠ []) :
    table.out l = transferAll code f := by
  obtain ⟨a, ha, hafter⟩ := exists_getLast?_chain hne f
  rw [FactTable.out, h, ha, Option.bind_some, hafter]
  rfl

theorem handsOn_of_facts_eq (h : table.facts l = chain f code) :
    table.handsOn l = .ok (table.out l) := by
  by_cases hne : code = []
  · subst hne
    rw [FactTable.handsOn, FactTable.out, h]
    rfl
  · obtain ⟨a, ha, hafter⟩ := exists_getLast?_chain hne f
    rw [FactTable.handsOn, out_of_facts_eq h hne, h, ha]
    show a.after = _
    rw [Annotated.after, hafter]
    rfl

/-! ### Coherent tables -/

/-- The facts along every visited block follow one from the other, and there are no others. -/
structure Coherent (G : Graph ι) (table : FactTable ι Op Var) : Prop where
  exists_chain : ∀ l ∈ table.visitOrder, ∃ f, table.facts l = chain f (G.codeOf l)
  facts_eq_nil : ∀ l, l ∉ table.visitOrder → table.facts l = []

theorem coherent_empty (G : Graph ι) : Coherent G (.empty : FactTable ι Op Var) where
  exists_chain := fun _ hl => absurd hl List.not_mem_nil
  facts_eq_nil := fun _ _ => rfl

namespace Coherent

/-- A visit that computes the facts along a block leaves a coherent table. -/
theorem record (h : Coherent G table) (l : Label) (f : Fact (AvailExpr Op Var)) :
    Coherent G (table.record l (chain f (G.codeOf l))) := by
  constructor
  · intro x hx
    rw [FactTable.facts_record]
    split
    · next hxl => exact ⟨f, hxl ▸ rfl⟩
    · next hxl => exact h.exists_chain x ((table.mem_visitOrder_record.1 hx).resolve_right hxl)
  · intro x hx
    rw [table.mem_visitOrder_record, not_or] at hx
    rw [FactTable.facts_record, if_neg hx.2]
    exact h.facts_eq_nil x hx.1

/-- A first visit. -/
theorem enter_eq (h : Coherent G table) (hl : l ∉ table.visitOrder)
    (facts : List (Annotated ι Op Var)) : table.enter l facts = table.record l facts :=
  table.enter_eq_record hl (h.facts_eq_nil l hl)

/-- Any later visit may compute the facts in place of those that are there. -/
theorem refresh_facts (h : Coherent G table) (hl : l ∈ table.visitOrder)
    (f : Fact (AvailExpr Op Var)) : refresh f (table.facts l) = chain f (G.codeOf l) := by
  obtain ⟨g, hg⟩ := h.exists_chain l hl
  rw [hg, refresh_chain]

theorem handsOn_eq (h : Coherent G table) (l : Label) : table.handsOn l = .ok (table.out l) := by
  by_cases hl : l ∈ table.visitOrder
  · obtain ⟨f, hf⟩ := h.exists_chain l hl
    exact handsOn_of_facts_eq hf
  · have hnil : table.facts l = chain .bottom ([] : List ι) := h.facts_eq_nil l hl
    exact handsOn_of_facts_eq hnil

theorem factInto_eq (h : Coherent G table) (hl : l ∈ G) :
    factInto G table.handsOn l = .ok (joinInto G table.out l) :=
  factInto_eq_ok hl fun p _ => h.handsOn_eq p

end Coherent

end Availability
