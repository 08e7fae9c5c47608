import Availability.FactTable
import Availability.Proofs.Meet

/-! Straight-line code obeys the last writer.

    What a list of instructions makes of a fact is decided, expression by expression, by the last
    instruction that has anything to say about it: either one of them generates the expression and
    none after it kills it, or the expression was there before and none kills it. So a whole block
    is one step: it adds some answers whatever it is told, and spares some of those it is told. From
    this follow the laws of blocks over the order and the meet of facts, and the facts along a
    block, one instruction at a time. -/

namespace Availability

variable {ι Op Var : Type} [Instruction ι Op Var]

/-- Running `code` leaves `e` computed: an instruction generates it, and none after that kills
    it. -/
def Leaves (code : List ι) (e : AvailExpr Op Var) : Prop :=
  ∃ earlier i later, code = earlier ++ i :: later ∧ Generates i e ∧ ∀ j ∈ later, ¬ Kills j e

@[simp] theorem not_leaves_nil (e : AvailExpr Op Var) : ¬ Leaves ([] : List ι) e := by
  rintro ⟨earlier, i, later, h, _⟩
  simp at h

theorem leaves_concat {code : List ι} {i : ι} {e : AvailExpr Op Var} :
    Leaves (code ++ [i]) e ↔ Generates i e ∨ (Leaves code e ∧ ¬ Kills i e) := by
  constructor
  · rintro ⟨earlier, j, later, h, hg, hk⟩
    rcases List.eq_nil_or_concat later with rfl | ⟨later, k, rfl⟩
    · obtain ⟨-, hij⟩ := List.append_inj' h rfl
      cases hij
      exact Or.inl hg
    · rw [List.concat_eq_append] at h hk
      rw [← List.cons_append, ← List.append_assoc] at h
      obtain ⟨rfl, hik⟩ := List.append_inj' h rfl
      cases hik
      refine Or.inr ⟨⟨earlier, j, later, rfl, hg, fun k hm => hk k ?_⟩, hk i (by simp)⟩
      exact List.mem_append_left _ hm
  · rintro (hg | ⟨⟨earlier, j, later, rfl, hg, hk⟩, hi⟩)
    · exact ⟨code, i, [], rfl, hg, by simp⟩
    · refine ⟨earlier, j, later ++ [i], by simp, hg, fun k hm => ?_⟩
      rcases List.mem_append.1 hm with hm | hm
      · exact hk k hm
      · rw [List.mem_singleton.1 hm]
        exact hi

/-- Of two stretches of code the later one decides, unless it leaves the expression alone. -/
theorem leaves_append {code code' : List ι} {e : AvailExpr Op Var} :
    Leaves (code ++ code') e ↔ Leaves code' e ∨ (Leaves code e ∧ ∀ i ∈ code', ¬ Kills i e) := by
  induction code' using List.reverseRecOn with
  | nil => simp
  | append_singleton code' i ih =>
    rw [← List.append_assoc, leaves_concat, ih, leaves_concat, List.forall_mem_append,
      List.forall_mem_singleton, or_and_right, or_assoc, and_assoc]

/-- What a block makes true whatever it is told: it leaves an expression computed, and any code at
    all makes the fact a value. -/
def Adds (code : List ι) : Option (AvailExpr Op Var) → Prop
  | none => code ≠ []
  | some e => Leaves code e

/-- What a block lets through if it is told so. -/
def Spares (code : List ι) : Option (AvailExpr Op Var) → Prop
  | none => True
  | some e => ∀ i ∈ code, ¬ Kills i e

variable [DecidableEq Op] [DecidableEq Var]

theorem transferAll_concat (code : List ι) (i : ι) (f : Fact (AvailExpr Op Var)) :
    transferAll (code ++ [i]) f = transfer i (transferAll code f) := by
  simp [transferAll]

/-- After `code` an expression is available when `code` leaves it computed, or when it was
    available before and nothing in `code` kills it. -/
theorem mem_transferAll {code : List ι} {f : Fact (AvailExpr Op Var)} {e : AvailExpr Op Var} :
    e ∈ transferAll code f ↔ Leaves code e ∨ (e ∈ f ∧ ∀ i ∈ code, ¬ Kills i e) := by
  induction code using List.reverseRecOn with
  | nil => simp
  | append_singleton code i ih =>
    rw [transferAll_concat, mem_transfer, ih, leaves_concat, List.forall_mem_append,
      List.forall_mem_singleton, or_and_right, or_assoc, and_assoc]

theorem transferAll_eq_value {code : List ι} (h : code ≠ []) (f : Fact (AvailExpr Op Var)) :
    ∃ s, transferAll code f = .value s := by
  obtain ⟨code, i, rfl⟩ := (List.eq_nil_or_concat code).resolve_left h
  rw [List.concat_eq_append, transferAll_concat]
  exact ⟨_, rfl⟩

/-! ### A block as one step -/

/-- A block says what it adds, and what it is told and spares. -/
theorem says_transferAll {code : List ι} {f : Fact (AvailExpr Op Var)}
    {q : Option (AvailExpr Op Var)} :
    (transferAll code f).Says q ↔ Adds code q ∨ (f.Says q ∧ Spares code q) := by
  cases q with
  | some e => exact mem_transferAll
  | none =>
    by_cases hc : code = []
    · simp [hc, Adds, Spares]
    · obtain ⟨s, hs⟩ := transferAll_eq_value hc f
      simp [hs, hc, Adds]

/-- A block told more hands on more: whatever is asked, the answer after `code` depends only on the
    answer before it, and never the other way round. -/
theorem says_transferAll_mono {code : List ι} {f g : Fact (AvailExpr Op Var)}
    {q : Option (AvailExpr Op Var)} (h : f.Says q → g.Says q) :
    (transferAll code f).Says q → (transferAll code g).Says q := by
  rw [says_transferAll, says_transferAll]
  rintro (ha | ⟨hf, hs⟩)
  · exact Or.inl ha
  · exact Or.inr ⟨h hf, hs⟩

theorem transferAll_ne_bottom {code : List ι} (h : code ≠ []) (f : Fact (AvailExpr Op Var)) :
    transferAll code f ≠ .bottom := by
  obtain ⟨s, hs⟩ := transferAll_eq_value h f
  simp [hs]

/-- What a block hands on, it does not change when it is told it again. -/
theorem transferAll_transferAll {code : List ι} (h : code ≠ []) (f : Fact (AvailExpr Op Var)) :
    transferAll code (transferAll code f) = transferAll code f := by
  refine Fact.eq_of_says_iff (transferAll_ne_bottom h _) (transferAll_ne_bottom h _) fun q => ?_
  rw [says_transferAll, says_transferAll]
  constructor
  · rintro (ha | ⟨hf, -⟩)
    · exact Or.inl ha
    · exact hf
  · rintro (ha | ⟨hf, hs⟩)
    · exact Or.inl ha
    · exact Or.inr ⟨Or.inr ⟨hf, hs⟩, hs⟩

/-- Facts that paths have brought may be met before a block or after it. It is not so for `bottom`:
    a meet ignores it, but a block makes of it what it makes of nothing available. -/
theorem transferAll_meetAll {code : List ι} (h : code ≠ []) {facts : List (Fact (AvailExpr Op Var))}
    (hne : facts ≠ []) (hfacts : ∀ f ∈ facts, f ≠ .bottom) :
    transferAll code (.meetAll facts) = .meetAll (facts.map (transferAll code)) := by
  obtain ⟨g, hg⟩ := List.exists_mem_of_ne_nil facts hne
  have hbefore : Fact.meetAll facts ≠ .bottom := fun hb =>
    hfacts g hg (Fact.meetAll_eq_bottom_iff.1 hb g hg)
  have hafter : Fact.meetAll (facts.map (transferAll code)) ≠ .bottom := fun hb =>
    transferAll_ne_bottom h g (Fact.meetAll_eq_bottom_iff.1 hb _ (List.mem_map_of_mem hg))
  refine Fact.eq_of_says_iff (transferAll_ne_bottom h _) hafter fun q => ?_
  rw [says_transferAll, Fact.says_meetAll hbefore, Fact.says_meetAll hafter, List.forall_mem_map]
  constructor
  · rintro (ha | ⟨hall, hs⟩) f hf -
    · exact says_transferAll.2 (Or.inl ha)
    · exact says_transferAll.2 (Or.inr ⟨hall f hf (hfacts f hf), hs⟩)
  · intro hall
    have htold : ∀ f ∈ facts, Adds code q ∨ (f.Says q ∧ Spares code q) := fun f hf =>
      says_transferAll.1 (hall f hf (transferAll_ne_bottom h f))
    by_cases ha : Adds code q
    · exact Or.inl ha
    · -- nothing is added, so every fact says it, and `g` shows that the block spares it
      exact Or.inr ⟨fun f hf _ => ((htold f hf).resolve_left ha).1,
        ((htold g hg).resolve_left ha).2⟩

-- a meet with `bottom` keeps the expression, and the block has nothing to keep of `bottom`
example :
    let code : List (Summary Unit Nat) := [⟨.other, none⟩]
    let f : Fact (AvailExpr Unit Nat) := .value (.ofList [⟨⟨(), [0]⟩, 1, false⟩])
    transferAll code (.meetAll [.bottom, f]) ≠
      .meetAll [transferAll code .bottom, transferAll code f] := by decide

/-- Over the order of facts a block is monotone, `bottom` included, and what it makes of its own
    result is that result. Facts other than `bottom` may be met before it or after it. -/
theorem transferAll_laws (code : List ι) (hcode : code ≠ []) :
    (∀ f g : Fact (AvailExpr Op Var), f ≤ g → transferAll code f ≤ transferAll code g) ∧
    (∀ f : Fact (AvailExpr Op Var),
      transferAll code (transferAll code f) = transferAll code f) ∧
    ∀ facts : List (Fact (AvailExpr Op Var)), facts ≠ [] → (∀ f ∈ facts, f ≠ .bottom) →
      transferAll code (.meetAll facts) = .meetAll (facts.map (transferAll code)) := by
  refine ⟨fun f g hle => ?_, transferAll_transferAll hcode,
    fun facts hne hfacts => transferAll_meetAll hcode hne hfacts⟩
  rw [Fact.le_iff] at hle ⊢
  exact fun e => says_transferAll_mono (q := some e) (hle e)

/-- Reads memory and computes with what it read, then writes memory and overwrites the address, and
    computes once more. -/
def overwriting : List (Summary Unit Nat) :=
  [⟨.load ⟨(), [0]⟩, some 1⟩, ⟨.pure ⟨(), [0, 1]⟩, some 2⟩, ⟨.store, some 0⟩,
    ⟨.pure ⟨(), [1]⟩, some 2⟩]

/-- A value that `overwriting` neither reads nor overwrites. -/
def untouched : Fact (AvailExpr Unit Nat) := .value (.ofList [⟨⟨(), [4]⟩, 3, false⟩])

theorem transferAll_laws_overwriting :
    overwriting ≠ [] ∧ Fact.bottom ≤ untouched ∧
    transferAll overwriting .bottom ≤ transferAll overwriting untouched ∧
    transferAll overwriting (transferAll overwriting untouched) =
      transferAll overwriting untouched ∧
    transferAll overwriting (.meetAll [.top, untouched]) =
      .meetAll [transferAll overwriting .top, transferAll overwriting untouched] := by
  have hne : overwriting ≠ [] := by decide
  have hle : Fact.bottom ≤ untouched := by decide
  obtain ⟨hmono, hidem, hmeet⟩ := transferAll_laws overwriting hne
  exact ⟨hne, hle, hmono .bottom untouched hle, hidem untouched,
    hmeet [.top, untouched] (by decide) (by decide)⟩

/-! ### Along a block -/

/-- The facts around the instruction at each place of a block. -/
theorem getElem?_chain (f : Fact (AvailExpr Op Var)) (code : List ι) (n : Nat) :
    (chain f code)[n]? = code[n]?.map fun i =>
      ⟨i, transferAll (code.take n) f, some (transferAll (code.take (n + 1)) f)⟩ := by
  induction code generalizing f n with
  | nil => rfl
  | cons i code ih =>
    cases n with
    | zero => rfl
    | succ n =>
      rw [chain, List.getElem?_cons_succ, ih, List.getElem?_cons_succ]
      rfl

/-- The last writer decides. The facts along `code` end in a value, and an expression is in it
    exactly when an instruction generates it and none after that kills it, or when it was there
    before and none kills it. -/
theorem exists_value_lastWriter (code : List ι) (hcode : code ≠ [])
    (f : Fact (AvailExpr Op Var)) :
    ∃ s, transferAll code f = .value s ∧ handedOn f (chain f code) = .value s ∧
      ∀ e, e ∈ s ↔
        (∃ earlier i later, code = earlier ++ i :: later ∧ Generates i e ∧
          ∀ j ∈ later, ¬ Kills j e) ∨
        (e ∈ f ∧ ∀ i ∈ code, ¬ Kills i e) := by
  obtain ⟨s, hs⟩ := transferAll_eq_value hcode f
  refine ⟨s, hs, (handedOn_chain f code).trans hs, fun e => ?_⟩
  rw [← Fact.mem_value, ← hs]
  exact mem_transferAll

theorem exists_value_overwriting :
    overwriting ≠ [] ∧
    ∃ s, transferAll overwriting untouched = .value s ∧
      handedOn untouched (chain untouched overwriting) = .value s ∧
      (⟨⟨(), [1]⟩, 2, false⟩ : AvailExpr Unit Nat) ∈ s ∧
      ⟨⟨(), [0, 1]⟩, 2, false⟩ ∉ s ∧ ⟨⟨(), [0]⟩, 1, true⟩ ∉ s := by
  have hne : overwriting ≠ [] := by decide
  obtain ⟨s, hs, hchain, hlaw⟩ := exists_value_lastWriter overwriting hne untouched
  refine ⟨hne, s, hs, hchain, (hlaw _).2 (Or.inl ?_), ?_⟩
  · -- the last instruction generates it
    exact ⟨overwriting.take 3, ⟨.pure ⟨(), [1]⟩, some 2⟩, [], rfl,
      ⟨2, ⟨(), [1]⟩, rfl, by decide, Or.inl ⟨rfl, rfl⟩⟩, by simp⟩
  · -- what was computed before the write is stale
    simp only [← Fact.mem_value, ← hs]
    decide

variable {table : FactTable ι Op Var} {l : Label} {f : Fact (AvailExpr Op Var)} {code : List ι}

theorem before?_of_facts_eq (h : table.facts l = chain f code) (n : Nat) :
    table.before? ⟨l, n⟩ = code[n]?.map fun _ => transferAll (code.take n) f := by
  rw [FactTable.before?, FactTable.annotated?, h, getElem?_chain, Option.map_map]
  rfl

theorem after?_of_facts_eq (h : table.facts l = chain f code) (n : Nat) :
    table.after? ⟨l, n⟩ = code[n]?.map fun _ => transferAll (code.take (n + 1)) f := by
  rw [FactTable.after?, FactTable.annotated?, h, getElem?_chain]
  cases code[n]? <;> rfl

theorem before?_eq_some (h : table.facts l = chain f code) {n : Nat} (hn : n < code.length) :
    table.before? ⟨l, n⟩ = some (transferAll (code.take n) f) := by
  rw [before?_of_facts_eq h, List.getElem?_eq_getElem hn]
  rfl

theorem after?_eq_some (h : table.facts l = chain f code) {n : Nat} (hn : n < code.length) :
    table.after? ⟨l, n⟩ = some (transferAll (code.take (n + 1)) f) := by
  rw [after?_of_facts_eq h, List.getElem?_eq_getElem hn]
  rfl

theorem availableBefore_of_facts_eq (h : table.facts l = chain f code) {n : Nat}
    {e : AvailExpr Op Var} :
    table.AvailableBefore ⟨l, n⟩ e ↔ n < code.length ∧ e ∈ transferAll (code.take n) f := by
  rw [FactTable.AvailableBefore, before?_of_facts_eq h]
  by_cases hn : n < code.length <;> simp [hn]

theorem availableAfter_of_facts_eq (h : table.facts l = chain f code) {n : Nat}
    {e : AvailExpr Op Var} :
    table.AvailableAfter ⟨l, n⟩ e ↔ n < code.length ∧ e ∈ transferAll (code.take (n + 1)) f := by
  rw [FactTable.AvailableAfter, after?_of_facts_eq h]
  by_cases hn : n < code.length <;> simp [hn]

/-- A block starts from the fact that comes into it. -/
theorem before?_zero (h : table.facts l = chain f code) (hne : code ≠ []) :
    table.before? ⟨l, 0⟩ = some f :=
  before?_eq_some h (List.length_pos_iff.2 hne)

/-- Each instruction starts from where the one before it ended. -/
theorem before?_succ (h : table.facts l = chain f code) {n : Nat} (hn : n + 1 < code.length) :
    table.before? ⟨l, n + 1⟩ = table.after? ⟨l, n⟩ := by
  rw [before?_eq_some h hn, after?_eq_some h (Nat.lt_of_succ_lt hn)]

theorem after?_eq_map (h : table.facts l = chain f code) {n : Nat} {i : ι}
    (hi : code[n]? = some i) :
    table.after? ⟨l, n⟩ = (table.before? ⟨l, n⟩).map (transfer i) := by
  rw [before?_of_facts_eq h, after?_of_facts_eq h, hi, List.take_add_one, hi, Option.toList_some,
    transferAll_concat]
  rfl

/-- A block ends with what the whole of it makes of the fact that comes into it. -/
theorem after?_last (h : table.facts l = chain f code) (hne : code ≠ []) :
    table.after? ⟨l, code.length - 1⟩ = some (transferAll code f) := by
  have hlen := List.length_pos_iff.2 hne
  have hlast : code.length - 1 < code.length := by omega
  rw [after?_eq_some h hlast, Nat.sub_add_cancel hlen, List.take_length]

end Availability
