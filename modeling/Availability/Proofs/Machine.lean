import Mathlib.Logic.Relation
import Availability.Proofs.Join

/-! Machines that run the instructions of a graph, and facts that are true of them.

    A machine gives the operators a meaning. What an instruction does is left open as far as its
    effect and the variable it defines leave it open: it may change that variable, and memory if it
    writes memory, and if it computes an expression its variable receives the value. A fact is true
    of a store when every expression it lists has its value in its holder. `transfer` keeps facts
    true along every step that an instruction may take, and so does a solution of the equations
    along every execution. -/

namespace Availability

open Instruction

variable {ι Op Var Val Mem : Type}

/-- What the operators compute from the values of their operands, and from memory if they read
    it. -/
structure Meaning (Op Val Mem : Type) where
  compute : Op → List Val → Val
  read : Op → List Val → Mem → Val

/-- The values of all variables, and memory. -/
structure Store (Var Val Mem : Type) where
  vars : Var → Val
  mem : Mem

/-- The value of an expression that reads memory or does not. -/
def Meaning.value (M : Meaning Op Val Mem) (σ : Store Var Val Mem) (x : Expr Op Var)
    (readsMemory : Bool) : Val :=
  if readsMemory then M.read x.op (x.operands.map σ.vars) σ.mem
  else M.compute x.op (x.operands.map σ.vars)

/-- The holder of `e` has the value of the expression. -/
def AvailExpr.HoldsIn (M : Meaning Op Val Mem) (e : AvailExpr Op Var) (σ : Store Var Val Mem) :
    Prop :=
  σ.vars e.holder = M.value σ e.expr e.readsMemory

theorem Meaning.value_congr {M : Meaning Op Val Mem} {σ τ : Store Var Val Mem} {x : Expr Op Var}
    {readsMemory : Bool} (hvars : ∀ v, x.Reads v → τ.vars v = σ.vars v)
    (hmem : readsMemory = true → τ.mem = σ.mem) :
    M.value τ x readsMemory = M.value σ x readsMemory := by
  have hmap : x.operands.map τ.vars = x.operands.map σ.vars :=
    List.map_congr_left fun v hv => hvars v hv
  rw [value, value, hmap]
  split
  · next h => rw [hmem h]
  · rfl

variable [Instruction ι Op Var]

/-- The instruction may take the machine from `σ` to `τ`. -/
structure Admissible (M : Meaning Op Val Mem) (i : ι) (σ τ : Store Var Val Mem) : Prop where
  vars_eq : ∀ v, defines i ≠ some v → τ.vars v = σ.vars v
  mem_eq : effect i ≠ .store → effect i ≠ .unknown → τ.mem = σ.mem
  pure_eq : ∀ x v, effect i = .pure x → defines i = some v → τ.vars v = M.value σ x false
  load_eq : ∀ x v, effect i = .load x → defines i = some v → τ.vars v = M.value σ x true

/-- A machine about to run the instruction at a location, or about to leave the block if there is
    none. -/
structure Machine (Var Val Mem : Type) where
  loc : Location
  store : Store Var Val Mem

/-- A machine runs the next instruction, or goes on to a successor at the end of a block. -/
inductive Machine.Step (G : Graph ι) (M : Meaning Op Val Mem) :
    Machine Var Val Mem → Machine Var Val Mem → Prop where
  | exec {l : Label} {n : Nat} {i : ι} {σ τ : Store Var Val Mem}
      (next : (G.codeOf l)[n]? = some i) (adm : Admissible M i σ τ) :
      Step G M ⟨⟨l, n⟩, σ⟩ ⟨⟨l, n + 1⟩, τ⟩
  | jump {l k : Label} {σ : Store Var Val Mem} (edge : G.Edge l k) :
      Step G M ⟨⟨l, (G.codeOf l).length⟩, σ⟩ ⟨⟨k, 0⟩, σ⟩

variable {G : Graph ι} {M : Meaning Op Val Mem}

/-! ### One instruction -/

namespace Admissible

variable {i : ι} {σ τ : Store Var Val Mem} {e : AvailExpr Op Var} (h : Admissible M i σ τ)
include h

/-- A step leaves the value of an expression alone unless it changes an operand or memory. -/
theorem value_eq {x : Expr Op Var} {readsMemory : Bool}
    (hvars : ∀ v, x.Reads v → defines i ≠ some v)
    (hmem : readsMemory = true → effect i ≠ .store ∧ effect i ≠ .unknown) :
    M.value τ x readsMemory = M.value σ x readsMemory :=
  Meaning.value_congr (fun v hv => h.vars_eq v (hvars v hv))
    fun hr => h.mem_eq (hmem hr).1 (hmem hr).2

/-- What an instruction generates is true after it. -/
theorem holdsIn_of_generates (hg : Generates i e) : e.HoldsIn M τ := by
  obtain ⟨v, x, hv, hx, hcase⟩ := hg
  have hvars : ∀ w, x.Reads w → defines i ≠ some w := by
    rintro w hw hdef
    rw [hv] at hdef
    cases hdef
    exact hx hw
  rcases hcase with ⟨heff, rfl⟩ | ⟨heff, rfl⟩
  · show τ.vars v = M.value τ x false
    rw [h.value_eq hvars (by simp)]
    exact h.pure_eq x v heff hv
  · show τ.vars v = M.value τ x true
    rw [h.value_eq hvars (by simp [heff])]
    exact h.load_eq x v heff hv

/-- What an instruction does not kill stays true. -/
theorem holdsIn_of_not_kills (he : e.HoldsIn M σ) (hk : ¬ Kills i e) : e.HoldsIn M τ := by
  have hdep : ∀ v, e.DependsOn v → defines i ≠ some v :=
    fun v hv hdef => hk (Or.inr ⟨v, hdef, hv⟩)
  have hmem : e.readsMemory = true → effect i ≠ .store ∧ effect i ≠ .unknown :=
    fun hr => ⟨fun hs => hk (Or.inl ⟨Or.inl hs, hr⟩), fun hu => hk (Or.inl ⟨Or.inr hu, hr⟩)⟩
  rw [AvailExpr.HoldsIn, h.value_eq (fun v hv => hdep v (Or.inr hv)) hmem,
    h.vars_eq _ (hdep _ (Or.inl rfl))]
  exact he

variable [DecidableEq Op] [DecidableEq Var]

theorem holdsIn_transfer {f : Fact (AvailExpr Op Var)} (hf : ∀ e ∈ f, e.HoldsIn M σ) :
    ∀ e ∈ transfer i f, e.HoldsIn M τ := by
  intro e he
  rcases mem_transfer.1 he with hg | ⟨hm, hk⟩
  · exact h.holdsIn_of_generates hg
  · exact h.holdsIn_of_not_kills (hf e hm) hk

end Admissible

/-! ### Executions -/

variable [DecidableEq Op] [DecidableEq Var]

namespace Machine

/-- The fact that belongs to where the machine stands is true of its store. -/
structure Sound (G : Graph ι) (M : Meaning Op Val Mem) (out : Label → Fact (AvailExpr Op Var))
    (m : Machine Var Val Mem) : Prop where
  block_mem : m.loc.block ∈ G
  holds : ∀ e ∈ transferAll ((G.codeOf m.loc.block).take m.loc.index)
    (joinInto G out m.loc.block), e.HoldsIn M m.store

variable {out : Label → Fact (AvailExpr Op Var)} {m m' : Machine Var Val Mem}

/-- Nothing is claimed where an execution starts. -/
theorem sound_start (σ : Store Var Val Mem) : Sound G M out ⟨⟨G.entry, 0⟩, σ⟩ where
  block_mem := G.entry_mem
  holds := fun e he => absurd he (not_mem_joinInto_entry e)

/-- A step keeps the facts of a solution true. -/
theorem Step.sound (hout : ∀ l ∈ G, out l = passOn G out l) (h : Step G M m m')
    (hm : m.Sound G M out) : m'.Sound G M out := by
  cases h with
  | exec next adm =>
    refine ⟨hm.block_mem, ?_⟩
    show ∀ e ∈ transferAll (List.take (_ + 1) _) _, _
    rw [List.take_add_one, next, Option.toList_some, transferAll_concat]
    exact adm.holdsIn_transfer hm.holds
  | jump edge =>
    refine ⟨edge.target_mem, fun e he => hm.holds e ?_⟩
    -- along the edge comes what the block has handed on, which is its last fact
    have hsrc := hout _ edge.source_mem
    have hne := hsrc ▸ passOn_ne_bottom G out _
    have hmem : e ∈ out _ := says_of_says_joinInto (q := some e) he edge hne
    rw [hsrc, passOn, Fact.mem_settle] at hmem
    show e ∈ transferAll (List.take (List.length _) _) _
    rwa [List.take_length]

/-- Along every execution from the entry the facts of a solution are true. -/
theorem sound_of_reaches (hout : ∀ l ∈ G, out l = passOn G out l) {σ : Store Var Val Mem}
    (h : Relation.ReflTransGen (Step G M) ⟨⟨G.entry, 0⟩, σ⟩ m) : m.Sound G M out := by
  induction h with
  | refl => exact sound_start σ
  | tail _ hstep ih => exact hstep.sound hout ih

end Machine

end Availability
