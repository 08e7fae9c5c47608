import Availability.Join
import Availability.Proofs.Graph.Lookup
import Availability.Proofs.StraightLine

/-! The equations of the analysis: what comes into a block, and what the block then hands on, as
    functions of what every block hands on.

    `joinInto` is the meet over the edges into a block and `passOn` runs the block on it. A join
    only depends on the blocks with an edge to it. Asked one question at a time, both are monotone
    as long as the same blocks have handed on something: `bottom` counts as everything in a meet and
    as nothing in a block, so a block that hands on its first fact may turn the answer either way.
    -/

namespace Availability

variable {ι Op Var : Type} [DecidableEq Op] [DecidableEq Var]

/-- The facts on the edges into `l`, when every block hands on what `out` says. -/
def factsInto (G : Graph ι) (out : Label → Fact (AvailExpr Op Var)) (l : Label) :
    List (Fact (AvailExpr Op Var)) :=
  if l = G.entry ∧ G.predecessorsOf l ≠ [] then (G.predecessorsOf l).map out ++ [.top]
  else (G.predecessorsOf l).map out

/-- The fact on the way into `l`, when every block hands on what `out` says. -/
def joinInto (G : Graph ι) (out : Label → Fact (AvailExpr Op Var)) (l : Label) :
    Fact (AvailExpr Op Var) :=
  .meetAll (factsInto G out l)

/-- What comes into a block depends on the blocks with an edge to it, and it is known if what these
    hand on is. -/
theorem factInto_eq_ok {G : Graph ι} {l : Label} (h : l ∈ G)
    {handsOn : Label → Except Error (Fact (AvailExpr Op Var))}
    {out : Label → Fact (AvailExpr Op Var)} (hout : ∀ p, G.Edge p l → handsOn p = .ok (out p)) :
    factInto G handsOn l = .ok (joinInto G out l) := by
  have hm : (G.predecessorsOf l).mapM handsOn = .ok ((G.predecessorsOf l).map out) :=
    mapM_eq_ok fun p hp => hout p ((Graph.mem_predecessorsOf h).1 hp)
  rw [factInto, Graph.predecessors_eq_ok h]
  show Except.bind ((G.predecessorsOf l).mapM handsOn) _ = _
  rw [hm]
  rfl

variable {G : Graph ι} {out out' : Label → Fact (AvailExpr Op Var)} {l : Label}

omit [DecidableEq Op] [DecidableEq Var] in
theorem mem_factsInto (hl : l ∈ G) {f : Fact (AvailExpr Op Var)} :
    f ∈ factsInto G out l ↔
      (∃ p, G.Edge p l ∧ out p = f) ∨ (f = .top ∧ l = G.entry ∧ ∃ p, G.Edge p l) := by
  have hne : G.predecessorsOf l ≠ [] ↔ ∃ p, G.Edge p l := by
    constructor
    · intro h
      obtain ⟨p, hp⟩ := List.exists_mem_of_ne_nil _ h
      exact ⟨p, (Graph.mem_predecessorsOf hl).1 hp⟩
    · rintro ⟨p, hp⟩
      exact List.ne_nil_of_mem ((Graph.mem_predecessorsOf hl).2 hp)
  have hmap : f ∈ (G.predecessorsOf l).map out ↔ ∃ p, G.Edge p l ∧ out p = f := by
    rw [List.mem_map]
    exact exists_congr fun p => and_congr_left fun _ => Graph.mem_predecessorsOf hl
  rw [factsInto]
  split
  · next h =>
    rw [List.mem_append, hmap, List.mem_singleton]
    exact or_congr_right ⟨fun hf => ⟨hf, h.1, hne.1 h.2⟩, fun hf => hf.1⟩
  · next h =>
    rw [hmap]
    refine ⟨Or.inl, fun hf => hf.resolve_right ?_⟩
    rintro ⟨-, he, hp⟩
    exact h ⟨he, hne.2 hp⟩

/-- A join depends on the blocks with an edge to it and on no others. -/
theorem joinInto_congr (hl : l ∈ G) (h : ∀ p, G.Edge p l → out p = out' p) :
    joinInto G out l = joinInto G out' l := by
  have hmap : (G.predecessorsOf l).map out = (G.predecessorsOf l).map out' :=
    List.map_congr_left fun p hp => h p ((Graph.mem_predecessorsOf hl).1 hp)
  rw [joinInto, joinInto, factsInto, factsInto, hmap]

/-- Nothing comes into a block unless something is handed on to it. -/
theorem joinInto_eq_bottom_iff (hl : l ∈ G) :
    joinInto G out l = .bottom ↔
      (∀ p, G.Edge p l → out p = .bottom) ∧ (l = G.entry → ∀ p, ¬ G.Edge p l) := by
  rw [joinInto, Fact.meetAll_eq_bottom_iff]
  constructor
  · intro h
    refine ⟨fun p hp => h _ ((mem_factsInto hl).2 (Or.inl ⟨p, hp, rfl⟩)), fun he p hp => ?_⟩
    exact absurd (h .top ((mem_factsInto hl).2 (Or.inr ⟨rfl, he, p, hp⟩))) (by simp)
  · rintro ⟨h, he⟩ f hf
    rcases (mem_factsInto hl).1 hf with ⟨p, hp, rfl⟩ | ⟨-, hen, p, hp⟩
    · exact h p hp
    · exact absurd hp (he hen p)

/-- What comes into a block has been handed on along each edge. -/
theorem says_of_says_joinInto {q : Option (AvailExpr Op Var)} (h : (joinInto G out l).Says q)
    {p : Label} (hp : G.Edge p l) (hne : out p ≠ .bottom) : (out p).Says q :=
  Fact.says_of_says_meetAll h ((mem_factsInto hp.target_mem).2 (Or.inl ⟨p, hp, rfl⟩)) hne

/-- Entering the graph brings nothing. -/
theorem not_mem_joinInto_entry (e : AvailExpr Op Var) : e ∉ joinInto G out G.entry := by
  intro h
  by_cases hp : ∃ p, G.Edge p G.entry
  · have htop : (.top : Fact (AvailExpr Op Var)) ∈ factsInto G out G.entry :=
      (mem_factsInto G.entry_mem).2 (Or.inr ⟨rfl, rfl, hp⟩)
    exact Fact.not_mem_top e (Fact.says_of_says_meetAll (q := some e) h htop (by simp))
  · have hb : joinInto G out G.entry = .bottom :=
      (joinInto_eq_bottom_iff G.entry_mem).2
        ⟨fun p h => absurd ⟨p, h⟩ hp, fun _ p h => hp ⟨p, h⟩⟩
    rw [hb] at h
    exact Fact.not_mem_bottom e h

/-- What comes into a block has been handed on by some predecessor. -/
theorem exists_mem_of_mem_joinInto (hl : l ∈ G) {e : AvailExpr Op Var}
    (he : e ∈ joinInto G out l) : ∃ p, G.Edge p l ∧ e ∈ out p := by
  by_contra hno
  have hb : joinInto G out l = .bottom := by
    refine Fact.meetAll_eq_bottom_iff.2 fun f hf => ?_
    by_contra hfb
    have hef : e ∈ f := Fact.says_of_says_meetAll (q := some e) he hf hfb
    rcases (mem_factsInto hl).1 hf with ⟨p, hp, rfl⟩ | ⟨rfl, -⟩
    · exact hno ⟨p, hp, hef⟩
    · exact Fact.not_mem_top e hef
  rw [hb] at he
  exact Fact.not_mem_bottom e he

/-- A join goes on saying what it says while blocks hand on other facts, as long as something comes
    into the block and each fact handed on says it too. -/
theorem says_joinInto_of_ne_bottom (hl : l ∈ G) {q : Option (AvailExpr Op Var)}
    (hb : joinInto G out' l ≠ .bottom)
    (h : ∀ p, out' p ≠ .bottom → (out p ≠ .bottom → (out p).Says q) → (out' p).Says q) :
    (joinInto G out l).Says q → (joinInto G out' l).Says q := by
  intro hq
  refine (Fact.says_meetAll hb).2 fun f hf hfb => ?_
  rcases (mem_factsInto hl).1 hf with ⟨p, hp, rfl⟩ | ⟨rfl, hen, hp⟩
  · exact h p hfb (says_of_says_joinInto hq hp)
  · exact Fact.says_of_says_meetAll hq ((mem_factsInto hl).2 (Or.inr ⟨rfl, hen, hp⟩)) hfb

/-- A join keeps saying what it says while blocks hand on other facts, also facts where there was
    none before, as long as each of them says it too. -/
theorem says_joinInto_mono (hl : l ∈ G) {q : Option (AvailExpr Op Var)}
    (hbot : ∀ p, out' p = .bottom → out p = .bottom)
    (h : ∀ p, out' p ≠ .bottom → (out p ≠ .bottom → (out p).Says q) → (out' p).Says q) :
    (joinInto G out l).Says q → (joinInto G out' l).Says q := by
  intro hq
  by_cases hb : joinInto G out' l = .bottom
  · have hb' : joinInto G out l = .bottom := by
      rw [joinInto_eq_bottom_iff hl] at hb ⊢
      exact ⟨fun p hp => hbot p (hb.1 p hp), hb.2⟩
    rwa [hb, ← hb']
  · exact says_joinInto_of_ne_bottom hl hb h hq

/-! ### Blocks that something comes into -/

/-- Something can come into `l`: it is the entry, or a predecessor of it has handed on a fact. -/
def Fed (G : Graph ι) (out : Label → Fact (AvailExpr Op Var)) (l : Label) : Prop :=
  l = G.entry ∨ ∃ p, G.Edge p l ∧ out p ≠ .bottom

omit [DecidableEq Op] [DecidableEq Var] in
theorem Fed.mono (h : Fed G out l) (hne : ∀ p, out p ≠ .bottom → out' p ≠ .bottom) :
    Fed G out' l := by
  rcases h with hen | ⟨p, hp, hb⟩
  · exact Or.inl hen
  · exact Or.inr ⟨p, hp, hne p hb⟩

/-- Where something can come into a block, `bottom` comes into it only if there are no edges to it,
    and then it always does. -/
theorem Fed.joinInto_eq_bottom (h : Fed G out l) (hl : l ∈ G) (hb : joinInto G out l = .bottom) :
    joinInto G out' l = .bottom := by
  obtain ⟨hall, hen⟩ := (joinInto_eq_bottom_iff hl).1 hb
  rcases h with rfl | ⟨p, hp, hne⟩
  · have hno := hen rfl
    exact (joinInto_eq_bottom_iff hl).2 ⟨fun p hp => absurd hp (hno p), fun _ => hno⟩
  · exact absurd (hall p hp) hne

/-- Where something can come into a block, it is told less when those that have handed on a fact say
    less, whether or not others have a say by then. -/
theorem Fed.says_joinInto (h : Fed G out l) (hl : l ∈ G) {q : Option (AvailExpr Op Var)}
    (hless : ∀ p, out p ≠ .bottom → out' p ≠ .bottom ∧ ((out' p).Says q → (out p).Says q)) :
    (joinInto G out' l).Says q → (joinInto G out l).Says q := by
  intro hq
  by_cases hb : joinInto G out l = .bottom
  · have hb' : joinInto G out' l = .bottom := h.joinInto_eq_bottom hl hb
    rwa [hb, ← hb']
  · refine says_joinInto_of_ne_bottom hl hb (fun p hp hs => ?_) hq
    exact (hless p hp).2 (hs (hless p hp).1)

/-! ### What a block hands on -/

variable [Instruction ι Op Var]

/-- What `l` hands on, when every block hands on what `out` says. -/
def passOn (G : Graph ι) (out : Label → Fact (AvailExpr Op Var)) (l : Label) :
    Fact (AvailExpr Op Var) :=
  (transferAll (G.codeOf l) (joinInto G out l)).settle

theorem passOn_ne_bottom (G : Graph ι) (out : Label → Fact (AvailExpr Op Var)) (l : Label) :
    passOn G out l ≠ .bottom :=
  Fact.settle_ne_bottom _

theorem passOn_of_ne_nil (h : G.codeOf l ≠ []) :
    passOn G out l = transferAll (G.codeOf l) (joinInto G out l) := by
  obtain ⟨s, hs⟩ := transferAll_eq_value h (joinInto G out l)
  rw [passOn, hs]
  rfl

theorem passOn_of_eq_nil (h : G.codeOf l = []) : passOn G out l = (joinInto G out l).settle := by
  rw [passOn, h, transferAll_nil]

/-- What a block hands on, asked one question, follows what comes into it. -/
theorem says_passOn_mono {q : Option (AvailExpr Op Var)}
    (h : (joinInto G out l).Says q → (joinInto G out' l).Says q) :
    (passOn G out l).Says q → (passOn G out' l).Says q := by
  rw [passOn, passOn, Fact.says_settle, Fact.says_settle]
  exact says_transferAll_mono h

theorem mem_passOn {e : AvailExpr Op Var} :
    e ∈ passOn G out l ↔
      Leaves (G.codeOf l) e ∨ (e ∈ joinInto G out l ∧ ∀ i ∈ G.codeOf l, ¬ Kills i e) := by
  rw [passOn, Fact.mem_settle, mem_transferAll]

end Availability
