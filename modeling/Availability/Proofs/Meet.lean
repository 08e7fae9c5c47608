import Mathlib.Data.List.Induction
import Mathlib.Order.Defs.PartialOrder
import Availability.Fact

/-! What it takes to be in a meet of many facts, and below one.

    Met facts agree item by item: an item survives when every fact that is not `bottom` lists it,
    and there is such a fact at all. To compare facts with `=` rather than by their items one more
    question is needed, whether the fact is `top`. `Says` asks either kind of question, so that one
    argument about one question serves them all. So a meet depends on which facts are met and on
    nothing else, and the laws of `meet` are cases of this. The order compares what facts read as,
    where `bottom` lists nothing; away from `bottom` the meet is the greatest lower bound. -/

namespace Availability.Fact

variable {α : Type}

/-- What a fact says when asked about an item; `none` asks whether it is anything but `top`. -/
def Says (f : Fact α) : Option α → Prop
  | none => f ≠ .top
  | some x => x ∈ f

@[simp] theorem says_none {f : Fact α} : f.Says none ↔ f ≠ .top := Iff.rfl

@[simp] theorem says_some {f : Fact α} {x : α} : f.Says (some x) ↔ x ∈ f := Iff.rfl

/-- Facts that are not `bottom` are equal when they say the same. -/
theorem eq_of_says_iff {f g : Fact α} (hf : f ≠ .bottom) (hg : g ≠ .bottom)
    (h : ∀ q, f.Says q ↔ g.Says q) : f = g := by
  have htop : f = .top ↔ g = .top := not_iff_not.1 (h none)
  cases f with
  | bottom => exact absurd rfl hf
  | top => exact (htop.1 rfl).symm
  | value s =>
    cases g with
    | bottom => exact absurd rfl hg
    | top => exact htop.2 rfl
    | value t => exact congrArg _ (ItemSet.ext fun x => h (some x))

/-- Settling a fact changes nothing it says. -/
@[simp] theorem says_settle {f : Fact α} {q : Option α} : f.settle.Says q ↔ f.Says q := by
  cases f with
  | bottom => cases q <;> simp [settle]
  | top => rfl
  | value s => rfl

@[simp] theorem mem_settle {f : Fact α} {x : α} : x ∈ f.settle ↔ x ∈ f := says_settle (q := some x)

/-- A fact is below another that lists whatever it lists. -/
theorem le_iff {f g : Fact α} : f ≤ g ↔ ∀ x, x ∈ f → x ∈ g := by
  have hempty : ∀ s : ItemSet α, s = ∅ ↔ ∀ x, x ∉ s := fun s => by simp [ItemSet.ext_iff]
  cases f with
  | top => exact ⟨fun _ x hx => absurd hx (not_mem_top x), fun _ => trivial⟩
  | bottom => exact ⟨fun _ x hx => absurd hx (not_mem_bottom x), fun _ => trivial⟩
  | value s =>
    cases g with
    | value t => exact ItemSet.subset_iff
    | top => exact hempty s
    | bottom => exact hempty s

/-- Facts are ordered by what they read as. The order does not tell `top`, `bottom` and `value ∅`
    apart. -/
instance : Preorder (Fact α) where
  le_refl _ := le_iff.2 fun _ hx => hx
  le_trans _ _ _ hfg hgh := le_iff.2 fun x hx => le_iff.1 hgh x (le_iff.1 hfg x hx)

theorem le_iff_items_subset {f g : Fact α} : f ≤ g ↔ f.items ⊆ g.items := by
  simp only [le_iff, ItemSet.subset_iff, mem_items]

variable [DecidableEq α]

instance (f : Fact α) : (q : Option α) → Decidable (f.Says q)
  | none => inferInstanceAs (Decidable (f ≠ .top))
  | some x => inferInstanceAs (Decidable (x ∈ f))

/-! ### Two facts -/

theorem meet_eq_bottom_iff {f g : Fact α} : meet f g = .bottom ↔ f = .bottom ∧ g = .bottom := by
  cases f <;> cases g <;> simp

theorem meet_eq_top_iff {f g : Fact α} : meet f g = .top ↔ f = .top ∨ g = .top := by
  cases f <;> cases g <;> simp

/-- Where neither fact is `bottom`, their meet says what both say. -/
theorem says_meet {f g : Fact α} (hf : f ≠ .bottom) (hg : g ≠ .bottom) {q : Option α} :
    (meet f g).Says q ↔ f.Says q ∧ g.Says q := by
  cases q with
  | none => rw [says_none, says_none, says_none, Ne, meet_eq_top_iff, not_or]
  | some x =>
    cases f with
    | bottom => exact absurd rfl hf
    | top => simp
    | value s =>
      cases g with
      | bottom => exact absurd rfl hg
      | top => simp
      | value t => simp

theorem mem_meet {f g : Fact α} (hf : f ≠ .bottom) (hg : g ≠ .bottom) {x : α} :
    x ∈ meet f g ↔ x ∈ f ∧ x ∈ g :=
  says_meet hf hg (q := some x)

/-- Away from `bottom`, what is below both facts is what is below their meet. -/
theorem le_meet_iff {f g h : Fact α} (hf : f ≠ .bottom) (hg : g ≠ .bottom) :
    h ≤ meet f g ↔ h ≤ f ∧ h ≤ g := by
  simp only [le_iff, mem_meet hf hg, imp_and, forall_and]

/-- One fact is below another when it lists nothing the other does not, or when the sets they stand
    for are so. Away from `bottom` the meet is the greatest lower bound for this order. -/
theorem le_laws (f g h : Fact α) :
    (f ≤ g ↔ ∀ x, x ∈ f → x ∈ g) ∧ (f ≤ g ↔ f.items ⊆ g.items) ∧
    f ≤ f ∧ (f ≤ g → g ≤ h → f ≤ h) ∧
    (f ≠ .bottom → g ≠ .bottom → (h ≤ meet f g ↔ h ≤ f ∧ h ≤ g)) :=
  ⟨le_iff, le_iff_items_subset, le_refl f, le_trans, fun hf hg => le_meet_iff hf hg⟩

theorem le_laws_overlapping :
    let f : Fact Nat := .value (.ofList [1, 2, 3])
    let g : Fact Nat := .value (.ofList [3, 4, 2])
    let h : Fact Nat := .value (.ofList [2, 3])
    f ≠ .bottom ∧ g ≠ .bottom ∧ ¬ f ≤ g ∧ h ≤ f ∧ h ≤ g ∧ h ≤ meet f g := by
  intro f g h
  obtain ⟨-, -, -, -, hmeet⟩ := le_laws f g h
  have hf : f ≠ .bottom := by decide
  have hg : g ≠ .bottom := by decide
  have hboth : h ≤ f ∧ h ≤ g := by decide
  exact ⟨hf, hg, by decide, hboth.1, hboth.2, (hmeet hf hg).2 hboth⟩

-- the meet ignores `bottom`, but nothing that lists an item is below it
example : let f : Fact Nat := .value (.ofList [1])
    f ≤ meet .bottom f ∧ ¬ f ≤ .bottom := by decide

/-! ### Any number of facts -/

theorem meetAll_concat (fs : List (Fact α)) (f : Fact α) :
    meetAll (fs ++ [f]) = meet (meetAll fs) f := by
  simp [meetAll]

/-- A meet is `bottom` when no path has brought anything. -/
theorem meetAll_eq_bottom_iff {fs : List (Fact α)} :
    meetAll fs = .bottom ↔ ∀ f ∈ fs, f = .bottom := by
  induction fs using List.reverseRecOn with
  | nil => simp
  | append_singleton fs f ih =>
    rw [meetAll_concat, meet_eq_bottom_iff, ih, List.forall_mem_append, List.forall_mem_singleton]

/-- A meet is `top` when a path has brought `top`. -/
theorem meetAll_eq_top_iff {fs : List (Fact α)} : meetAll fs = .top ↔ .top ∈ fs := by
  induction fs using List.reverseRecOn with
  | nil => simp
  | append_singleton fs f ih =>
    rw [meetAll_concat, meet_eq_top_iff, ih, List.mem_append, List.mem_singleton, eq_comm (a := f)]

/-- A meet that is not `bottom` says what all of its facts say, apart from those that are. -/
theorem says_meetAll {fs : List (Fact α)} {q : Option α} (h : meetAll fs ≠ .bottom) :
    (meetAll fs).Says q ↔ ∀ f ∈ fs, f ≠ .bottom → f.Says q := by
  induction fs using List.reverseRecOn with
  | nil => simp at h
  | append_singleton fs g ih =>
    rw [meetAll_concat] at h ⊢
    rw [List.forall_mem_append, List.forall_mem_singleton]
    by_cases hfs : meetAll fs = .bottom
    · have hall := meetAll_eq_bottom_iff.1 hfs
      rw [hfs, bottom_meet] at h ⊢
      exact ⟨fun hg => ⟨fun f hf hb => absurd (hall f hf) hb, fun _ => hg⟩, fun hg => hg.2 h⟩
    · by_cases hg : g = .bottom
      · rw [hg, meet_bottom, ih hfs]
        simp
      · rw [says_meet hfs hg, ih hfs]
        simp [hg]

theorem says_of_says_meetAll {fs : List (Fact α)} {q : Option α} (h : (meetAll fs).Says q)
    {f : Fact α} (hf : f ∈ fs) (hne : f ≠ .bottom) : f.Says q :=
  (says_meetAll fun hb => hne (meetAll_eq_bottom_iff.1 hb f hf)).1 h f hf hne

/-- A meet depends on which facts are met, and not on their order or repetition or on `bottom`. -/
theorem meetAll_eq_of_mem_iff {fs gs : List (Fact α)} (h : ∀ f, f ≠ .bottom → (f ∈ fs ↔ f ∈ gs)) :
    meetAll fs = meetAll gs := by
  have hbot : meetAll fs = .bottom ↔ meetAll gs = .bottom := by
    rw [meetAll_eq_bottom_iff, meetAll_eq_bottom_iff]
    refine forall_congr' fun f => ?_
    by_cases hf : f = .bottom
    · simp [hf]
    · rw [h f hf]
  by_cases hb : meetAll fs = .bottom
  · rw [hb, hbot.1 hb]
  · have hb' : meetAll gs ≠ .bottom := fun hgs => hb (hbot.2 hgs)
    refine eq_of_says_iff hb hb' fun q => ?_
    rw [says_meetAll hb, says_meetAll hb']
    constructor
    · exact fun hall f hf hne => hall f ((h f hne).2 hf) hne
    · exact fun hall f hf hne => hall f ((h f hne).1 hf) hne

/-- A meet of values is the set of their common items. -/
theorem exists_meetAll_eq_value {fs : List (Fact α)} (htop : .top ∉ fs)
    (hne : ∃ f ∈ fs, f ≠ .bottom) :
    ∃ s, meetAll fs = .value s ∧ ∀ x, x ∈ s ↔ ∀ t, .value t ∈ fs → x ∈ t := by
  have hbot : meetAll fs ≠ .bottom := fun hb => by
    obtain ⟨f, hf, hfb⟩ := hne
    exact hfb (meetAll_eq_bottom_iff.1 hb f hf)
  cases hm : meetAll fs with
  | bottom => exact absurd hm hbot
  | top => exact absurd (meetAll_eq_top_iff.1 hm) htop
  | value s =>
    refine ⟨s, rfl, fun x => ?_⟩
    rw [← mem_value, ← hm, ← says_some, says_meetAll hbot]
    constructor
    · exact fun hall t ht => hall (.value t) ht (by simp)
    · intro hall f hf hfb
      cases f with
      | bottom => exact absurd rfl hfb
      | top => exact absurd hf htop
      | value t => exact hall t hf

/-! ### The laws of meets -/

theorem meetAll_pair (f g : Fact α) : meetAll [f, g] = meet f g := by simp [meetAll]

theorem meetAll_triple (f g h : Fact α) : meetAll [f, g, h] = meet (meet f g) h := by
  simp [meetAll]

theorem meet_comm (f g : Fact α) : meet f g = meet g f := by
  rw [← meetAll_pair, ← meetAll_pair]
  exact meetAll_eq_of_mem_iff fun _ _ => by simp [or_comm]

theorem meet_assoc (f g h : Fact α) : meet (meet f g) h = meet f (meet g h) := by
  rw [meet_comm f (meet g h), ← meetAll_triple, ← meetAll_triple]
  exact meetAll_eq_of_mem_iff fun _ _ => by simp [or_comm, or_left_comm]

theorem meet_self (f : Fact α) : meet f f = f := by
  have honce : meetAll [f, f] = meetAll [f] := meetAll_eq_of_mem_iff fun _ _ => by simp
  rw [← meetAll_pair, honce]
  exact bottom_meet f

theorem meetAll_append (fs gs : List (Fact α)) :
    meetAll (fs ++ gs) = meet (meetAll fs) (meetAll gs) := by
  induction gs using List.reverseRecOn with
  | nil => simp
  | append_singleton gs g ih =>
    rw [← List.append_assoc, meetAll_concat, ih, meet_assoc, meetAll_concat]

/-- A meet is the intersection of all its facts at once: `bottom` if there is nothing else, `top` if
    that is among them, and otherwise the items common to all values. So neither order nor
    repetition matters, nor how often `bottom` occurs, and facts may be met in groups. -/
theorem meetAll_laws (α : Type) [DecidableEq α] :
    (∀ fs : List (Fact α),
      (meetAll fs = .bottom ↔ ∀ f ∈ fs, f = .bottom) ∧
      (meetAll fs = .top ↔ .top ∈ fs) ∧
      (.top ∉ fs → (∃ f ∈ fs, f ≠ .bottom) →
        ∃ s, meetAll fs = .value s ∧ ∀ x, x ∈ s ↔ ∀ t, .value t ∈ fs → x ∈ t)) ∧
    (∀ fs gs : List (Fact α), (∀ f, f ≠ .bottom → (f ∈ fs ↔ f ∈ gs)) →
      meetAll fs = meetAll gs) ∧
    (∀ f g : Fact α, meet f g = meet g f) ∧
    (∀ f g h : Fact α, meet (meet f g) h = meet f (meet g h)) ∧
    (∀ f : Fact α, meet f f = f) ∧
    ∀ fs gs : List (Fact α), meetAll (fs ++ gs) = meet (meetAll fs) (meetAll gs) :=
  ⟨fun _ => ⟨meetAll_eq_bottom_iff, meetAll_eq_top_iff, exists_meetAll_eq_value⟩,
    fun _ _ => meetAll_eq_of_mem_iff, meet_comm, meet_assoc, meet_self, meetAll_append⟩

theorem meetAll_laws_four :
    let fs : List (Fact Nat) := [.value (.ofList [1, 2, 3, 4]), .value (.ofList [1, 2, 3]),
      .value (.ofList [2, 3]), .value (.ofList [3, 4])]
    let gs : List (Fact Nat) := .bottom :: fs.reverse ++ [.bottom, .value (.ofList [2, 3])]
    .top ∉ fs ∧ (∃ f ∈ fs, f ≠ .bottom) ∧ (∀ f, f ≠ .bottom → (f ∈ fs ↔ f ∈ gs)) ∧
    (∃ s, meetAll fs = .value s ∧ ∀ x, x ∈ s ↔ ∀ t, .value t ∈ fs → x ∈ t) ∧
    meetAll fs = meetAll gs := by
  intro fs gs
  obtain ⟨hexact, hmem, -⟩ := meetAll_laws Nat
  have htop : .top ∉ fs := by decide
  have hne : ∃ f ∈ fs, f ≠ .bottom := by decide
  have hsame : ∀ f, f ≠ .bottom → (f ∈ fs ↔ f ∈ gs) := by
    intro f hf
    have hsub : (∀ g ∈ fs, g ∈ gs) ∧ ∀ g ∈ gs, g ≠ .bottom → g ∈ fs := by decide
    exact ⟨hsub.1 f, fun hg => hsub.2 f hg hf⟩
  exact ⟨htop, hne, hsame, (hexact fs).2.2 htop hne, hmem fs gs hsame⟩

end Availability.Fact
