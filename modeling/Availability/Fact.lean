import Availability.ItemSet

/-! What is known to be available at one point of a program.

    `top` says that nothing is available; `bottom` says that no path has brought a fact here yet;
    `value s` lists the items of `s`. Facts meet where paths join, and meeting intersects. `bottom`
    is read in two ways: under `meet` it is the identity, so a path that has brought nothing does
    not constrain the join, and everywhere else (`∈`, `items`, `≤`) it has no items, like
    `top`. -/

namespace Availability

/-- A fact over items of type `α`. Equality tells `top`, `bottom` and `value ∅` apart. -/
inductive Fact (α : Type) where
  | top
  | bottom
  | value (items : ItemSet α)
  deriving DecidableEq

namespace Fact

variable {α : Type}

/-! ### Reading a fact -/

/-- The items a fact lists: none for `top` and `bottom`. -/
def items : Fact α → ItemSet α
  | .value s => s
  | .top => ∅
  | .bottom => ∅

/-- An item is in a fact when the fact is a value that lists it. -/
instance : Membership α (Fact α) where
  mem f x := match f with
    | .value s => x ∈ s
    | .top => False
    | .bottom => False

@[simp] theorem mem_value {x : α} {s : ItemSet α} : x ∈ Fact.value s ↔ x ∈ s := Iff.rfl

@[simp] theorem not_mem_top (x : α) : x ∉ (Fact.top : Fact α) := fun h => h

@[simp] theorem not_mem_bottom (x : α) : x ∉ (Fact.bottom : Fact α) := fun h => h

@[simp] theorem mem_items {x : α} : ∀ {f : Fact α}, x ∈ f.items ↔ x ∈ f
  | .value _ => Iff.rfl
  | .top => by simp [items]
  | .bottom => by simp [items]

/-- A fact is below another that lists all it lists; without items it is below every other. -/
def Le : Fact α → Fact α → Prop
  | .value s, .value t => s ⊆ t
  | .value s, _ => s = ∅
  | _, _ => True

instance : LE (Fact α) := ⟨Le⟩

variable [DecidableEq α]

instance (x : α) (f : Fact α) : Decidable (x ∈ f) :=
  match f with
  | .value s => inferInstanceAs (Decidable (x ∈ s))
  | .top => isFalse (not_mem_top x)
  | .bottom => isFalse (not_mem_bottom x)

instance : DecidableLE (Fact α)
  | .value s, .value t => inferInstanceAs (Decidable (s ⊆ t))
  | .value s, .top => inferInstanceAs (Decidable (s = ∅))
  | .value s, .bottom => inferInstanceAs (Decidable (s = ∅))
  | .top, _ => isTrue trivial
  | .bottom, _ => isTrue trivial

/-! ### Joining paths -/

/-- The fact where two paths join: `bottom` is ignored, `top` wins, values intersect. -/
def meet : Fact α → Fact α → Fact α
  | .bottom, g => g
  | f, .bottom => f
  | .top, _ => .top
  | _, .top => .top
  | .value s, .value t => .value (s ∩ t)

/-- The fact where any number of paths join, met from the first to the last; `bottom` when there
    are none. -/
def meetAll (facts : List (Fact α)) : Fact α := facts.foldl meet .bottom

@[simp] theorem bottom_meet (f : Fact α) : meet .bottom f = f := by cases f <;> rfl

@[simp] theorem meet_bottom (f : Fact α) : meet f .bottom = f := by cases f <;> rfl

@[simp] theorem top_meet (f : Fact α) : meet .top f = .top := by cases f <;> rfl

@[simp] theorem meet_top (f : Fact α) : meet f .top = .top := by cases f <;> rfl

@[simp] theorem value_meet_value (s t : ItemSet α) :
    meet (.value s) (.value t) = .value (s ∩ t) := rfl

@[simp] theorem meetAll_nil : meetAll ([] : List (Fact α)) = .bottom := rfl

/-- The fact a block hands on: what no path has brought reads as nothing available. -/
def settle : Fact α → Fact α
  | .bottom => .value ∅
  | f => f

omit [DecidableEq α] in
theorem settle_ne_bottom (f : Fact α) : f.settle ≠ .bottom := by cases f <;> simp [settle]

end Fact

end Availability
