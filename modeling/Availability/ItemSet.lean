/-! Finite sets that are equal exactly when they have the same members.

    A set is kept as a list without repetitions and the order of that list is divided out, so `=`
    compares members and nothing else: two routes to the same members give the same value. Every
    operation is decidable, and `ext` together with one membership lemma per operation is all a
    proof needs. The order comes back only where a set is written down, in `sortedImage`.

    What is executed imports the core library and nothing else, which has no such sets for items
    that can be compared but neither ordered nor hashed. -/

namespace Availability

/-- Lists without repetitions that have the same members. -/
instance ItemSet.setoid (α : Type) : Setoid { l : List α // l.Nodup } where
  r a b := ∀ x, x ∈ a.1 ↔ x ∈ b.1
  iseqv :=
    { refl := fun _ _ => Iff.rfl
      symm := fun h x => (h x).symm
      trans := fun h₁ h₂ x => (h₁ x).trans (h₂ x) }

/-- A finite set of items. -/
def ItemSet (α : Type) : Type := Quotient (ItemSet.setoid α)

namespace ItemSet

variable {α β : Type}

/-- The set written by a list without repetitions. -/
def mk (l : List α) (h : l.Nodup) : ItemSet α := Quotient.mk _ ⟨l, h⟩

theorem mk_surjective (s : ItemSet α) : ∃ l h, s = mk l h :=
  Quotient.inductionOn s fun a => ⟨a.1, a.2, rfl⟩

/-- Members of a set are the members of any list that writes it. -/
instance : Membership α (ItemSet α) where
  mem s x := Quotient.liftOn s (fun a => x ∈ a.1) fun _ _ h => propext (h x)

@[simp] theorem mem_mk {x : α} {l : List α} {h : l.Nodup} : x ∈ mk l h ↔ x ∈ l := Iff.rfl

theorem mk_eq_mk {a b : List α} {ha : a.Nodup} {hb : b.Nodup} :
    mk a ha = mk b hb ↔ ∀ x, x ∈ a ↔ x ∈ b :=
  ⟨fun h => Quotient.exact h, fun h => Quotient.sound h⟩

/-- Two sets with the same members are the same set. -/
@[ext] theorem ext {s t : ItemSet α} (h : ∀ x, x ∈ s ↔ x ∈ t) : s = t := by
  obtain ⟨a, ha, rfl⟩ := mk_surjective s
  obtain ⟨b, hb, rfl⟩ := mk_surjective t
  exact mk_eq_mk.2 h

/-- Lists without repetitions that have the same members are permutations of each other. -/
theorem perm_of_rel {a b : { l : List α // l.Nodup }} (h : ∀ x, x ∈ a.1 ↔ x ∈ b.1) :
    a.1.Perm b.1 :=
  (List.perm_ext_iff_of_nodup a.2 b.2).2 h

instance [DecidableEq α] (x : α) (s : ItemSet α) : Decidable (x ∈ s) :=
  Quotient.recOnSubsingleton s fun a => inferInstanceAs (Decidable (x ∈ a.1))

instance [DecidableEq α] : DecidableEq (ItemSet α) := fun s t =>
  Quotient.recOnSubsingleton₂ s t fun a b =>
    decidable_of_iff ((∀ x ∈ a.1, x ∈ b.1) ∧ (∀ x ∈ b.1, x ∈ a.1))
      ⟨fun h => Quotient.sound fun x => ⟨h.1 x, h.2 x⟩,
       fun h => ⟨fun x => (Quotient.exact h x).1, fun x => (Quotient.exact h x).2⟩⟩

/-! ### Building sets -/

instance : EmptyCollection (ItemSet α) := ⟨mk [] List.nodup_nil⟩

@[simp] theorem not_mem_empty (x : α) : x ∉ (∅ : ItemSet α) := List.not_mem_nil

/-- The members of `s` that satisfy `p`. -/
def filter (p : α → Bool) (s : ItemSet α) : ItemSet α :=
  Quotient.liftOn s (fun a => mk (a.1.filter p) (List.Pairwise.filter p a.2)) fun _ _ h =>
    mk_eq_mk.2 fun x => by simp [h x]

@[simp] theorem mem_filter {p : α → Bool} {s : ItemSet α} {x : α} :
    x ∈ s.filter p ↔ x ∈ s ∧ p x = true := by
  obtain ⟨a, ha, rfl⟩ := mk_surjective s
  exact List.mem_filter

variable [DecidableEq α]

/-- The set that a list writes, with `x` put in. -/
def insertMk (x : α) (l : List α) (hl : l.Nodup) : ItemSet α :=
  if h : x ∈ l then mk l hl else mk (x :: l) (List.nodup_cons.2 ⟨h, hl⟩)

theorem mem_insertMk {x y : α} {l : List α} {hl : l.Nodup} :
    y ∈ insertMk x l hl ↔ y = x ∨ y ∈ l := by
  unfold insertMk
  split
  · next h => exact ⟨Or.inr, fun hy => hy.elim (fun e => e ▸ h) id⟩
  · exact List.mem_cons

/-- The set with `x` put in. -/
def insert (x : α) (s : ItemSet α) : ItemSet α :=
  Quotient.liftOn s (fun a => insertMk x a.1 a.2) fun _ _ h =>
    ext fun y => mem_insertMk.trans ((or_congr_right (h y)).trans mem_insertMk.symm)

@[simp] theorem mem_insert {x y : α} {s : ItemSet α} : y ∈ s.insert x ↔ y = x ∨ y ∈ s := by
  obtain ⟨a, ha, rfl⟩ := mk_surjective s
  exact mem_insertMk

/-- The set of a list's members, repetitions collapsed. -/
def ofList (l : List α) : ItemSet α := l.foldl (fun s x => s.insert x) ∅

theorem mem_foldl_insert {x : α} : ∀ (l : List α) (s : ItemSet α),
    x ∈ l.foldl (fun s x => s.insert x) s ↔ x ∈ l ∨ x ∈ s
  | [], s => by simp
  | y :: l, s => by
      rw [List.foldl_cons, mem_foldl_insert l, mem_insert, List.mem_cons, ← or_assoc,
        or_comm (a := x ∈ l)]

@[simp] theorem mem_ofList {x : α} {l : List α} : x ∈ ofList l ↔ x ∈ l := by
  simp [ofList, mem_foldl_insert]

theorem ofList_concat (l : List α) (x : α) : ofList (l ++ [x]) = (ofList l).insert x :=
  List.foldl_append

/-! ### Two sets -/

/-- The common members. -/
def inter (s t : ItemSet α) : ItemSet α := s.filter (fun x => decide (x ∈ t))

instance : Inter (ItemSet α) := ⟨inter⟩

@[simp] theorem mem_inter {x : α} {s t : ItemSet α} : x ∈ s ∩ t ↔ x ∈ s ∧ x ∈ t := by
  show x ∈ s.filter _ ↔ _
  simp

/-- The members of either set. -/
def union (s t : ItemSet α) : ItemSet α :=
  Quotient.liftOn t (fun b => b.1.foldl (fun u x => u.insert x) s) fun _ _ h =>
    ext fun x => by simp [mem_foldl_insert, h x]

instance : Union (ItemSet α) := ⟨union⟩

@[simp] theorem mem_union {x : α} {s t : ItemSet α} : x ∈ s ∪ t ↔ x ∈ s ∨ x ∈ t := by
  obtain ⟨b, hb, rfl⟩ := mk_surjective t
  exact (mem_foldl_insert b s).trans or_comm

instance : HasSubset (ItemSet α) := ⟨fun s t => ∀ x, x ∈ s → x ∈ t⟩

omit [DecidableEq α] in
theorem subset_iff {s t : ItemSet α} : s ⊆ t ↔ ∀ x, x ∈ s → x ∈ t := Iff.rfl

instance (s t : ItemSet α) : Decidable (s ⊆ t) :=
  Quotient.recOnSubsingleton s fun a =>
    inferInstanceAs (Decidable (∀ x ∈ a.1, x ∈ t))

/-! ### Counting and writing down -/

omit [DecidableEq α]

/-- The number of members. -/
def card (s : ItemSet α) : Nat :=
  Quotient.liftOn s (fun a => a.1.length) fun _ _ h => (perm_of_rel h).length_eq

/-- Whether the set has no members. -/
def isEmpty (s : ItemSet α) : Bool := s.card == 0

variable [LE β] [DecidableLE β] [Std.IsLinearOrder β]

theorem sorted_mergeSort (l : List β) :
    (l.mergeSort fun a b => decide (a ≤ b)).Pairwise (· ≤ ·) := by
  have h := @List.pairwise_mergeSort β (fun a b => decide (a ≤ b))
    (fun a b c hab hbc => by simpa using Std.le_trans (by simpa using hab) (by simpa using hbc))
    (fun a b => by simpa using Std.le_total (a := a) (b := b)) l
  exact h.imp fun hab => by simpa using hab

/-- What `f` gives on each member, in ascending order; equal results are kept. -/
def sortedImage (f : α → β) (s : ItemSet α) : List β :=
  Quotient.liftOn s (fun a => (a.1.map f).mergeSort fun x y => decide (x ≤ y)) fun _ _ h =>
    List.Perm.eq_of_pairwise (fun _ _ _ _ => Std.le_antisymm)
      (sorted_mergeSort _) (sorted_mergeSort _)
      ((List.mergeSort_perm _ _).trans
        (((perm_of_rel h).map f).trans (List.mergeSort_perm _ _).symm))

@[simp] theorem mem_sortedImage {f : α → β} {s : ItemSet α} {y : β} :
    y ∈ s.sortedImage f ↔ ∃ x, x ∈ s ∧ f x = y := by
  obtain ⟨a, ha, rfl⟩ := mk_surjective s
  exact List.mem_mergeSort.trans List.mem_map

theorem pairwise_sortedImage (f : α → β) (s : ItemSet α) :
    (s.sortedImage f).Pairwise (· ≤ ·) := by
  obtain ⟨a, ha, rfl⟩ := mk_surjective s
  exact sorted_mergeSort _

end ItemSet

end Availability
