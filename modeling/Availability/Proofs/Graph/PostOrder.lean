import Mathlib.Data.List.Nodup
import Mathlib.Logic.Relation
import Mathlib.Tactic.Tauto
import Availability.Graph.Order
import Availability.Proofs.Graph.Lookup

/-! What a depth-first search leaves behind, and in which order.

    A search from some blocks leaves every block it enters, once, after all that lies below it. So a
    block is left after it was asked for, or some predecessor is left after it: that is the block
    from which the search came. Where everything can be reached from the entry, only the entry was
    asked for, and every other block has a predecessor further on in the leaving order. -/

namespace Availability.Graph

/-- In a list without repetitions, what comes first in a sublist comes first. -/
theorem idxOf_lt_of_sublist_of_nodup {ls : List Label} {p l : Label} (hn : ls.Nodup)
    (h : [p, l].Sublist ls) : ls.idxOf p < ls.idxOf l := by
  obtain ⟨earlier, later, rfl, hp, hl⟩ := List.cons_sublist_iff.1 h
  have hl' : l ∉ earlier := fun hm =>
    List.disjoint_of_nodup_append hn hm (List.singleton_sublist.1 hl)
  rw [List.idxOf_append_of_mem hp, List.idxOf_append_of_notMem hl']
  exact Nat.lt_add_right _ (List.idxOf_lt_length_iff.2 hp)

variable {ι : Type} (G : Graph ι)

/-- Control can come from the entry to `l`. -/
def Reachable (l : Label) : Prop := Relation.ReflTransGen G.Edge G.entry l

/-- The blocks `new` are what a search from `todo` leaves, in order, when it starts with the blocks
    `entered`. -/
structure Leaving (entered todo new : List Label) : Prop where
  nodup : new.Nodup
  fresh : ∀ x ∈ new, x ∉ entered
  covers : ∀ x ∈ todo, x ∈ entered ∨ x ∈ new
  closed : ∀ u ∈ new, ∀ v, G.Edge u v → v ∈ entered ∨ v ∈ new
  /-- Whatever is left was asked for, or a predecessor is left after it. -/
  parent : ∀ x ∈ new, x ∈ todo ∨ ∃ p, G.Edge p x ∧ [x, p].Sublist new

variable {G}

theorem leaving_nil (entered : List Label) : G.Leaving entered [] [] where
  nodup := List.nodup_nil
  fresh := by simp
  covers := by simp
  closed := by simp
  parent := by simp

/-- A block entered before is passed over. -/
theorem Leaving.cons_of_mem {entered todo new : List Label} {l : Label} (hl : l ∈ entered)
    (h : G.Leaving entered todo new) : G.Leaving entered (l :: todo) new where
  nodup := h.nodup
  fresh := h.fresh
  covers := by
    intro x hx
    rcases List.mem_cons.1 hx with rfl | hx
    · exact Or.inl hl
    · exact h.covers x hx
  closed := h.closed
  parent := by
    intro x hx
    rcases h.parent x hx with ht | hp
    · exact Or.inl (List.mem_cons_of_mem _ ht)
    · exact Or.inr hp

/-- A new block is left after all that lies below it, and before what else was asked for. -/
theorem Leaving.cons_of_not_mem {entered entered' todo below after : List Label} {l : Label}
    (hl : l ∉ entered) (hb : G.Leaving (entered ++ [l]) (G.successorsOf l) below)
    (he : ∀ x, x ∈ entered' ↔ x ∈ entered ++ [l] ∨ x ∈ below)
    (ha : G.Leaving entered' todo after) :
    G.Leaving entered (l :: todo) (below ++ l :: after) where
  nodup := by
    have hla : l ∉ after := fun hm => ha.fresh l hm ((he l).2 (Or.inl (by simp)))
    have hlb : l ∉ below := fun hm => hb.fresh l hm (by simp)
    refine List.nodup_append.2 ⟨hb.nodup, List.nodup_cons.2 ⟨hla, ha.nodup⟩, ?_⟩
    rintro x hx y hy rfl
    rcases List.mem_cons.1 hy with rfl | hy
    · exact hlb hx
    · exact ha.fresh x hy ((he x).2 (Or.inr hx))
  fresh := by
    intro x hx hm
    rcases List.mem_append.1 hx with hx | hx
    · exact hb.fresh x hx (List.mem_append_left _ hm)
    · rcases List.mem_cons.1 hx with rfl | hx
      · exact hl hm
      · exact ha.fresh x hx ((he x).2 (Or.inl (List.mem_append_left _ hm)))
  covers := by
    intro x hx
    rcases List.mem_cons.1 hx with rfl | hx
    · exact Or.inr (by simp)
    · have := ha.covers x hx
      rw [he] at this
      simp only [List.mem_append, List.mem_cons, List.not_mem_nil, or_false] at this ⊢
      tauto
  closed := by
    intro u hu v huv
    have hv : v ∈ entered ++ [l] ∨ v ∈ below ∨ v ∈ after := by
      rcases List.mem_append.1 hu with hu | hu
      · rcases hb.closed u hu v huv with h | h
        · exact Or.inl h
        · exact Or.inr (Or.inl h)
      · rcases List.mem_cons.1 hu with rfl | hu
        · rcases hb.covers v (mem_successorsOf.2 huv) with h | h
          · exact Or.inl h
          · exact Or.inr (Or.inl h)
        · rcases ha.closed u hu v huv with h | h
          · rcases (he v).1 h with h | h
            · exact Or.inl h
            · exact Or.inr (Or.inl h)
          · exact Or.inr (Or.inr h)
    simp only [List.mem_append, List.mem_cons, List.not_mem_nil, or_false] at hv ⊢
    tauto
  parent := by
    intro x hx
    rcases List.mem_append.1 hx with hx | hx
    · -- below `l`: the search came from `l` itself or from a block below it
      rcases hb.parent x hx with hs | ⟨p, hp, hsub⟩
      · refine Or.inr ⟨l, mem_successorsOf.1 hs, ?_⟩
        exact (List.singleton_sublist.2 hx).append (List.singleton_sublist.2 (by simp))
      · exact Or.inr ⟨p, hp, hsub.trans (List.sublist_append_left _ _)⟩
    · rcases List.mem_cons.1 hx with rfl | hx
      · exact Or.inl (by simp)
      · rcases ha.parent x hx with ht | ⟨p, hp, hsub⟩
        · exact Or.inl (List.mem_cons_of_mem _ ht)
        · refine Or.inr ⟨p, hp, hsub.trans ?_⟩
          exact (List.sublist_cons_self l after).trans (List.sublist_append_right _ _)

variable (G)

/-- Every search leaves the blocks it enters as `Leaving` says. -/
theorem search_leaving (s : Search) (todo : List Label) :
    ∃ new, (G.search s todo).left = s.left ++ new ∧
      (∀ x, x ∈ (G.search s todo).entered ↔ x ∈ s.entered ∨ x ∈ new) ∧
      G.Leaving s.entered todo new := by
  induction s, todo using searchAll.induct G with
  | case1 s => exact ⟨[], by simp, by simp, leaving_nil _⟩
  | case2 s l todo hl ih =>
    rw [search_cons_of_mem G hl]
    obtain ⟨new, hleft, hentered, hnew⟩ := ih
    exact ⟨new, hleft, hentered, hnew.cons_of_mem hl⟩
  | case3 s l todo hl _ ihb iha _ =>
    obtain ⟨below, hbl, hbe, hb⟩ := ihb
    obtain ⟨after, hal, hae, ha⟩ := iha
    rw [search_cons_of_not_mem G hl]
    refine ⟨below ++ l :: after, hal.trans ?_, fun x => (hae x).trans ?_,
      Leaving.cons_of_not_mem hl hb hbe ha⟩
    · show (G.search ⟨s.entered ++ [l], s.left⟩ (G.successorsOf l)).left ++ [l] ++ after = _
      rw [hbl]
      simp
    · show x ∈ (G.search ⟨s.entered ++ [l], s.left⟩ (G.successorsOf l)).entered ∨ _ ↔ _
      rw [hbe]
      simp only [List.mem_append, List.mem_cons, List.not_mem_nil, or_false]
      tauto

/-! ### The whole graph -/

theorem postOrder_leaving : G.Leaving [] (G.entry :: G.labels) G.postOrder := by
  obtain ⟨new, hleft, -, hnew⟩ := G.search_leaving ⟨[], []⟩ (G.entry :: G.labels)
  rw [postOrder, hleft, List.nil_append]
  exact hnew

theorem nodup_postOrder : G.postOrder.Nodup := G.postOrder_leaving.nodup

theorem mem_postOrder {l : Label} : l ∈ G.postOrder ↔ l ∈ G := by
  constructor
  · intro h
    rcases G.postOrder_leaving.parent l h with ht | ⟨p, hp, -⟩
    · rcases List.mem_cons.1 ht with rfl | ht
      · exact G.entry_mem
      · exact ht
    · exact hp.target_mem
  · intro h
    rcases G.postOrder_leaving.covers l (List.mem_cons_of_mem _ h) with hn | hm
    · simp at hn
    · exact hm

theorem length_postOrder : G.postOrder.length = G.size := by
  have hperm : G.postOrder.Perm G.labels :=
    (List.perm_ext_iff_of_nodup G.nodup_postOrder G.nodup_labels).2 fun _ => G.mem_postOrder
  rw [hperm.length_eq]
  exact List.length_map _

/-- However far a walk through the reversed order has come, a block has been walked or is still to
    come. -/
theorem mem_iff_of_append_eq {walked rest : List Label} {l : Label}
    (h : walked ++ rest = G.postOrder.reverse) : l ∈ G ↔ l ∈ walked ∨ l ∈ rest := by
  rw [← G.mem_postOrder, ← List.mem_reverse, ← h, List.mem_append]

theorem not_mem_of_append_eq {walked rest : List Label} {l : Label}
    (h : walked ++ rest = G.postOrder.reverse) (hl : l ∈ walked) : l ∉ rest := by
  have hn := List.nodup_reverse.2 G.nodup_postOrder
  rw [← h] at hn
  exact fun hr => List.disjoint_of_nodup_append hn hl hr

/-- In the reversed order a walk passes later blocks first. -/
theorem mem_of_append_eq_of_sublist {walked rest : List Label} {l p : Label}
    (h : walked ++ rest = G.postOrder.reverse) (hl : l ∈ walked)
    (hsub : [l, p].Sublist G.postOrder) : p ∈ walked := by
  have hrev : [p, l].Sublist (walked ++ rest) := h ▸ hsub.reverse
  obtain ⟨ps, qs, heq, hps, hqs⟩ := List.sublist_append_iff.1 hrev
  cases ps with
  | nil =>
    rw [List.nil_append] at heq
    exact absurd (hqs.subset (heq ▸ by simp)) (G.not_mem_of_append_eq h hl)
  | cons q ps =>
    rw [List.cons_append] at heq
    obtain ⟨rfl, -⟩ := List.cons.inj heq
    exact hps.subset List.mem_cons_self

/-- In the reversed order a walk comes after a block to those that are left before it. -/
theorem mem_rest_iff {walked rest : List Label} {l x : Label}
    (h : walked ++ l :: rest = G.postOrder.reverse) :
    x ∈ rest ↔ [x, l].Sublist G.postOrder := by
  have hn := List.nodup_reverse.2 G.nodup_postOrder
  rw [← h] at hn
  constructor
  · intro hx
    have hsub : [l, x].Sublist (walked ++ l :: rest) :=
      ((List.singleton_sublist.2 hx).cons_cons l).trans (List.sublist_append_right _ _)
    rw [h] at hsub
    simpa using hsub.reverse
  · intro hsub
    have hxG : x ∈ G := G.mem_postOrder.1 (hsub.subset List.mem_cons_self)
    rcases (G.mem_iff_of_append_eq h).1 hxG with hw | hr
    · have hl := G.mem_of_append_eq_of_sublist h hw hsub
      exact absurd List.mem_cons_self (G.not_mem_of_append_eq h hl)
    · rcases List.mem_cons.1 hr with rfl | hr
      · exact absurd (hsub.nodup G.nodup_postOrder) (by simp)
      · exact hr

/-- The search from the entry alone comes first. It leaves the entry last, and by then it has left
    all that can be reached. -/
theorem exists_postOrder_eq :
    ∃ below rest, G.postOrder = below ++ G.entry :: rest ∧
      (G.search ⟨[G.entry], []⟩ (G.successorsOf G.entry)).left = below ∧
      G.Leaving [G.entry] (G.successorsOf G.entry) below ∧
      ∀ l, G.Reachable l → l = G.entry ∨ l ∈ below := by
  obtain ⟨below, hbl, -, hb⟩ := G.search_leaving ⟨[G.entry], []⟩ (G.successorsOf G.entry)
  obtain ⟨rest, hrl, -, -⟩ := G.search_leaving
    ⟨(G.search ⟨[G.entry], []⟩ (G.successorsOf G.entry)).entered,
      (G.search ⟨[G.entry], []⟩ (G.successorsOf G.entry)).left ++ [G.entry]⟩ G.labels
  refine ⟨below, rest, ?_, hbl, hb, fun l hl => ?_⟩
  · rw [postOrder, search_cons_of_not_mem G List.not_mem_nil]
    refine hrl.trans ?_
    rw [hbl]
    simp
  · -- the blocks entered are closed under edges, so no path leads out of them
    induction hl with
    | refl => exact Or.inl rfl
    | tail _ huv ih =>
      rw [← List.mem_singleton]
      rcases ih with rfl | hu
      · exact hb.covers _ (mem_successorsOf.2 huv)
      · exact hb.closed _ hu _ huv

variable {G}

/-- What the search from the entry leaves before the entry, it leaves before a predecessor. -/
theorem Leaving.exists_later_predecessor {below : List Label} {l : Label}
    (hb : G.Leaving [G.entry] (G.successorsOf G.entry) below) (hl : l ∈ below) :
    ∃ p, G.Edge p l ∧ [l, p].Sublist (below ++ [G.entry]) := by
  rcases hb.parent l hl with hs | ⟨p, hp, hsub⟩
  · refine ⟨G.entry, mem_successorsOf.1 hs, ?_⟩
    exact (List.singleton_sublist.2 hl).append (List.Sublist.refl [G.entry])
  · exact ⟨p, hp, hsub.trans (List.sublist_append_left _ _)⟩

/-- A block that can be reached, other than the entry, is left before one of its predecessors. -/
theorem Reachable.exists_later_predecessor {l : Label} (h : G.Reachable l) (hne : l ≠ G.entry) :
    ∃ p, G.Edge p l ∧ [l, p].Sublist G.postOrder := by
  obtain ⟨below, rest, horder, -, hb, hreach⟩ := G.exists_postOrder_eq
  obtain ⟨p, hp, hsub⟩ := hb.exists_later_predecessor ((hreach l h).resolve_left hne)
  refine ⟨p, hp, hsub.trans ?_⟩
  rw [horder, List.append_cons below G.entry rest]
  exact List.sublist_append_left _ _

end Availability.Graph
