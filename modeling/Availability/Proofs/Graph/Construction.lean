import Mathlib.Data.List.Induction
import Availability.Proofs.Graph.Lookup

/-! Building a graph: which lists of blocks are accepted, what is reported of all others, and what
    a graph then answers about a label.

    A list can have many defects and one of them is reported. A repeated label comes before any
    successor that names no block, wherever the two stand; among defects of one kind the first
    counts. Each defect is described as a split of the list at the place it is found. The pass that
    looks for it gets through everything in front of that place and stops there, and `Verdict` puts
    the two passes in order. -/

namespace Availability

variable {ι : Type} {blocks : List (Block ι)} {l s : Label}

namespace Block

/-! ### The first repeated label -/

/-- `l` labels the first block, in layout order, whose label an earlier block has. -/
def FirstRepeat (blocks : List (Block ι)) (l : Label) : Prop :=
  ∃ earlier b later, blocks = earlier ++ b :: later ∧ b.label = l ∧
    l ∈ labels earlier ∧ (labels earlier).Nodup

theorem labels_append_cons (earlier later : List (Block ι)) (b : Block ι) :
    labels (earlier ++ b :: later) = labels earlier ++ b.label :: labels later := by
  simp [labels]

theorem FirstRepeat.not_nodup (h : FirstRepeat blocks l) : ¬ (labels blocks).Nodup := by
  obtain ⟨earlier, b, later, rfl, rfl, hl, -⟩ := h
  rw [labels_append_cons]
  exact fun hn => List.disjoint_of_nodup_append hn hl List.mem_cons_self

/-- Some block is the first to repeat a label, unless all labels are distinct. -/
theorem exists_firstRepeat (h : ¬ (labels blocks).Nodup) : ∃ l, FirstRepeat blocks l := by
  induction blocks using List.reverseRecOn with
  | nil => exact absurd List.nodup_nil h
  | append_singleton blocks b ih =>
    by_cases hn : (labels blocks).Nodup
    · refine ⟨b.label, blocks, b, [], rfl, rfl, ?_, hn⟩
      by_contra hb
      exact h (by simpa [labels] using hn.concat hb)
    · obtain ⟨l, earlier, c, later, rfl, hc⟩ := ih hn
      exact ⟨l, earlier, c, later ++ [b], by simp, hc⟩

theorem exists_firstRepeat_iff : (∃ l, FirstRepeat blocks l) ↔ ¬ (labels blocks).Nodup :=
  ⟨fun ⟨_, h⟩ => h.not_nodup, exists_firstRepeat⟩

/-! ### The first successor that names no block -/

/-- `s` is the first successor that labels no block: the blocks are gone through in layout order,
    and the successors of each from left to right. -/
def FirstUnresolved (blocks : List (Block ι)) (s : Label) : Prop :=
  ∃ earlier b later before after, blocks = earlier ++ b :: later ∧
    b.successors = before ++ s :: after ∧ s ∉ labels blocks ∧
    (∀ t ∈ before, t ∈ labels blocks) ∧ ∀ c ∈ earlier, ∀ t ∈ c.successors, t ∈ labels blocks

/-- The edges in front of the first that leads nowhere all lead to blocks. -/
theorem FirstUnresolved.exists_edges_eq (h : FirstUnresolved blocks s) :
    ∃ before e after, edges blocks = before ++ e :: after ∧ e.2 = s ∧ s ∉ labels blocks ∧
      ∀ e ∈ before, e.2 ∈ labels blocks := by
  obtain ⟨earlier, b, later, before, after, hblocks, hsucc, hs, hbefore, hearlier⟩ := h
  refine ⟨edges earlier ++ before.map fun t => (b.label, t), (b.label, s),
    (after.map fun t => (b.label, t)) ++ edges later, ?_, rfl, hs, ?_⟩
  · rw [hblocks]
    simp [edges, hsucc]
  · rintro ⟨u, t⟩ he
    rcases List.mem_append.1 he with he | he
    · obtain ⟨c, hc, -, ht⟩ := mem_edges.1 he
      exact hearlier c hc t ht
    · obtain ⟨t', ht, heq⟩ := List.mem_map.1 he
      cases heq
      exact hbefore t ht

/-- Where some element has a property, one is the first. -/
theorem exists_first {α : Type} {p : α → Prop} [DecidablePred p] {xs : List α}
    (h : ∃ x ∈ xs, p x) :
    ∃ before x after, xs = before ++ x :: after ∧ p x ∧ ∀ y ∈ before, ¬ p y := by
  have hsome : (xs.find? fun x => decide (p x)).isSome := by simpa using h
  obtain ⟨x, hx⟩ := Option.isSome_iff_exists.1 hsome
  obtain ⟨hp, before, after, hxs, hbefore⟩ := List.find?_eq_some_iff_append.1 hx
  exact ⟨before, x, after, hxs, by simpa using hp, fun y hy => by simpa using hbefore y hy⟩

/-- Some successor is the first that names no block, unless every successor names one. -/
theorem exists_firstUnresolved_iff :
    (∃ s, FirstUnresolved blocks s) ↔ ∃ b ∈ blocks, ∃ s ∈ b.successors, s ∉ labels blocks := by
  constructor
  · rintro ⟨s, earlier, b, later, before, after, hblocks, hsucc, hs, -⟩
    exact ⟨b, by simp [hblocks], s, by simp [hsucc], hs⟩
  · intro h
    obtain ⟨earlier, b, later, hblocks, hb, hearlier⟩ := exists_first h
    obtain ⟨before, s, after, hsucc, hs, hbefore⟩ := exists_first hb
    refine ⟨s, earlier, b, later, before, after, hblocks, hsucc, hs, ?_, ?_⟩
    · exact fun t ht => Decidable.not_not.1 (hbefore t ht)
    · exact fun c hc t ht => Decidable.not_not.1 fun hno => hearlier c hc ⟨t, ht, hno⟩

end Block

/-! ### Where the passes stop -/

namespace Tables

variable {t : Tables} {done ls : List Label} {edges : List (Label × Label)}

theorem addBlocks_append (t : Tables) (n : Nat) (ls ls' : List Label) :
    t.addBlocks n (ls ++ ls') =
      (t.addBlocks n ls).bind fun t => t.addBlocks (n + ls.length) ls' := by
  induction ls generalizing t n with
  | nil => rfl
  | cons l ls ih =>
    rw [List.cons_append, addBlocks, addBlocks, List.length_cons, Nat.add_comm ls.length,
      ← Nat.add_assoc]
    cases t.addBlock n l with
    | error e => rfl
    | ok u => exact ih u (n + 1)

/-- The first pass gets through distinct labels. -/
theorem Lists.exists_addBlocks_eq_ok (h : t.Lists done) (hn : (done ++ ls).Nodup) :
    ∃ t', t.addBlocks done.length ls = .ok t' ∧ t'.Lists (done ++ ls) := by
  induction ls generalizing t done with
  | nil => exact ⟨t, rfl, by rwa [List.append_nil]⟩
  | cons l ls ih =>
    have hl : l ∉ done := fun hm => List.disjoint_of_nodup_append hn hm List.mem_cons_self
    obtain ⟨u, hu, hlists⟩ := h.addBlock_of_not_mem hl
    rw [List.append_cons] at hn ⊢
    obtain ⟨t', ht', hrest⟩ := ih hlists hn
    refine ⟨t', ?_, hrest⟩
    rw [List.length_append, List.length_singleton] at ht'
    rw [addBlocks, hu]
    exact ht'

theorem exists_addBlocks_eq_ok (hn : (Block.labels blocks).Nodup) :
    ∃ t, empty.addBlocks 0 (Block.labels blocks) = .ok t ∧ t.Lists (Block.labels blocks) :=
  lists_empty.exists_addBlocks_eq_ok hn

/-- The first pass stops at the first repeated label. -/
theorem ofBlocks_eq_duplicateBlock (h : Block.FirstRepeat blocks l) :
    ofBlocks blocks = .error (.duplicateBlock l) := by
  obtain ⟨earlier, b, later, rfl, rfl, hl, hn⟩ := h
  obtain ⟨t, ht, hlists⟩ := exists_addBlocks_eq_ok hn
  rw [ofBlocks, Block.labels_append_cons, addBlocks_append, ht]
  show (t.addBlocks _ _).bind _ = _
  rw [addBlocks, hlists.addBlock_of_mem hl]
  rfl

/-- The second pass gets through edges to blocks. -/
theorem exists_foldlM_addEdge_eq_ok (h : ∀ e ∈ edges, t.predecessors.get? e.2 ≠ none) :
    ∃ t', edges.foldlM addEdge t = .ok t' := by
  induction edges generalizing t with
  | nil => exact ⟨t, rfl⟩
  | cons e edges ih =>
    obtain ⟨he, hrest⟩ := List.forall_mem_cons.1 h
    obtain ⟨u, hu⟩ : ∃ u, t.addEdge e = .ok u := by
      obtain ⟨ps, hps⟩ := Option.ne_none_iff_exists'.1 he
      exact ⟨_, by rw [addEdge, hps]⟩
    obtain ⟨t', ht'⟩ := ih (t := u) fun e' he' => by
      rw [(of_addEdge_eq_ok hu).2]
      simpa using hrest e' he'
    exact ⟨t', by rw [List.foldlM_cons, hu]; exact ht'⟩

/-- The second pass stops at the first successor that names no block. -/
theorem ofBlocks_eq_unknownBlock (hn : (Block.labels blocks).Nodup)
    (h : Block.FirstUnresolved blocks s) : ofBlocks blocks = .error (.unknownBlock s) := by
  obtain ⟨t, ht, hlists⟩ := exists_addBlocks_eq_ok hn
  obtain ⟨before, e, after, hedges, rfl, hs, hbefore⟩ := h.exists_edges_eq
  obtain ⟨u, hu⟩ : ∃ u, before.foldlM addEdge t = .ok u := by
    refine exists_foldlM_addEdge_eq_ok fun e' he' => ?_
    rw [hlists.predecessors_eq, if_pos (hbefore e' he')]
    exact Option.some_ne_none _
  have hnone : u.predecessors.get? e.2 = none := by
    rw [(of_foldlM_addEdge_eq_ok hu).2, hlists.predecessors_eq, if_neg hs]
    rfl
  rw [ofBlocks, ht]
  show (Block.edges blocks).foldlM addEdge t = _
  rw [hedges, List.foldlM_append, hu]
  show (e :: after).foldlM addEdge u = _
  rw [List.foldlM_cons, addEdge, hnone]
  rfl

theorem exists_ofBlocks_eq_ok (hn : (Block.labels blocks).Nodup)
    (hclosed : ∀ b ∈ blocks, ∀ s ∈ b.successors, s ∈ Block.labels blocks) :
    ∃ t, ofBlocks blocks = .ok t := by
  obtain ⟨t, ht, hlists⟩ := exists_addBlocks_eq_ok hn
  rw [ofBlocks, ht]
  refine exists_foldlM_addEdge_eq_ok fun e he => ?_
  obtain ⟨b, hb, -, hs⟩ := Block.mem_edges.1 he
  rw [hlists.predecessors_eq, if_pos (hclosed b hb e.2 hs)]
  exact Option.some_ne_none _

end Tables

namespace Graph

/-! ### The verdict on a list of blocks -/

/-- What building a graph can end in: the first defect, or a graph of these blocks. -/
inductive Verdict (blocks : List (Block ι)) : Except Error (Graph ι) → Prop where
  | empty (nil : blocks = []) : Verdict blocks (.error .emptyGraph)
  | repeated {l : Label} (first : Block.FirstRepeat blocks l) :
      Verdict blocks (.error (.duplicateBlock l))
  | unresolved {s : Label} (nodup : (Block.labels blocks).Nodup)
      (first : Block.FirstUnresolved blocks s) : Verdict blocks (.error (.unknownBlock s))
  | accepted {G : Graph ι} (same : G.blocks = blocks) : Verdict blocks (.ok G)

theorem exists_verdict (blocks : List (Block ι)) : ∃ r, Verdict blocks r := by
  by_cases hnil : blocks = []
  · exact ⟨_, .empty hnil⟩
  by_cases hn : (Block.labels blocks).Nodup
  · by_cases hs : ∃ s, Block.FirstUnresolved blocks s
    · obtain ⟨s, hs⟩ := hs
      exact ⟨_, .unresolved hn hs⟩
    · rw [Block.exists_firstUnresolved_iff] at hs
      simp only [not_exists, not_and, not_not] at hs
      obtain ⟨t, ht⟩ := Tables.exists_ofBlocks_eq_ok hn hs
      exact ⟨_, .accepted (G := ⟨blocks, hnil, t, ht⟩) rfl⟩
  · obtain ⟨l, hl⟩ := Block.exists_firstRepeat hn
    exact ⟨_, .repeated hl⟩

/-- A graph is determined by its blocks. -/
theorem eq_of_blocks_eq {G H : Graph ι} (h : G.blocks = H.blocks) : G = H := by
  obtain ⟨blocks, _, t, ht⟩ := G
  obtain ⟨_, _, t', ht'⟩ := H
  obtain rfl := h
  obtain rfl := Except.ok.inj (ht.symm.trans ht')
  rfl

theorem ofBlocks_eq_error {e : Error} (hne : blocks ≠ []) (h : Tables.ofBlocks blocks = .error e) :
    ofBlocks blocks = .error e := by
  rw [ofBlocks, dif_neg hne]
  split
  · next h' => exact congrArg _ (Except.error.inj (h'.symm.trans h))
  · next h' =>
    rw [h] at h'
    cases h'

theorem ofBlocks_blocks (G : Graph ι) : ofBlocks G.blocks = .ok G := by
  rw [ofBlocks, dif_neg G.blocks_ne_nil]
  split
  · next h =>
    rw [G.tables_eq] at h
    cases h
  · exact congrArg _ (eq_of_blocks_eq rfl)

/-- No list of blocks has a second verdict. -/
theorem Verdict.ofBlocks_eq {r : Except Error (Graph ι)} (h : Verdict blocks r) :
    ofBlocks blocks = r := by
  cases h with
  | empty nil => rw [ofBlocks, dif_pos nil]
  | repeated first =>
    refine ofBlocks_eq_error ?_ (Tables.ofBlocks_eq_duplicateBlock first)
    rintro rfl
    exact first.not_nodup List.nodup_nil
  | unresolved nodup first =>
    refine ofBlocks_eq_error ?_ (Tables.ofBlocks_eq_unknownBlock nodup first)
    rintro rfl
    obtain ⟨b, hb, -⟩ := Block.exists_firstUnresolved_iff.1 ⟨_, first⟩
    exact absurd hb List.not_mem_nil
  | @accepted G same => exact same ▸ G.ofBlocks_blocks

theorem ofBlocks_eq_iff {r : Except Error (Graph ι)} : ofBlocks blocks = r ↔ Verdict blocks r := by
  constructor
  · rintro rfl
    obtain ⟨r, hr⟩ := exists_verdict blocks
    exact hr.ofBlocks_eq ▸ hr
  · exact Verdict.ofBlocks_eq

theorem blocks_of_ofBlocks_eq_ok {G : Graph ι} (h : ofBlocks blocks = .ok G) :
    G.blocks = blocks := by
  cases ofBlocks_eq_iff.1 h with
  | accepted same => exact same

/-- Blocks make a graph when there are any, their labels are distinct and every successor names one
    of them. -/
theorem exists_ofBlocks_eq_ok_iff :
    (∃ G : Graph ι, ofBlocks blocks = .ok G) ↔
      blocks ≠ [] ∧ (Block.labels blocks).Nodup ∧
        ∀ b ∈ blocks, ∀ s ∈ b.successors, s ∈ Block.labels blocks := by
  constructor
  · rintro ⟨G, h⟩
    obtain rfl := blocks_of_ofBlocks_eq_ok h
    exact ⟨G.blocks_ne_nil, G.nodup_labels, fun b hb s hs =>
      G.closed (b.label, s) (Block.mem_edges.2 ⟨b, hb, rfl, hs⟩)⟩
  · rintro ⟨hne, hn, hclosed⟩
    -- such blocks have none of the defects, so only the last verdict is left
    cases hr : ofBlocks blocks with
    | ok G => exact ⟨G, rfl⟩
    | error e =>
      cases ofBlocks_eq_iff.1 hr with
      | empty nil => exact absurd nil hne
      | repeated first => exact absurd hn (Block.exists_firstRepeat_iff.1 ⟨_, first⟩)
      | unresolved _ first =>
        obtain ⟨b, hb, s, hs, hnot⟩ := Block.exists_firstUnresolved_iff.1 ⟨_, first⟩
        exact absurd (hclosed b hb s hs) hnot

/-! ### What a graph answers -/

/-- A graph knows the labels of `blocks` and no others: it finds the block that has the label, and
    reports any other label by name. -/
structure AnswersFor (G : Graph ι) (blocks : List (Block ι)) : Prop where
  contains_iff : ∀ l, G.contains l = true ↔ ∃ b ∈ blocks, b.label = l
  block : ∀ b ∈ blocks, G.block b.label = .ok b
  successors : ∀ b ∈ blocks, G.successors b.label = .ok b.successors
  predecessors : ∀ b ∈ blocks, ∃ ps, G.predecessors b.label = .ok ps
  unknown : ∀ l, G.contains l = false → G.block l = .error (.unknownBlock l) ∧
    G.successors l = .error (.unknownBlock l) ∧ G.predecessors l = .error (.unknownBlock l)

theorem answersFor_blocks (G : Graph ι) : G.AnswersFor G.blocks := by
  have hblock : ∀ b ∈ G.blocks, G.block b.label = .ok b := by
    intro b hb
    rw [Graph.block, block?_eq_some_iff.2 ⟨hb, rfl⟩]
    rfl
  exact
    { contains_iff := fun l => contains_iff.trans List.mem_map
      block := hblock
      successors := by
        intro b hb
        rw [Graph.successors, hblock b hb]
        rfl
      predecessors := fun b hb => ⟨_, predecessors_eq_ok (List.mem_map_of_mem hb)⟩
      unknown := by
        intro l hl
        have hno : l ∉ G := fun hm => Bool.eq_false_iff.1 hl (contains_iff.2 hm)
        exact ⟨block_eq_error hno, successors_eq_error hno, predecessors_eq_error hno⟩ }

/-- A list of blocks is reported for having no blocks, else for the first repeated label, else for
    the first successor that names no block. Without these defects it makes a graph, which answers
    for the labels of the list. -/
theorem ofBlocks_reports_first_defect (blocks : List (Block ι)) :
    (ofBlocks blocks = .error .emptyGraph ↔ blocks = []) ∧
    ((∃ l, ofBlocks blocks = .error (.duplicateBlock l)) ↔ ¬ (Block.labels blocks).Nodup) ∧
    (∀ l, ofBlocks blocks = .error (.duplicateBlock l) ↔ Block.FirstRepeat blocks l) ∧
    ((∃ s, ofBlocks blocks = .error (.unknownBlock s)) ↔ (Block.labels blocks).Nodup ∧
      ∃ b ∈ blocks, ∃ s ∈ b.successors, s ∉ Block.labels blocks) ∧
    (∀ s, ofBlocks blocks = .error (.unknownBlock s) ↔
      (Block.labels blocks).Nodup ∧ Block.FirstUnresolved blocks s) ∧
    ((∃ G, ofBlocks blocks = .ok G) ↔ blocks ≠ [] ∧ (Block.labels blocks).Nodup ∧
      ∀ b ∈ blocks, ∀ s ∈ b.successors, s ∈ Block.labels blocks) ∧
    ∀ G, ofBlocks blocks = .ok G → G.AnswersFor blocks := by
  have hrepeated : ∀ l, ofBlocks blocks = .error (.duplicateBlock l) ↔
      Block.FirstRepeat blocks l := fun l =>
    ofBlocks_eq_iff.trans ⟨fun | .repeated first => first, .repeated⟩
  have hunresolved : ∀ s, ofBlocks blocks = .error (.unknownBlock s) ↔
      (Block.labels blocks).Nodup ∧ Block.FirstUnresolved blocks s := fun s =>
    ofBlocks_eq_iff.trans ⟨fun | .unresolved nodup first => ⟨nodup, first⟩,
      fun h => .unresolved h.1 h.2⟩
  refine ⟨ofBlocks_eq_iff.trans ⟨fun | .empty nil => nil, .empty⟩, ?_, hrepeated, ?_, hunresolved,
    exists_ofBlocks_eq_ok_iff, fun G h => blocks_of_ofBlocks_eq_ok h ▸ G.answersFor_blocks⟩
  · rw [exists_congr hrepeated, Block.exists_firstRepeat_iff]
  · rw [exists_congr hunresolved, exists_and_left, Block.exists_firstUnresolved_iff]

/-- Labels 0 and 1 are repeated, 1 before 0, and before either of them two successors name no
    block. -/
def tangled : List (Block Unit) :=
  [⟨⟨0⟩, [], [⟨8⟩]⟩, ⟨⟨1⟩, [], [⟨0⟩, ⟨9⟩]⟩, ⟨⟨1⟩, [], [⟨0⟩]⟩, ⟨⟨0⟩, [], []⟩]

/-- Successors are repeated, and block 1 is among its own. -/
def doubled : List (Block Unit) :=
  [⟨⟨0⟩, [], [⟨1⟩, ⟨1⟩, ⟨2⟩]⟩, ⟨⟨1⟩, [], [⟨1⟩, ⟨0⟩, ⟨1⟩]⟩, ⟨⟨2⟩, [], [⟨1⟩]⟩]

theorem ofBlocks_reports_tangled_not_doubled :
    ofBlocks tangled = .error (.duplicateBlock ⟨1⟩) ∧
    ∃ G, ofBlocks doubled = .ok G ∧ G.AnswersFor doubled := by
  obtain ⟨-, -, hrepeated, -⟩ := ofBlocks_reports_first_defect tangled
  obtain ⟨-, -, -, -, -, hok, hanswers⟩ := ofBlocks_reports_first_defect doubled
  have hfirst : Block.FirstRepeat tangled ⟨1⟩ :=
    ⟨tangled.take 2, ⟨⟨1⟩, [], [⟨0⟩]⟩, tangled.drop 3, rfl, rfl, by decide, by decide⟩
  obtain ⟨G, hG⟩ := hok.2 ⟨by simp [doubled], by decide, by decide⟩
  exact ⟨(hrepeated ⟨1⟩).2 hfirst, G, hG, hanswers G hG⟩

/-- The predecessors of a block are the blocks that have it among their successors, in layout order
    and each once. -/
theorem predecessors_eq_labels_filter {G : Graph ι} (h : ofBlocks blocks = .ok G) {b : Block ι}
    (hb : b ∈ blocks) :
    G.predecessors b.label =
      .ok (Block.labels (blocks.filter fun c => decide (b.label ∈ c.successors))) ∧
    (Block.labels (blocks.filter fun c => decide (b.label ∈ c.successors))).Nodup := by
  obtain rfl := blocks_of_ofBlocks_eq_ok h
  have hl : b.label ∈ G := List.mem_map_of_mem hb
  rw [← predecessorsOf_eq hl]
  exact ⟨predecessors_eq_ok hl, G.nodup_predecessorsOf b.label⟩

theorem predecessors_doubled :
    ∃ G, ofBlocks doubled = .ok G ∧ G.predecessors ⟨1⟩ = .ok [⟨0⟩, ⟨1⟩, ⟨2⟩] := by
  obtain ⟨G, hG⟩ : ∃ G, ofBlocks doubled = .ok G :=
    exists_ofBlocks_eq_ok_iff.2 ⟨by simp [doubled], by decide, by decide⟩
  have hb : (⟨⟨1⟩, [], [⟨1⟩, ⟨0⟩, ⟨1⟩]⟩ : Block Unit) ∈ doubled := by simp [doubled]
  exact ⟨G, hG, (predecessors_eq_labels_filter hG hb).1⟩

end Graph

end Availability
