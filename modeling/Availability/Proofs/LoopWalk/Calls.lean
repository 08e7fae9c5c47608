import Availability.Proofs.LoopWalk.Walk

/-! The reference strategy with loops named by their two ends, and the calls that it makes.

    The strategy hands on loops as stretches of blocks. The same walk can be made by calls that only
    say from which block to which: the places of the two are looked up in the order of first visits,
    and the blocks between these places are swept. Nothing in such a call says that the two blocks
    have been visited, that any block lies between them, or that calls within calls come to an end.
    `rangeWalk` goes this way. It keeps a record of every call, and breaks off when calls are nested
    deeper than there are blocks.

    It never does, and gives what the strategy gives. Each call of it belongs to a loop of the walk,
    so its places are known and in order; and a call made on the way through a range belongs to a
    shorter loop, which lies within the range and is not all of it. -/

namespace Availability.LoopWalk

/-! ### Calls and their record -/

/-- Asks to go again through the blocks from `start` to `stop`. -/
structure Call where
  start : Label
  stop : Label
  deriving DecidableEq

/-- A call that is made when the blocks `order` have been visited, and the calls `callers` are under
    way, the innermost first. -/
structure CallSite where
  order : List Label
  call : Call
  callers : List Call

/-- Why a walk by calls breaks off. -/
inductive Fault where
  /-- A lookup fails, or a range is given up. -/
  | error (e : Error)
  /-- Calls are nested deeper than allowed. -/
  | tooDeep

/-- The outcome of a walk by calls, and the calls made until then. -/
structure Traced (α : Type) where
  sites : List CallSite
  result : Except Fault α

namespace Traced

variable {α β : Type}

/-- What makes no calls. -/
def lift (r : Except Error α) : Traced α := ⟨[], r.mapError .error⟩

/-- Goes on with `f`, whose calls come after those made before. -/
def andThen (x : Traced α) (f : α → Traced β) : Traced β :=
  match x.result with
  | .error e => ⟨x.sites, .error e⟩
  | .ok a => ⟨x.sites ++ (f a).sites, (f a).result⟩

instance : Monad Traced where
  pure a := ⟨[], .ok a⟩
  bind := andThen

/-- What is made of the result of a walk by calls. -/
def map (f : α → β) (x : Traced α) : Traced β := ⟨x.sites, x.result.map f⟩

/-- Records a call before what it does. -/
def calling (site : CallSite) (x : Traced α) : Traced α := ⟨site :: x.sites, x.result⟩

theorem lift_ok_bind (a : α) (f : α → Traced β) : (lift (.ok a) >>= f) = f a := rfl

variable {P : CallSite → Prop} {x : Traced α} {r : Except Error α}

/-- A walk by calls gives what the strategy gives, and makes only calls as `P` says. -/
structure Gives (P : CallSite → Prop) (x : Traced α) (r : Except Error α) : Prop where
  result_eq : x.result = r.mapError .error
  sites : ∀ site ∈ x.sites, P site

theorem gives_lift (r : Except Error α) : Gives P (lift r) r := ⟨rfl, by simp [lift]⟩

theorem gives_pure (a : α) : Gives P (pure a) (.ok a) := gives_lift (.ok a)

theorem Gives.calling {site : CallSite} (hsite : P site) (h : Gives P x r) :
    Gives P (calling site x) r where
  result_eq := h.result_eq
  sites := List.forall_mem_cons.2 ⟨hsite, h.sites⟩

theorem Gives.bind {f : α → Traced β} {g : α → Except Error β} (h : Gives P x r)
    (hf : ∀ a, r = .ok a → Gives P (f a) (g a)) : Gives P (x >>= f) (r >>= g) := by
  obtain ⟨sites, result⟩ := x
  obtain ⟨rfl, hsites⟩ := h
  cases r with
  | error e => exact ⟨rfl, hsites⟩
  | ok a =>
    have ha := hf a rfl
    exact ⟨ha.result_eq, List.forall_mem_append.2 ⟨hsites, ha.sites⟩⟩

theorem Gives.map (h : Gives P x r) (f : α → β) : Gives P (x.map f) (r.map f) where
  result_eq := by
    rw [Traced.map, h.result_eq]
    cases r <;> rfl
  sites := h.sites

end Traced

/-! ### Places -/

/-- The blocks from one place to another, both included; none if the second comes first. -/
def between (order : List Label) (lo hi : Nat) : List Label := (order.drop lo).take (hi + 1 - lo)

/-- The two blocks of a call have been visited, and stand at the places `lo` and `hi`. -/
structure Spans (order : List Label) (call : Call) (lo hi : Nat) : Prop where
  start_eq : order.idxOf? call.start = some lo
  stop_eq : order.idxOf? call.stop = some hi
  le : lo ≤ hi

/-- The places of one call lie within those of another, and are not the same. -/
def StrictlyWithin (order : List Label) (inner outer : Call) : Prop :=
  ∃ lo hi lo' hi', Spans order inner lo hi ∧ Spans order outer lo' hi' ∧
    lo' ≤ lo ∧ hi ≤ hi' ∧ (lo, hi) ≠ (lo', hi')

/-- The range of a call is known and not empty, and lies strictly within that of its caller, as that
    does within the range of its own caller, and so on. -/
structure WellNested (site : CallSite) : Prop where
  spans : ∃ lo hi, Spans site.order site.call lo hi
  nested : (site.call :: site.callers).IsChain (StrictlyWithin site.order)

/-- The call for a loop. -/
def callOf (loop : Loop) : Call := ⟨loop.first, loop.last⟩

theorem idxOf?_append_cons {xs ys : List Label} {a : Label} (ha : a ∉ xs) :
    (xs ++ a :: ys).idxOf? a = some xs.length := by
  induction xs with
  | nil => simp [List.idxOf?_cons]
  | cons x xs ih =>
    rw [List.mem_cons, not_or] at ha
    simp [List.idxOf?_cons, ih ha.2, Ne.symm ha.1]

variable {walked order before after : List Label} {l target : Label} {loop inner : Loop}

theorem blocks_eq_concat (loop : Loop) : loop.blocks = loop.blocks.dropLast ++ [loop.last] := by
  have hlast : loop.blocks.getLast? = some loop.last := by
    rw [Loop.blocks, List.getLast?_cons, Loop.last, List.getLastD_eq_getLast?]
  exact (List.dropLast_append_getLast? loop.last hlast).symm

/-- The places of a loop are those from the number of blocks before it on. -/
theorem spans_callOf (hn : order.Nodup) (h : before ++ loop.blocks ++ after = order) :
    Spans order (callOf loop) before.length (before.length + loop.rest.length) where
  start_eq := by
    have hsplit : before ++ loop.first :: (loop.rest ++ after) = order := by
      rw [← h, Loop.blocks, List.append_assoc, List.cons_append]
    rw [← hsplit] at hn ⊢
    exact idxOf?_append_cons fun hm =>
      List.disjoint_of_nodup_append hn hm List.mem_cons_self
  stop_eq := by
    have hsplit : (before ++ loop.blocks.dropLast) ++ loop.last :: after = order := by
      rw [← h, List.append_cons, List.append_assoc before, ← blocks_eq_concat]
    have hlen : (before ++ loop.blocks.dropLast).length = before.length + loop.rest.length := by
      rw [List.length_append, List.length_dropLast]
      rfl
    rw [← hsplit] at hn ⊢
    rw [← hlen]
    exact idxOf?_append_cons fun hm =>
      List.disjoint_of_nodup_append hn hm List.mem_cons_self
  le := Nat.le_add_right _ _

/-- Between the places of a loop lie its blocks. -/
theorem between_eq_blocks (h : before ++ loop.blocks ++ after = order) :
    between order before.length (before.length + loop.rest.length) = loop.blocks := by
  have hlen : before.length + loop.rest.length + 1 - before.length = loop.blocks.length := by
    rw [Loop.blocks, List.length_cons]
    omega
  rw [between, hlen, ← h, List.append_assoc, List.drop_left, List.take_left]

/-- A shorter loop within another has its places strictly within those of the other. -/
theorem strictlyWithin_callOf (hn : order.Nodup) (hinner : inner.blocks <:+: loop.blocks)
    (hloop : loop.blocks <:+: order) (hlt : inner.size < loop.size) :
    StrictlyWithin order (callOf inner) (callOf loop) := by
  obtain ⟨before, after, h⟩ := hloop
  obtain ⟨before', after', h'⟩ := hinner
  have hin : (before ++ before') ++ inner.blocks ++ (after' ++ after) = order := by
    rw [← h, ← h']
    simp only [List.append_assoc]
  have hlen : before'.length + inner.size + after'.length = loop.size := by
    rw [Loop.size, Loop.size, ← h', List.length_append, List.length_append]
  have hsize : ∀ r : Loop, r.size = r.rest.length + 1 := fun r => rfl
  rw [hsize, hsize] at hlen hlt
  refine ⟨_, _, _, _, spans_callOf hn hin, spans_callOf hn h, ?_, ?_, fun heq => ?_⟩
  · rw [List.length_append]
    exact Nat.le_add_right _ _
  · rw [List.length_append]
    omega
  · obtain ⟨hlo, hhi⟩ := Prod.mk.inj heq
    omega

theorem StrictlyWithin.ne {call call' : Call} (h : StrictlyWithin order call call') :
    call ≠ call' := by
  rintro rfl
  obtain ⟨lo, hi, lo', hi', hs, hs', -, -, hne⟩ := h
  have hlo := Option.some.inj (hs.start_eq.symm.trans hs'.start_eq)
  have hhi := Option.some.inj (hs.stop_eq.symm.trans hs'.stop_eq)
  exact hne (by rw [hlo, hhi])

/-- The loop closed by an edge from the last block walked to `target` is called for by these two. -/
theorem callOf_eq (hc : Loop.closedBy? (walked ++ [l]) target = some loop) :
    callOf loop = ⟨target, l⟩ := by
  have hlast : l = loop.last := by simpa using Loop.getLast?_eq hc
  rw [callOf, Loop.first_eq hc, ← hlast]

/-! ### The walk by calls -/

open Traced

variable {ι Op Var : Type}

/-- The place of a block in the order of first visits, or an error that names it. -/
def placeOf (table : FactTable ι Op Var) (l : Label) : Except Error Nat :=
  (table.position? l).elim (.error (.unknownBlock l)) .ok

/-- Follows an edge from `l` to `target` on the way through the range of `call`: calls for the
    blocks from `target` to `l` if `target` has been swept, unless that is the range being swept. -/
def followBack (call : Call) (again : Call → FactTable ι Op Var → Traced (FactTable ι Op Var))
    (swept : List Label) (l : Label) (table : FactTable ι Op Var) (target : Label) :
    Traced (FactTable ι Op Var) :=
  if target ∈ swept ∧ (⟨target, l⟩ : Call) ≠ call then again ⟨target, l⟩ table else pure table

variable [Instruction ι Op Var] [DecidableEq Op] [DecidableEq Var]

/-- Sweeps the blocks `todo` of the range of `call`, `swept` being done. -/
def sweepRange (G : Graph ι) (call : Call)
    (again : Call → FactTable ι Op Var → Traced (FactTable ι Op Var)) :
    (swept todo : List Label) → FactTable ι Op Var → Traced (Pass (FactTable ι Op Var))
  | _, [], table => pure (.changed table)
  | swept, l :: todo, table => do
    let before ← lift (factInto G table.handsOn l)
    match ← lift (replay before (table.facts l)) with
    | .settled facts => return .settled (table.replace l facts)
    | .changed facts =>
      let targets ← lift (G.successors l)
      let table ← targets.foldlM (followBack call again (swept ++ [l]) l) (table.replace l facts)
      sweepRange G call again (swept ++ [l]) todo table

/-- Sweeps the blocks `range` until a fact comes out as it was, `remaining` of `limit` sweeps being
    left. -/
def sweepRangeAll (G : Graph ι) (limit : Nat) (call : Call)
    (again : Call → FactTable ι Op Var → Traced (FactTable ι Op Var)) (range : List Label) :
    (remaining : Nat) → FactTable ι Op Var → Traced (FactTable ι Op Var)
  | 0, _ => lift (.error (.convergenceTimeout call.start call.stop limit))
  | remaining + 1, table => do
    match ← sweepRange G call again [] range table with
    | .settled table => return table
    | .changed table => sweepRangeAll G limit call again range remaining table

/-- Goes again through the blocks that `call` asks for, calls being nested `depth` deep at most. -/
def goThrough (G : Graph ι) (limit : Nat) (callers : List Call) :
    (depth : Nat) → Call → FactTable ι Op Var → Traced (FactTable ι Op Var)
  | 0, call, table => calling ⟨table.visitOrder, call, callers⟩ ⟨[], .error .tooDeep⟩
  | depth + 1, call, table => calling ⟨table.visitOrder, call, callers⟩ do
    let lo ← lift (placeOf table call.start)
    let hi ← lift (placeOf table call.stop)
    sweepRangeAll G limit call (goThrough G limit (call :: callers) depth)
      (between table.visitOrder lo hi) limit table

/-- Follows an edge from `l`, the block visited last, to `target`. -/
def callBack (G : Graph ι) (limit : Nat) (visited : ItemSet Label) (l : Label)
    (table : FactTable ι Op Var) (target : Label) : Traced (FactTable ι Op Var) :=
  if target ∈ visited then goThrough G limit [] G.size ⟨target, l⟩ table else pure table

/-- Visits `l` for the first time and follows its edges. -/
def visitByCalls (G : Graph ι) (limit : Nat) (s : State ι Op Var) (l : Label) :
    Traced (State ι Op Var) := do
  let before ← lift (factInto G s.table.handsOn l)
  let visited := s.visited.insert l
  let block ← lift (G.block l)
  let table := s.table.enter l (chain before block.code)
  (block.successors.foldlM (callBack G limit visited l) table).map (⟨·, visited⟩)

/-- The walk through all blocks of `G`, by calls. -/
def rangeWalk (G : Graph ι) (limit : Nat) : Traced (FactTable ι Op Var) :=
  (G.preOrder.foldlM (visitByCalls G limit) ⟨.empty, ∅⟩).map State.table

/-! ### One edge after another -/

variable {G : Graph ι} {limit : Nat} {walked changes rest : List Label}
  {table : FactTable ι Op Var} {l target : Label} {loop : Loop}

/-- Following one edge after another. -/
theorem Walk.foldlM_gives {P : CallSite → Prop} {targets : List Label}
    {f : FactTable ι Op Var → Label → Traced (FactTable ι Op Var)}
    {g : FactTable ι Op Var → Label → Except Error (FactTable ι Op Var)}
    (hends : ∀ x ∈ targets, ∀ changes table, Walk G walked changes table →
      Ends G limit walked changes (g table x))
    (hgives : ∀ x ∈ targets, ∀ changes table, Walk G walked changes table →
      Gives P (f table x) (g table x))
    (h : Walk G walked changes table) :
    Gives P (targets.foldlM f table) (targets.foldlM g table) := by
  induction targets generalizing changes table with
  | nil => exact gives_pure table
  | cons x targets ih =>
    rw [List.foldlM_cons, List.foldlM_cons]
    refine (hgives x List.mem_cons_self changes table h).bind fun table' heq => ?_
    have hx := heq ▸ hends x List.mem_cons_self changes table h
    cases hx with
    | ok _ walk =>
      exact ih (fun y hy => hends y (List.mem_cons_of_mem _ hy))
        (fun y hy => hgives y (List.mem_cons_of_mem _ hy)) walk

/-! ### Ranges -/

section Sweep

variable {P : CallSite → Prop}
  {again : (r : Loop) → r.size < loop.size → FactTable ι Op Var → Except Error (FactTable ι Op Var)}
  {again' : Call → FactTable ι Op Var → Traced (FactTable ι Op Var)}
  (hends : ∀ r hr changes table, IsLoop G walked r → Walk G walked changes table →
    Ends G limit walked changes (again r hr table))
  (hgives : ∀ r hr changes table, r.blocks <:+: loop.blocks → IsLoop G walked r →
    Walk G walked changes table → Gives P (again' (callOf r) table) (again r hr table))
  (hloop : loop.blocks <:+: walked)
include hgives hloop

/-- Following an edge on the way through a range. -/
theorem Walk.followBack_gives (h : Walk G walked changes table) {swept todo : List Label}
    (heq : (swept ++ [l]) ++ todo = loop.blocks) (hedge : G.Edge l target) :
    Gives P (followBack (callOf loop) again' (swept ++ [l]) l table target)
      (followEdge loop again (swept ++ [l]) todo heq table target) := by
  cases hc : Loop.closedBy? (swept ++ [l]) target with
  | none =>
    have ht := Loop.closedBy?_eq_none_iff.1 hc
    rw [followEdge_of_not_mem ht, followBack, if_neg fun hf => ht hf.1]
    exact gives_pure table
  | some inner =>
    have hcall := callOf_eq hc
    rcases eq_or_ne inner loop with rfl | hne
    · rw [followEdge_self hc, followBack, if_neg fun hf => hf.2 hcall.symm]
      exact gives_pure table
    · have hlt := Loop.size_lt heq hc hne
      have hstretch : inner.blocks <:+: loop.blocks := by
        rw [← heq]
        exact (Loop.blocks_suffix hc).isInfix.trans (List.prefix_append _ _).isInfix
      have hn : walked.Nodup := G.nodup_preOrder.sublist h.prefix_preOrder.sublist
      have hcall' := (strictlyWithin_callOf hn hstretch hloop hlt).ne
      rw [hcall] at hcall'
      rw [followEdge_of_ne hc hne, followBack, if_pos ⟨Loop.mem_of_closedBy? hc, hcall'⟩, ← hcall]
      exact hgives inner hlt changes table hstretch
        ⟨hstretch.trans hloop, (isLoop_of_closedBy? hedge hc).closing⟩ h

omit hgives hloop in
/-- Sweeping a block of a range computes it, and its edges are followed unless that settles. -/
theorem sweepRange_cons (hcoh : Coherent G table) (hv : l ∈ table.visitOrder) (hl : l ∈ G)
    (call : Call) (swept todo : List Label) :
    sweepRange G call again' swept (l :: todo) table =
      if Settles G table l then pure (.settled (recompute G table l))
      else (G.successorsOf l).foldlM (followBack call again' (swept ++ [l]) l) (recompute G table l)
        >>= sweepRange G call again' (swept ++ [l]) todo := by
  rw [sweepRange, hcoh.factInto_eq hl, lift_ok_bind, replay_eq hcoh hv, recompute,
    ← table.replace_eq_record hv]
  by_cases hs : Settles G table l
  · rw [if_pos hs, if_pos hs]
    rfl
  · rw [if_neg hs, if_neg hs, lift_ok_bind]
    show (Traced.lift (G.successors l) >>= _) = _
    rw [Graph.successors_eq_ok hl]
    rfl

include hends

theorem Walk.sweepRange_gives (h : Walk G walked changes table) {swept todo : List Label}
    (heq : swept ++ todo = loop.blocks) :
    Gives P (sweepRange G (callOf loop) again' swept todo table)
      (sweep G loop again swept todo heq table) := by
  induction todo generalizing swept changes table with
  | nil => exact gives_pure _
  | cons l todo ih =>
    have heq' : (swept ++ [l]) ++ todo = loop.blocks := by
      rw [← heq, List.append_assoc, List.singleton_append]
    have hl : l ∈ walked := hloop.subset (heq ▸ by simp)
    have hv : l ∈ table.visitOrder := h.visitOrder_eq.symm ▸ hl
    obtain ⟨note, hstep, -⟩ := h.exists_note hl
    rw [sweepRange_cons h.coherent hv (h.mem_graph hl), sweep_cons h.coherent hv (h.mem_graph hl)
      heq heq']
    by_cases hs : Settles G table l
    · rw [if_pos hs, if_pos hs]
      exact gives_pure _
    · rw [if_neg hs, if_neg hs]
      have hfold : Gives P
          ((G.successorsOf l).foldlM (followBack (callOf loop) again' (swept ++ [l]) l)
            (recompute G table l))
          ((G.successorsOf l).foldlM (followEdge loop again (swept ++ [l]) todo heq')
            (recompute G table l)) :=
        hstep.foldlM_gives
          (fun x hx _ _ h => h.followEdge_ends hends hloop heq' (Graph.mem_successorsOf.1 hx))
          (fun x hx _ _ h => h.followBack_gives hgives hloop heq' (Graph.mem_successorsOf.1 hx))
      refine hfold.bind fun table' htable' => ?_
      have hwalk := htable' ▸ hstep.foldlM_followEdge_ends hends hloop heq'
      cases hwalk with
      | ok _ walk => exact ih walk heq'

theorem Walk.sweepRangeAll_gives (h : Walk G walked changes table) (remaining : Nat) :
    Gives P (sweepRangeAll G limit (callOf loop) again' loop.blocks remaining table)
      (sweepAll G limit loop again remaining table) := by
  induction remaining generalizing changes table with
  | zero => exact gives_lift _
  | succ remaining ih =>
    rw [sweepRangeAll, sweepAll]
    refine (h.sweepRange_gives hends hgives hloop rfl).bind fun pass hpass => ?_
    have hsweep := hpass ▸ h.sweep_ends hends hloop rfl
    cases hsweep with
    | settled _ _ => exact gives_pure _
    | changed _ walk _ => exact ih walk

end Sweep

/-! ### The whole walk -/

/-- The calls that a walk through `G` makes. -/
def Fits (G : Graph ι) (site : CallSite) : Prop :=
  WellNested site ∧ site.callers.length < G.size

/-- A call for a loop goes through it again, as long as calls may be nested as deep as the loop is
    long. -/
theorem Walk.goThrough_gives (h : Walk G walked changes table) (hloop : IsLoop G walked loop)
    {callers : List Call} (hchain : (callOf loop :: callers).IsChain (StrictlyWithin walked))
    (hcallers : callers.length + loop.size ≤ G.size) {depth : Nat} (hdepth : loop.size ≤ depth) :
    Gives (Fits G) (goThrough G limit callers depth (callOf loop) table)
      (settleLoop G limit loop table) := by
  have hpos : 0 < loop.size := Nat.succ_pos _
  -- the loops on the way through a loop are shorter, so they need less depth
  induction depth generalizing loop callers changes table with
  | zero => exact absurd hdepth (Nat.not_le_of_lt hpos)
  | succ depth ih =>
    have hn : walked.Nodup := G.nodup_preOrder.sublist h.prefix_preOrder.sublist
    obtain ⟨before, after, hsplit⟩ := hloop.stretch
    have hspans := spans_callOf hn hsplit
    have hlo : placeOf table (callOf loop).start = .ok before.length := by
      rw [placeOf, FactTable.position?, h.visitOrder_eq, hspans.start_eq]
      rfl
    have hhi : placeOf table (callOf loop).stop = .ok (before.length + loop.rest.length) := by
      rw [placeOf, FactTable.position?, h.visitOrder_eq, hspans.stop_eq]
      rfl
    rw [goThrough, settleLoop, hlo, lift_ok_bind, hhi, lift_ok_bind, h.visitOrder_eq,
      between_eq_blocks hsplit]
    refine Gives.calling ⟨⟨⟨_, _, hspans⟩, hchain⟩, ?_⟩ (h.sweepRangeAll_gives
      (fun r _ changes table hr h => h.settleLoop_ends hr) (fun r hr changes table hin hr' h => ?_)
      hloop.stretch limit)
    · show callers.length < G.size
      omega
    · have hwithin := strictlyWithin_callOf hn hin hloop.stretch hr
      refine ih h hr' (List.isChain_cons_cons.2 ⟨hwithin, hchain⟩) ?_ ?_ (Nat.succ_pos _)
      · rw [List.length_cons]
        omega
      · omega

/-- Following an edge of the block visited last. -/
theorem Walk.callBack_gives (h : Walk G (walked ++ [l]) changes table) (hedge : G.Edge l target) :
    Gives (Fits G) (callBack G limit (.ofList (walked ++ [l])) l table target)
      (closeLoop G limit (.ofList (walked ++ [l])) table target) := by
  cases hc : Loop.closedBy? (walked ++ [l]) target with
  | none =>
    have ht : target ∉ ItemSet.ofList (walked ++ [l]) := fun hm =>
      Loop.closedBy?_eq_none_iff.1 hc (ItemSet.mem_ofList.1 hm)
    rw [callBack, if_neg ht, closeLoop_of_not_mem ht]
    exact gives_pure table
  | some loop =>
    have hloop := isLoop_of_closedBy? hedge hc
    have ht := ItemSet.mem_ofList.2 (Loop.mem_of_closedBy? hc)
    have hsize : loop.size ≤ G.size :=
      calc loop.size ≤ (walked ++ [l]).length := hloop.stretch.length_le
        _ ≤ G.preOrder.length := h.prefix_preOrder.length_le
        _ = G.size := G.perm_preOrder.length_eq.trans (List.length_map _)
    rw [callBack, if_pos ht, closeLoop_of_mem ht (h.visitOrder_eq.symm ▸ hc), ← callOf_eq hc]
    refine h.goThrough_gives hloop (.singleton _) ?_ hsize
    rw [List.length_nil, Nat.zero_add]
    exact hsize

theorem visitByCalls_eq (hcoh : Coherent G table) (hl : l ∈ G) (hnew : l ∉ table.visitOrder)
    (visited : ItemSet Label) :
    visitByCalls G limit ⟨table, visited⟩ l =
      ((G.successorsOf l).foldlM (callBack G limit (visited.insert l) l) (recompute G table l)).map
        (⟨·, visited.insert l⟩) := by
  rw [visitByCalls, hcoh.factInto_eq hl, Graph.block_eq_ok hl, recompute, ← hcoh.enter_eq hnew]
  rfl

/-- Visiting the next block. -/
theorem Walk.visitByCalls_gives (h : Walk G walked changes table)
    (next : walked ++ l :: rest = G.preOrder) :
    Gives (Fits G) (visitByCalls G limit ⟨table, .ofList walked⟩ l)
      (visit G limit ⟨table, .ofList walked⟩ l) := by
  have hl := Graph.mem_of_append_cons_eq next
  have hnew : l ∉ table.visitOrder := h.visitOrder_eq.symm ▸ Graph.not_mem_walked next
  rw [visitByCalls_eq h.coherent hl hnew, visit_eq_visitNext h.coherent h.visitOrder_eq next,
    ← ItemSet.ofList_concat, visitNext]
  refine Gives.map ?_ _
  exact (h.first next).foldlM_gives
    (fun x hx _ _ h => h.closeLoop_ends (Graph.mem_successorsOf.1 hx))
    (fun x hx _ _ h => h.callBack_gives (Graph.mem_successorsOf.1 hx))

theorem Walk.foldlM_visitByCalls_gives (h : Walk G walked changes table)
    (horder : walked ++ rest = G.preOrder) :
    Gives (Fits G) (rest.foldlM (visitByCalls G limit) ⟨table, .ofList walked⟩)
      (rest.foldlM (visit G limit) ⟨table, .ofList walked⟩) := by
  induction rest generalizing walked changes table with
  | nil => exact gives_pure _
  | cons l rest ih =>
    rw [List.foldlM_cons, List.foldlM_cons]
    refine (h.visitByCalls_gives horder).bind fun s hs => ?_
    obtain ⟨more, table', rfl, walk⟩ := h.of_visit_eq_ok horder hs
    refine ih walk ?_
    rw [List.append_assoc, List.singleton_append, horder]

/-- Whatever the graph and the limit, the walk by calls gives what the reference strategy gives, a
    table or a timeout. Every call that it makes until then names two visited blocks, the first of
    which stands no later than the second; a call on the way through a range is for places strictly
    within that range; and no more calls are under way at a time than there are blocks. -/
theorem rangeWalk_wellNested (G : Graph ι) (limit : Nat) :
    (rangeWalk G limit : Traced (FactTable ι Op Var)).result =
        (Availability.analyze ⟨.reference, limit⟩ G).mapError .error ∧
      ((∃ table, (rangeWalk G limit : Traced (FactTable ι Op Var)).result = .ok table) ∨
        ∃ start stop, (rangeWalk G limit : Traced (FactTable ι Op Var)).result =
          .error (.error (.convergenceTimeout start stop limit))) ∧
      ∀ site ∈ (rangeWalk G limit : Traced (FactTable ι Op Var)).sites,
        WellNested site ∧ (site.call :: site.callers).length ≤ G.size := by
  have hstart : Walk G [] [] (.empty : FactTable ι Op Var) := .start
  have hgives : Gives (Fits G) (rangeWalk G limit : Traced (FactTable ι Op Var))
      (Availability.analyze ⟨.reference, limit⟩ G) :=
    (hstart.foldlM_visitByCalls_gives (List.nil_append _)).map State.table
  refine ⟨hgives.result_eq, ?_, hgives.sites⟩
  rw [hgives.result_eq]
  rcases exists_table_or_timeout G limit with ⟨table, htable⟩ | ⟨start, stop, htimeout⟩
  · exact Or.inl ⟨table, by rw [htable]; rfl⟩
  · exact Or.inr ⟨start, stop, by rw [htimeout]; rfl⟩

-- the call for the shorter loop is made on the way through the longer one
example : ((Graph.ofBlocks [⟨⟨0⟩, [], [⟨1⟩]⟩, ⟨⟨1⟩, [], [⟨0⟩, ⟨1⟩]⟩] :
    Except Error (Graph (Summary Unit Nat))).toOption.map fun G =>
      (rangeWalk G 1 : Traced (FactTable (Summary Unit Nat) Unit Nat)).sites.map
        fun site => (site.call, site.callers)) =
    some [(⟨⟨0⟩, ⟨1⟩⟩, []), (⟨⟨1⟩, ⟨1⟩⟩, [⟨⟨0⟩, ⟨1⟩⟩])] := by
  decide +kernel

end Availability.LoopWalk
