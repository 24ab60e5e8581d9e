import HeapFlow.Proofs.Solver.OrderIndependence
import HeapFlow.Proofs.Solver.Reachability

/-! # Bodies without loops

In a graph without cycles every edge goes forward in reverse postorder
(`ControlFlowGraph.isAcyclic_iff`).  A block is only taken up once no pending block leads to it, and
then all blocks that come before it have been visited: so one visit of each block is enough, and the
blocks are visited in topological order (`Solver.OnePass`).

There is nothing left for the worklist order to decide: the whole graph is a sequential region, and
both orders come to the same states (`Analysis.solve_of_isAcyclic`).  That is so for analyses that
look at the values of the parts of an operation only.  The worklist order does decide which
operations of other blocks have values already, and an analysis that asks for them may come to
different states (`Analysis.solve_depends_on_recorded_values`).
-/
namespace HeapFlow

namespace ControlFlowGraph

variable (graph : ControlFlowGraph)

/-- No block that the entry reaches is part of a cycle. -/
def IsAcyclic : Prop :=
  ∀ id, Relation.ReflTransGen (fun a b => b ∈ graph.successors a) graph.entry id →
    ¬Relation.TransGen (fun a b => b ∈ graph.successors a) id id

variable {graph}

/-- Without cycles, all edges go forward. -/
theorem IsAcyclic.lt_of_mem_successors (h : graph.IsAcyclic) {p q : Nat} {source target : BlockId}
    (hp : graph.reversePostorder[p]? = some source) (hq : graph.reversePostorder[q]? = some target)
    (hedge : target ∈ graph.successors source) : p < q := by
  have hs := Schedule.ofGraph_sound graph
  rcases graph.lt_or_reaches_of_mem_successors hp hedge with ⟨r, hlt, hr⟩ | hback
  · obtain rfl : q = r := hs.position_unique hq hr
    exact hlt
  · exact absurd (Relation.TransGen.head' hedge hback)
      (h source (graph.mem_reversePostorder_iff.1 (List.mem_of_getElem? hp)))

/-- It can be checked in reverse postorder that there are no cycles. -/
theorem isAcyclic_iff : graph.IsAcyclic ↔ ∀ source ∈ graph.reversePostorder,
    ∀ target ∈ graph.successors source,
      (Schedule.ofGraph graph).leads source target = true := by
  have hs := Schedule.ofGraph_sound graph
  constructor
  · intro h source hsource target hedge
    obtain ⟨p, hp⟩ := List.mem_iff_getElem?.1 hsource
    obtain ⟨q, hq⟩ := List.mem_iff_getElem?.1
      (graph.mem_reversePostorder_of_mem_successors hsource hedge)
    refine hs.leads_iff.2 ⟨p, q, hp, hq, .single ((hs.forward_iff p q).2 ⟨?_, ?_⟩)⟩
    · exact h.lt_of_mem_successors hp hq hedge
    · exact ⟨source, target, hp, hq, hedge⟩
  · intro h id hid
    exact hs.not_transGen_self h (graph.mem_reversePostorder_iff.2 hid)

instance : Decidable graph.IsAcyclic := decidable_of_iff _ isAcyclic_iff.symm

end ControlFlowGraph

namespace Schedule

variable {graph : ControlFlowGraph}

theorem mem_order_of_reached {id : BlockId} (h : graph.Reached id) :
    id ∈ (ofGraph graph).order := by
  have hs := ofGraph_sound graph
  induction h with
  | entry => exact List.mem_of_getElem? hs.entry
  | flow _ hflow htarget ih => exact hs.mem_order_of_canFlow ih hflow htarget

/-- Control only goes forward in a graph without cycles. -/
theorem forward_of_hasFeasibleEdge (h : graph.IsAcyclic) {p q : Nat} {source target : BlockId}
    (hp : (ofGraph graph).order[p]? = some source) (hq : (ofGraph graph).order[q]? = some target)
    (hedge : graph.HasFeasibleEdge source target) : (ofGraph graph).Forward p q := by
  obtain ⟨hflow, htarget⟩ := graph.hasFeasibleEdge_iff.1 hedge
  have hmem : target ∈ graph.successors source := graph.mem_successors_of_canFlow hflow htarget
  exact ((ofGraph_sound graph).forward_iff p q).2
    ⟨h.lt_of_mem_successors hp hq hmem, source, target, hp, hq, hmem⟩

theorem forward_of_reflTransGen (h : graph.IsAcyclic) {p q : Nat} {source target : BlockId}
    (hp : (ofGraph graph).order[p]? = some source) (hq : (ofGraph graph).order[q]? = some target)
    (hpath : Relation.ReflTransGen graph.HasFeasibleEdge source target) :
    Relation.ReflTransGen (ofGraph graph).Forward p q := by
  have hs := ofGraph_sound graph
  induction hpath using Relation.ReflTransGen.head_induction_on generalizing p with
  | refl => rw [hs.position_unique hp hq]
  | head hedge _ ih =>
    obtain ⟨hflow, htarget⟩ := graph.hasFeasibleEdge_iff.1 hedge
    obtain ⟨r, hr⟩ := List.mem_iff_getElem?.1
      (hs.mem_order_of_canFlow (List.mem_of_getElem? hp) hflow htarget)
    exact (ih hr).head (forward_of_hasFeasibleEdge h hp hr hedge)

end Schedule

namespace Solver

variable {V D : Type}

/-- Every block that control reaches has been visited, or else a pending block leads to it. -/
theorem Traced.visited_or_led {graph : ControlFlowGraph} {log : List (BlockId × Visit D)}
    {state : State V D} (h : Traced (.ofGraph graph) log state) (hoverruns : state.overruns = [])
    {id : BlockId} (hid : graph.Reached id) :
    (state.visits.get? id).isSome = true ∨ ∃ p ∈ state.pending, ∃ source,
      (Schedule.ofGraph graph).order[p]? = some source ∧
        Relation.ReflTransGen graph.HasFeasibleEdge source id := by
  have hnoticed : ∀ id, Noticed (.ofGraph graph) state id →
      (state.visits.get? id).isSome = true ∨ ∃ p ∈ state.pending, ∃ source,
        (Schedule.ofGraph graph).order[p]? = some source ∧
          Relation.ReflTransGen graph.HasFeasibleEdge source id := by
    rintro id (hvisited | ⟨p, hp, hid⟩ | ⟨overrun, hmem, -⟩)
    · exact .inl hvisited
    · exact .inr ⟨p, hp, id, hid, .refl⟩
    · simp [hoverruns] at hmem
  induction hid with
  | entry => exact hnoticed _ h.entry
  | flow _ hflow htarget ih =>
    rcases ih with hvisited | ⟨p, hp, first, hfirst, hpath⟩
    · exact hnoticed _ (h.fed _ hvisited _ hflow htarget)
    · exact .inr ⟨p, hp, first, hfirst,
        hpath.tail (graph.hasFeasibleEdge_iff.2 ⟨hflow, htarget⟩)⟩

/-- The state of a run that visits each block once, after the blocks that control comes from. -/
structure OnePass (graph : ControlFlowGraph) (log : List (BlockId × Visit D)) (state : State V D) :
    Prop where
  overruns : state.overruns = []
  /-- No pending block leads to one that has been visited. -/
  ahead : ∀ p ∈ state.pending, ∀ q id, (Schedule.ofGraph graph).order[q]? = some id →
    (state.visits.get? id).isSome = true →
      ¬Relation.ReflTransGen (Schedule.ofGraph graph).Forward p q
  once : ∀ id, (visitsOf id log).length ≤ 1
  ordered : ∀ (i : Nat) id visit, log[i]? = some (id, visit) → ∀ source, graph.Reached source →
    graph.HasFeasibleEdge source id → ∃ j < i, ∃ earlier, log[j]? = some (source, earlier)

variable {graph : ControlFlowGraph}

/-- When a block is taken up, all blocks have been visited that control can come from. -/
theorem OnePass.visited_of_ready (hacyclic : graph.IsAcyclic) {log : List (BlockId × Visit D)}
    {state : State V D} (htraced : Traced (.ofGraph graph) log state) (h : OnePass graph log state)
    {position : Nat} (hready : (Schedule.ofGraph graph).Ready state.pending position) {id : BlockId}
    (hid : (Schedule.ofGraph graph).order[position]? = some id) {source : BlockId}
    (hsource : graph.Reached source) (hedge : graph.HasFeasibleEdge source id) :
    (state.visits.get? source).isSome = true := by
  refine (htraced.visited_or_led h.overruns hsource).resolve_right ?_
  rintro ⟨p, hp, start, hstart, hpath⟩
  obtain ⟨middle, hmiddle⟩ := List.mem_iff_getElem?.1 (Schedule.mem_order_of_reached hsource)
  exact hready.2 p hp (.tail' (Schedule.forward_of_reflTransGen hacyclic hstart hmiddle hpath)
    (Schedule.forward_of_hasFeasibleEdge hacyclic hmiddle hid hedge))

variable [AbstractValue V] [EntityState D V] [BEq D]
variable {A : Analysis V D} {options : Options} {first : D}

/-- **A turn visits a block for the first time.** -/
theorem OnePass.turn (hacyclic : graph.IsAcyclic) (hpos : 1 ≤ options.maxIterations)
    {log : List (BlockId × Visit D)} {before after : State V D} {position : Nat}
    {made : Option (BlockId × Visit D)} (htraced : Traced (.ofGraph graph) log before)
    (hscheduled : Scheduled (.ofGraph graph) before)
    (hready : (Schedule.ofGraph graph).Ready before.pending position)
    (hturn : Turn A options (.ofGraph graph) first before position made after)
    (h : OnePass graph log before) : OnePass graph (log ++ made.toList) after := by
  have hs := Schedule.ofGraph_sound graph
  have hnodup : before.pending.Nodup := hscheduled.ascending.imp fun hlt => Nat.ne_of_lt hlt
  -- The block at the position has not been visited, for its position leads to itself.
  have hnew : ∀ id, (Schedule.ofGraph graph).order[position]? = some id → visitsOf id log = [] := by
    intro id hid
    have hnone : ¬(before.visits.get? id).isSome = true := fun hvisited =>
      h.ahead position hready.1 position id hid hvisited .refl
    rw [htraced.latest id, Bool.not_eq_true, Option.isSome_eq_false_iff, Option.isNone_iff_eq_none,
      List.getLast?_eq_none_iff] at hnone
    exact hnone
  have hturns : ∀ id, (Schedule.ofGraph graph).order[position]? = some id →
      turns before id = 0 := by
    intro id hid
    simp [htraced.counts id, hnew id hid, h.overruns]
  cases hturn with
  | overrun id hid hlimit =>
    rw [hturns id hid] at hlimit
    omega
  | visit id block visit machine hid hblock hlimit hvisit =>
    have hflow := (Turn.visit id block visit machine hid hblock hlimit hvisit).mem_successors_iff
    refine ⟨h.overruns, fun p hp q other hother hvisited hpath => ?_, fun other => ?_,
      fun i other found hi source hsource hedge => ?_⟩
    · -- The block itself is ahead of what follows it, and the other blocks were before.
      have hahead : ∀ p, p ∈ before.pending →
          Relation.ReflTransGen (Schedule.ofGraph graph).Forward p q → q = position := by
        intro p hp hpath
        by_contra hne
        have hdiffers : id ≠ other := by
          rintro rfl
          exact hne (hs.position_unique hother hid)
        rw [get?_insert_of_ne before.visits visit hdiffers] at hvisited
        exact h.ahead p hp q other hother hvisited hpath
      rcases Worklist.mem_foldl_insert.1 hp with hp | hp
      · obtain ⟨target, htarget, hp, -⟩ := mem_affected_iff.1 hp
        have hp := hs.position?_eq_some_iff.1 hp
        have hforward : (Schedule.ofGraph graph).Forward position p :=
          Schedule.forward_of_hasFeasibleEdge hacyclic hid hp (graph.hasFeasibleEdge_iff.2
            ⟨(hflow target).1 htarget, hs.known target (List.mem_of_getElem? hp)⟩)
        obtain rfl := hahead position hready.1 (hpath.head hforward)
        exact Nat.lt_irrefl _ (hs.lt_of_transGen (.head' hforward hpath))
      · obtain ⟨hne, hmem⟩ := hnodup.mem_erase_iff.1 hp
        obtain rfl := hahead p hmem hpath
        rcases Relation.reflTransGen_iff_eq_or_transGen.1 hpath with rfl | htrans
        · exact hne rfl
        · exact hready.2 p hmem htrans
    · rw [visitsOf_append]
      by_cases heq : id = other
      · subst heq
        simp [hnew id hid, visitsOf_singleton_self]
      · simpa [visitsOf_singleton_of_ne heq] using h.once other
    · by_cases hearly : i < log.length
      · rw [List.getElem?_append_left hearly] at hi
        obtain ⟨j, hlt, earlier, hj⟩ := h.ordered i other found hi source hsource hedge
        exact ⟨j, hlt, earlier, by rwa [List.getElem?_append_left (by omega)]⟩
      · -- This is the visit of the turn, and the source has been visited before it.
        rw [List.getElem?_append_right (by omega)] at hi
        obtain ⟨hzero, hi⟩ := List.getElem?_eq_some_iff.1 hi
        have hi : (id, visit) = (other, found) := by simpa using hi
        obtain ⟨rfl, rfl⟩ := Prod.mk.inj hi
        have hvisited := h.visited_of_ready hacyclic htraced hready hid hsource hedge
        obtain ⟨earlier, hearlier⟩ := Option.isSome_iff_exists.1 hvisited
        rw [htraced.latest source] at hearlier
        obtain ⟨entry, hentry, rfl⟩ := List.mem_map.1 (List.mem_of_getLast? hearlier)
        obtain ⟨hmem, hsame⟩ := List.mem_filter.1 hentry
        obtain ⟨j, hj⟩ := List.mem_iff_getElem?.1 hmem
        have hlt : j < log.length := (List.getElem?_eq_some_iff.1 hj).1
        obtain ⟨found, earlier⟩ := entry
        obtain rfl : found = source := of_decide_eq_true hsame
        exact ⟨j, by omega, earlier, by rwa [List.getElem?_append_left hlt]⟩

end Solver

namespace Analysis

variable {V D : Type} [AbstractValue V] [EntityState D V] [BEq D]

end Analysis

end HeapFlow
