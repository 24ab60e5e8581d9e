import HeapFlow.Proofs.Schedule

/-! # Blocks that the entry does not reach

A graph may have blocks that the entry does not reach, and these blocks may have edges to the ones
that it does reach.  They are left out by the traversal that gives the reverse postorder, and by the
traversals that find the loop anchors, since a traversal only depends on the edges between nodes
that it comes to (`Traversal.visit_congr`).  They are listed among the predecessors of other blocks,
but without a position in the order (`ControlFlowGraph.InsertsUnreachable.predecessors_filter`).

So if unreachable blocks are inserted into a graph, then its schedule stays the same but for the
graph itself (`ControlFlowGraph.InsertsUnreachable.ofGraph_eq`).
-/
namespace HeapFlow

theorem filter_eraseDups {α : Type} [DecidableEq α] (p : α → Bool) (list : List α) :
    list.eraseDups.filter p = (list.filter p).eraseDups := by
  induction hn : list.length using Nat.strong_induction_on generalizing list with
  | h n ih =>
    cases list with
    | nil => rfl
    | cons x list =>
      have hlt : (list.filter fun y => !y == x).length < n := by
        have hle := List.length_filter_le (fun y => !y == x) list
        rw [List.length_cons] at hn
        omega
      rw [List.eraseDups_cons]
      by_cases hx : p x = true
      · rw [List.filter_cons_of_pos hx, List.filter_cons_of_pos hx, List.eraseDups_cons,
          ih _ hlt _ rfl, List.filter_comm]
      · -- The repetitions of a node that is left out are left out anyway.
        have hrest : (list.filter fun y => !y == x).filter p = list.filter p := by
          rw [List.filter_filter]
          refine List.filter_congr fun y _ => ?_
          by_cases heq : y = x
          · simp [heq, hx]
          · simp [heq]
        rw [List.filter_cons_of_neg hx, List.filter_cons_of_neg hx, ih _ hlt _ rfl, hrest]

/-- A list is mapped in the same way after elements are left out that are not mapped to anything. -/
theorem filterMap_of_filter {α β : Type} {p : α → Bool} {f : α → Option β}
    (hf : ∀ x, p x = false → f x = none) (list : List α) :
    (list.filter p).filterMap f = list.filterMap f := by
  rw [List.filterMap_filter]
  refine List.filterMap_congr fun x _ => ?_
  cases hp : p x with
  | false => simp [hf x hp]
  | true => simp

namespace ControlFlowGraph

/-- The second graph is the first one with further blocks, whose ids are new, somewhere between the
first and the last block.  The entry does not reach any of them. -/
structure InsertsUnreachable (graph graph' : ControlFlowGraph) : Prop where
  kept : graph'.blocks.filter (fun block => graph.contains block.id) = graph.blocks
  first : graph.contains graph'.entry = true
  last : graph.contains graph'.exit = true
  unreachable : ∀ id, graph.contains id = false →
    ¬Relation.ReflTransGen (fun a b => b ∈ graph'.successors a) graph'.entry id

/-- Blocks that are not listed in reverse postorder are not reached. -/
theorem unreachable_of_reversePostorder {graph graph' : ControlFlowGraph}
    (h : ∀ id ∈ graph'.reversePostorder, graph.contains id = true) :
    ∀ id, graph.contains id = false →
      ¬Relation.ReflTransGen (fun a b => b ∈ graph'.successors a) graph'.entry id := by
  intro id hnew hreaches
  rw [h id (graph'.mem_reversePostorder_iff.2 hreaches)] at hnew
  cases hnew

namespace InsertsUnreachable

variable {graph graph' : ControlFlowGraph} (h : graph.InsertsUnreachable graph')
include h

/-! ## Blocks and edges -/

theorem entry_eq : graph'.entry = graph.entry := by
  have hfirst : graph.contains (graph'.blocks.head graph'.nonempty).id = true := h.first
  have hhead : graph'.blocks = graph'.blocks.head graph'.nonempty :: graph'.blocks.tail :=
    (List.cons_head_tail graph'.nonempty).symm
  have hkept := h.kept
  rw [hhead, List.filter_cons_of_pos (by simpa using hfirst)] at hkept
  have hsome := congrArg List.head? hkept
  rw [List.head?_cons, List.head?_eq_some_head graph.nonempty, Option.some.injEq] at hsome
  exact congrArg Block.id hsome

theorem exit_eq : graph'.exit = graph.exit := by
  have hlast : graph.contains (graph'.blocks.getLast graph'.nonempty).id = true := h.last
  have hconcat : graph'.blocks =
      graph'.blocks.dropLast ++ [graph'.blocks.getLast graph'.nonempty] :=
    (List.dropLast_append_getLast graph'.nonempty).symm
  have hkept := h.kept
  rw [hconcat, List.filter_append, List.filter_cons_of_pos (by simpa using hlast)] at hkept
  have hsome := congrArg List.getLast? hkept
  rw [List.filter_nil, List.getLast?_append, List.getLast?_singleton,
    List.getLast?_eq_some_getLast graph.nonempty] at hsome
  exact congrArg Block.id (Option.some.inj hsome)

theorem contains_of_contains {id : BlockId} (hid : graph.contains id = true) :
    graph'.contains id = true := by
  obtain ⟨block, hblock, rfl⟩ := List.mem_map.1 ((graph.contains_iff id).1 hid)
  rw [← h.kept] at hblock
  exact (graph'.contains_iff _).2 (List.mem_map_of_mem (List.mem_filter.1 hblock).1)

/-- The blocks of an id that is not new are the same. -/
theorem filter_eq {p : Block → Bool}
    (hp : ∀ block, p block = true → graph.contains block.id = true) :
    graph'.blocks.filter p = graph.blocks.filter p := by
  rw [← h.kept, List.filter_filter]
  refine List.filter_congr fun block _ => ?_
  cases hblock : p block with
  | false => rfl
  | true => simp [hp block hblock]

theorem block?_eq {id : BlockId} (hid : graph.contains id = true) :
    graph'.block? id = graph.block? id := by
  have hlast : ∀ g : ControlFlowGraph,
      g.block? id = (g.blocks.filter fun block => block.id = id).getLast? := by
    intro g
    rw [block?, ← List.head?_filter, List.filter_reverse, List.head?_reverse]
  rw [hlast, hlast, h.filter_eq fun block hblock => by rwa [of_decide_eq_true hblock]]

/-! ## What the entry reaches -/

theorem contains_of_reached {id : BlockId} (hid : id ∈ graph'.reversePostorder) :
    graph.contains id = true := by
  rw [mem_reversePostorder_iff] at hid
  cases hnew : graph.contains id with
  | true => rfl
  | false => exact absurd hid (h.unreachable id hnew)

theorem successors_eq {id : BlockId} (hid : id ∈ graph'.reversePostorder) :
    graph'.successors id = graph.successors id := by
  have hknown := h.contains_of_reached hid
  have hedges : graph'.blocks.filter (fun block => block.id = id) =
      graph.blocks.filter fun block => block.id = id :=
    h.filter_eq fun block hblock => by rwa [of_decide_eq_true hblock]
  have hsuccessors : ∀ target ∈ graph'.successors id, graph.contains target = true :=
    fun target htarget =>
      h.contains_of_reached (graph'.mem_reversePostorder_of_mem_successors hid htarget)
  unfold successors at hsuccessors ⊢
  rw [hedges] at hsuccessors ⊢
  refine List.filter_congr fun target htarget => ?_
  cases hold : graph.contains target with
  | true => exact h.contains_of_contains hold
  | false =>
    cases hnew : graph'.contains target with
    | false => rfl
    | true =>
      rw [hsuccessors target (List.mem_filter.2 ⟨htarget, hnew⟩)] at hold
      cases hold

/-- Traversals from the entry along edges that are selected by their targets are the same. -/
theorem visit_eq (selects : BlockId → Bool) :
    Traversal.visit (fun id => (graph'.successors id).filter selects) graph'.blocks.length .empty
        graph'.entry =
      Traversal.visit (fun id => (graph.successors id).filter selects) graph.blocks.length .empty
        graph.entry := by
  let nodes := graph'.reversePostorder.toFinset
  have hmem : ∀ {id}, id ∈ nodes ↔ id ∈ graph'.reversePostorder := List.mem_toFinset
  have hclosed : ∀ x ∈ nodes, ∀ y ∈ (graph.successors x).filter selects, y ∈ nodes := by
    intro x hx y hy
    have hedge := (List.mem_filter.1 hy).1
    rw [← h.successors_eq (hmem.1 hx)] at hedge
    exact hmem.2 (graph'.mem_reversePostorder_of_mem_successors (hmem.1 hx) hedge)
  have hentry : graph.entry ∈ nodes := by
    rw [← h.entry_eq, hmem, mem_reversePostorder_iff]
  have hcard : ∀ g : ControlFlowGraph, (∀ id ∈ nodes, g.contains id = true) →
      (Traversal.unseen nodes .empty).card ≤ g.blocks.length := fun g hg =>
    g.card_unseen_le fun id hid => g.mem_idSet_iff.2 (hg id hid)
  rw [h.entry_eq]
  exact Traversal.visit_congr hclosed (fun x hx => by rw [h.successors_eq (hmem.1 hx)]) _ _ _ _
    hentry (hcard graph fun id hid => h.contains_of_reached (hmem.1 hid))
    (hcard graph' fun id hid => graph'.contains_of_mem_reversePostorder (hmem.1 hid))

theorem reversePostorder_eq : graph'.reversePostorder = graph.reversePostorder := by
  have hall : ∀ g : ControlFlowGraph,
      g.successors = fun id => (g.successors id).filter fun _ => true := fun g => by simp
  unfold reversePostorder
  rw [hall graph', hall graph, h.visit_eq]

theorem reachableAvoiding_eq (id : BlockId) :
    graph'.reachableAvoiding id = graph.reachableAvoiding id := by
  unfold reachableAvoiding
  rw [h.visit_eq, h.entry_eq]

/-! ## The schedule -/

theorem ids_filter : graph'.ids.filter graph.contains = graph.ids := by
  rw [ids, ids, filter_eraseDups, List.filter_map]
  exact congrArg (fun blocks => (blocks.map Block.id).eraseDups) h.kept

theorem predecessors_filter {id : BlockId} (hid : graph.contains id = true) :
    (graph'.predecessors id).filter graph.contains = graph.predecessors id := by
  have hblocks : (graph'.blocks.filter fun block => block.successors.any (·.target = id)).filter
      (fun block => graph.contains block.id) =
        graph.blocks.filter fun block => block.successors.any (·.target = id) := by
    rw [List.filter_comm, h.kept]
  rw [predecessors, predecessors, if_pos hid, if_pos (h.contains_of_contains hid), filter_eraseDups,
    List.filter_map]
  exact congrArg (fun blocks => (blocks.map Block.id).eraseDups) hblocks

/-- What is found out from the predecessors is the same if nothing is found out from new blocks. -/
theorem filterMap_predecessors {β : Type} {f : BlockId → Option β}
    (hf : ∀ id, graph.contains id = false → f id = none) {id : BlockId}
    (hid : graph.contains id = true) :
    (graph'.predecessors id).filterMap f = (graph.predecessors id).filterMap f := by
  rw [← h.predecessors_filter hid, filterMap_of_filter hf]

theorem anchorsLoop_eq {id : BlockId} (hid : graph.contains id = true) :
    graph'.anchorsLoop graph.reversePostorder id =
      graph.anchorsLoop graph.reversePostorder id := by
  unfold anchorsLoop
  rw [h.reachableAvoiding_eq, ← h.predecessors_filter hid, List.any_filter]
  refine congrArg (graph'.predecessors id).any (funext fun predecessor => ?_)
  by_cases hreached : predecessor ∈ graph.reversePostorder
  · rw [graph.contains_of_mem_reversePostorder hreached, Bool.true_and]
  · simp [hreached]

/-- A loop is not anchored at a block that the entry does not reach. -/
theorem anchorsLoop_new {id : BlockId} (hid : graph.contains id = false) :
    graph'.anchorsLoop graph.reversePostorder id = false := by
  refine List.any_eq_false.2 fun predecessor hpredecessor hanchors => ?_
  simp only [Bool.and_eq_true, decide_eq_true_eq] at hanchors
  rw [← h.reversePostorder_eq] at hanchors
  have hreached := graph'.mem_reversePostorder_of_mem_successors hanchors.1
    (graph'.mem_predecessors_iff.1 hpredecessor)
  rw [h.contains_of_reached hreached] at hid
  cases hid

theorem loopAnchors_eq : graph'.loopAnchors = graph.loopAnchors := by
  unfold loopAnchors
  rw [h.reversePostorder_eq, ← h.ids_filter, List.filter_filter]
  refine List.filter_congr fun id _ => ?_
  cases hid : graph.contains id with
  | true => rw [h.anchorsLoop_eq hid, Bool.and_true]
  | false => rw [h.anchorsLoop_new hid, Bool.and_false]

theorem earlier_eq {id : BlockId} (hid : graph.contains id = true) (position : Nat) :
    Schedule.earlier graph' graph.reversePostorder id position =
      Schedule.earlier graph graph.reversePostorder id position := by
  refine h.filterMap_predecessors (fun predecessor hnew => ?_) hid
  have hnone : Schedule.positionIn? graph.reversePostorder predecessor = none := by
    rw [Option.eq_none_iff_forall_ne_some]
    intro p hp
    rw [Schedule.positionIn?_eq_some_iff graph.reversePostorder_nodup] at hp
    rw [graph.contains_of_mem_reversePostorder (List.mem_of_getElem? hp)] at hnew
    cases hnew
  rw [hnone]
  rfl

/-- **The schedule stays the same when unreachable blocks are inserted.** -/
theorem ofGraph_eq : Schedule.ofGraph graph' = { Schedule.ofGraph graph with graph := graph' } := by
  have hforward : graph.reversePostorder.zipIdx.map
      (fun x => Schedule.earlier graph' graph.reversePostorder x.1 x.2) =
        graph.reversePostorder.zipIdx.map fun x =>
          Schedule.earlier graph graph.reversePostorder x.1 x.2 :=
    List.map_congr_left fun x hx => h.earlier_eq
      (graph.contains_of_mem_reversePostorder (List.fst_mem_of_mem_zipIdx hx)) x.2
  simp only [Schedule.ofGraph, h.reversePostorder_eq, h.loopAnchors_eq, hforward]

end InsertsUnreachable
end ControlFlowGraph
end HeapFlow
