import HeapFlow.Proofs.ControlFlow.Paths

/-! # Reverse postorder

A list of blocks is in reverse postorder (`ControlFlowGraph.IsReversePostorder`) if it starts with
the entry, lists the blocks that the entry reaches once each and no others, and has every block
before those that it has an edge to.  A graph with loops has no such order, so an edge may lead back
to a block from which its source can be reached.

The traversal from the entry finishes a block after all that it comes to from there, except for the
blocks that the traversal is still in the middle of, and these reach the block.  So the blocks in
the opposite order are in reverse postorder, whatever the graph looks like
(`ControlFlowGraph.reversePostorder_isReversePostorder`).
-/
namespace HeapFlow
namespace ControlFlowGraph

variable (graph : ControlFlowGraph)

/-- The listed blocks are those that the entry reaches, and edges go forward unless they close a
cycle. -/
structure IsReversePostorder (order : List BlockId) : Prop where
  nodup : order.Nodup
  head? : order.head? = some graph.entry
  mem_iff : ∀ id, id ∈ order ↔ graph.Reaches graph.entry id
  forward : ∀ source target, graph.Reaches graph.entry source → graph.HasEdge source target →
    ¬graph.Reaches target source → order.idxOf source < order.idxOf target

theorem reaches_iff_successors {source target : BlockId} : graph.Reaches source target ↔
    Relation.ReflTransGen (fun a b => b ∈ graph.successors a) source target := by
  simp only [reaches_iff, mem_successors_iff]

theorem mem_reversePostorder_iff_reaches {id : BlockId} :
    id ∈ graph.reversePostorder ↔ graph.Reaches graph.entry id := by
  rw [mem_reversePostorder_iff, reaches_iff_successors]

/-- An edge that does not close a cycle goes forward. -/
theorem idxOf_lt_of_hasEdge {source target : BlockId} (hsource : source ∈ graph.reversePostorder)
    (hedge : graph.HasEdge source target) (hback : ¬graph.Reaches target source) :
    graph.reversePostorder.idxOf source < graph.reversePostorder.idxOf target := by
  rw [reaches_iff_successors] at hback
  obtain ⟨q, hlt, hq⟩ := (graph.lt_or_reaches_of_mem_successors
    (List.getElem?_idxOf hsource) (graph.mem_successors_iff.2 hedge)).resolve_right hback
  obtain ⟨hlength, rfl⟩ := List.getElem?_eq_some_iff.1 hq
  rwa [graph.reversePostorder_nodup.idxOf_getElem]

/-- **The blocks that the entry reaches are listed in reverse postorder.** -/
theorem reversePostorder_isReversePostorder : graph.IsReversePostorder graph.reversePostorder where
  nodup := graph.reversePostorder_nodup
  head? := by
    obtain ⟨rest, heq⟩ := graph.reversePostorder_eq_cons
    rw [heq, List.head?_cons]
  mem_iff _ := graph.mem_reversePostorder_iff_reaches
  forward _ _ hreached hedge hback :=
    graph.idxOf_lt_of_hasEdge (graph.mem_reversePostorder_iff_reaches.2 hreached) hedge hback

end ControlFlowGraph
end HeapFlow
