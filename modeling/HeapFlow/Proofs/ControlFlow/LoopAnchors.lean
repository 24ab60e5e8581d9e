import HeapFlow.Proofs.ControlFlow.ReversePostorder
import HeapFlow.Proofs.Schedule

/-! # Loop anchors

A block dominates another one if control cannot come to the other block without passing through it
(`ControlFlowGraph.Dominates`).  Whether it does is found out by a traversal that leaves the block
out: the blocks that it dominates are those that the traversal does not come to
(`ControlFlowGraph.dominates_iff`).  Blocks that the entry does not reach are dominated by all.

A loop is anchored at a block that dominates one of its predecessors, as long as the entry reaches
that predecessor.  A cycle need not pass through such a block, because control may enter a cycle at
several places.  If the cycle has a single way in, i.e. if one of its blocks dominates the whole
cycle, then that block is an anchor (`ControlFlowGraph.loopAnchors_anchor_cycles`).
-/
namespace HeapFlow
namespace ControlFlowGraph

variable (graph : ControlFlowGraph)

/-- Every path from the entry to the second id passes through the first one. -/
def Dominates (id target : BlockId) : Prop :=
  ∀ path, graph.IsPath graph.entry path target → id ∈ path

/-- Each of the listed blocks has an edge to the next one, and the last one to the first. -/
def IsCycle (cycle : List BlockId) : Prop :=
  ∃ first, cycle.head? = some first ∧ (cycle ++ [first]).IsChain graph.HasEdge

/-! ## Dominance -/

/-- A traversal that leaves out a block follows the paths that do not pass through the block. -/
theorem mem_reachableAvoiding_iff {id target : BlockId} :
    target ∈ graph.reachableAvoiding id ↔
      ∃ path, graph.IsPath graph.entry path target ∧ ∀ other ∈ path, other ≠ id := by
  rw [exists_isPath_iff, reachableAvoiding]
  split
  · next hentry => simp [hentry]
  · next hentry =>
    have hclosed : ∀ x ∈ graph.idSet, ∀ y ∈ (graph.successors x).filter (· ≠ id),
        y ∈ graph.idSet := fun x hx y hy =>
      graph.mem_idSet_of_mem_successors x hx y (List.mem_filter.1 hy).1
    rw [Traversal.mem_finished_visit_iff hclosed graph.entry_mem_idSet
      (graph.card_unseen_le (Finset.Subset.refl graph.idSet))]
    simp only [List.mem_filter, mem_successors_iff, decide_eq_true_eq]
    exact (and_iff_right hentry).symm

/-- A block dominates what cannot be reached without it. -/
theorem dominates_iff {id target : BlockId} :
    graph.Dominates id target ↔ target ∉ graph.reachableAvoiding id := by
  rw [mem_reachableAvoiding_iff]
  constructor
  · rintro h ⟨path, hpath, havoids⟩
    exact havoids id (h path hpath) rfl
  · intro h path hpath
    by_contra hid
    exact h ⟨path, hpath, fun other hother heq => hid (heq ▸ hother)⟩

/-- **Anchors dominate a predecessor.**  The predecessor has to be one that the entry reaches. -/
theorem mem_loopAnchors_iff {id : BlockId} :
    id ∈ graph.loopAnchors ↔ ∃ predecessor, graph.HasEdge predecessor id ∧
      graph.Reaches graph.entry predecessor ∧ graph.Dominates id predecessor := by
  have hanchors : graph.anchorsLoop graph.reversePostorder id = true ↔
      ∃ predecessor, graph.HasEdge predecessor id ∧
        graph.Reaches graph.entry predecessor ∧ graph.Dominates id predecessor := by
    simp only [anchorsLoop, List.any_eq_true, Bool.and_eq_true, decide_eq_true_eq,
      mem_predecessors_iff, mem_successors_iff, mem_reversePostorder_iff_reaches, dominates_iff]
  rw [loopAnchors, List.mem_filter, hanchors, and_iff_right_iff_imp]
  rintro ⟨predecessor, ⟨-, block, hblock, rfl⟩, -⟩
  exact List.mem_eraseDups.2 (List.mem_map_of_mem hblock)

/-! ## Cycles -/

section Cycle

variable {graph} {cycle : List BlockId} (h : graph.IsCycle cycle)
include h

/-- Every block of a cycle has a predecessor on the cycle. -/
theorem IsCycle.exists_hasEdge {id : BlockId} (hid : id ∈ cycle) :
    ∃ predecessor ∈ cycle, graph.HasEdge predecessor id := by
  obtain ⟨first, hhead, hchain⟩ := h
  obtain ⟨rest, rfl⟩ := List.head?_eq_some_iff.1 hhead
  -- The first block occurs once more at the end, so the block occurs behind some other one.
  have hlater : id ∈ rest ++ [first] := by simpa [or_comm] using hid
  obtain ⟨before, after, heq⟩ := List.append_of_mem hlater
  have hclosed : first :: rest ++ [first] = first :: before ++ id :: after := by
    rw [List.cons_append, heq, List.cons_append]
  obtain ⟨last, hlast⟩ : ∃ last, (first :: before).getLast? = some last :=
    ⟨_, List.getLast?_eq_some_getLast (List.cons_ne_nil first before)⟩
  have hedge : graph.HasEdge last id :=
    (List.isChain_append.1 (hclosed ▸ hchain)).2.2 last hlast id rfl
  have hmem : last ∈ first :: rest ++ [first] :=
    hclosed ▸ List.mem_append_left _ (List.mem_of_getLast? hlast)
  refine ⟨last, ?_, hedge⟩
  rcases List.mem_append.1 hmem with hmem | hmem
  · exact hmem
  · exact List.mem_cons.2 (.inl (List.mem_singleton.1 hmem))

/-- The blocks of a cycle reach each other. -/
theorem IsCycle.reaches {source target : BlockId} (hsource : source ∈ cycle)
    (htarget : target ∈ cycle) : graph.Reaches source target := by
  obtain ⟨first, hhead, hchain⟩ := h
  obtain ⟨rest, rfl⟩ := List.head?_eq_some_iff.1 hhead
  have hback : Relation.ReflTransGen graph.HasEdge source first :=
    hchain.backwards_induction (Relation.ReflTransGen graph.HasEdge · first) _
      (fun _ _ hedge hreaches => hreaches.head hedge) (fun _ => by rw [List.getLast_concat]) source
      (List.mem_append_left _ hsource)
  have hforth : Relation.ReflTransGen graph.HasEdge first target :=
    hchain.induction (Relation.ReflTransGen graph.HasEdge first) _
      (fun _ _ hedge hreaches => hreaches.tail hedge) (fun _ => .refl) target
      (List.mem_append_left _ htarget)
  exact reaches_iff.2 (hback.trans hforth)

/-- A block that dominates a cycle of which it is part anchors a loop. -/
theorem IsCycle.mem_loopAnchors {reached id : BlockId} (hreached : reached ∈ cycle)
    (hentry : graph.Reaches graph.entry reached) (hid : id ∈ cycle)
    (hdominates : ∀ other ∈ cycle, graph.Dominates id other) : id ∈ graph.loopAnchors := by
  obtain ⟨predecessor, hpredecessor, hedge⟩ := h.exists_hasEdge hid
  have haround := h.reaches hreached hpredecessor
  rw [reaches_iff] at hentry haround
  exact graph.mem_loopAnchors_iff.2 ⟨predecessor, hedge, reaches_iff.2 (hentry.trans haround),
    hdominates predecessor hpredecessor⟩

end Cycle

/-- **Loops are anchored.**  The anchors are the blocks that dominate one of their predecessors that
the entry reaches.  So every cycle that the entry reaches passes through an anchor, if one of its
blocks dominates all of them. -/
theorem loopAnchors_anchor_cycles :
    (∀ id, id ∈ graph.loopAnchors ↔ ∃ predecessor, graph.HasEdge predecessor id ∧
      graph.Reaches graph.entry predecessor ∧ graph.Dominates id predecessor) ∧
    ∀ cycle, graph.IsCycle cycle → (∃ id ∈ cycle, graph.Reaches graph.entry id) →
      (∃ id ∈ cycle, ∀ other ∈ cycle, graph.Dominates id other) →
        ∃ anchor ∈ cycle, anchor ∈ graph.loopAnchors := by
  refine ⟨fun _ => graph.mem_loopAnchors_iff, ?_⟩
  rintro cycle hcycle ⟨reached, hreached, hentry⟩ ⟨id, hid, hdominates⟩
  exact ⟨id, hid, hcycle.mem_loopAnchors hreached hentry hid hdominates⟩

/-- A loop around a loop of one block. -/
def nestedLoops : ControlFlowGraph :=
  ⟨[⟨⟨0⟩, [], none, [.always ⟨1⟩]⟩, ⟨⟨1⟩, [], none, [.always ⟨2⟩, .always ⟨4⟩]⟩,
    ⟨⟨2⟩, [], none, [.always ⟨2⟩, .always ⟨3⟩]⟩, ⟨⟨3⟩, [], none, [.always ⟨1⟩]⟩,
    ⟨⟨4⟩, [], none, []⟩], by simp⟩

/-- The outer loop can be entered in one place only. -/
theorem nestedLoops_anchored :
    nestedLoops.IsCycle [⟨2⟩, ⟨3⟩, ⟨1⟩] ∧ nestedLoops.Reaches nestedLoops.entry ⟨1⟩ ∧
      (∀ other ∈ ([⟨2⟩, ⟨3⟩, ⟨1⟩] : List BlockId), nestedLoops.Dominates ⟨1⟩ other) ∧
      ∃ anchor ∈ ([⟨2⟩, ⟨3⟩, ⟨1⟩] : List BlockId), anchor ∈ nestedLoops.loopAnchors := by
  have hcycle : nestedLoops.IsCycle [⟨2⟩, ⟨3⟩, ⟨1⟩] := ⟨⟨2⟩, rfl, by decide⟩
  have hreached : nestedLoops.Reaches nestedLoops.entry ⟨1⟩ :=
    ⟨[⟨0⟩, ⟨1⟩], by decide, rfl, rfl⟩
  have hdominates : ∀ other ∈ ([⟨2⟩, ⟨3⟩, ⟨1⟩] : List BlockId), nestedLoops.Dominates ⟨1⟩ other := by
    simp only [dominates_iff]
    decide
  exact ⟨hcycle, hreached, hdominates, nestedLoops.loopAnchors_anchor_cycles.2 _ hcycle
    ⟨⟨1⟩, by decide, hreached⟩ ⟨⟨1⟩, by decide, hdominates⟩⟩

/-- A cycle that control may enter at either of its blocks is not anchored. -/
example : (ControlFlowGraph.mk [⟨⟨0⟩, [], none, [.always ⟨1⟩, .always ⟨2⟩]⟩,
    ⟨⟨1⟩, [], none, [.always ⟨2⟩]⟩, ⟨⟨2⟩, [], none, [.always ⟨1⟩]⟩] (by simp)).loopAnchors = [] := by
  decide

end ControlFlowGraph
end HeapFlow
