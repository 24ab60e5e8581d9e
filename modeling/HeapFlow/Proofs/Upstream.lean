import HeapFlow.Flow.Solver
import HeapFlow.Proofs.Schedule

/-! # Blocks are taken up after what is upstream of them

A position is upstream of another one if forward edges of the graph lead from it to the other one
(`ControlFlowGraph.Upstream`).  The schedule knows the forward edges as a table of predecessors, and
they are those of the graph (`Schedule.transGen_ofGraph_iff`).

The search for pending ancestors finds out whether a pending position is upstream, and each step of
the solver takes up a position that no pending one is upstream of (`Schedule.TakesUp`).  There is
always such a position, since the lowest pending one is upstream of all that it leads to
(`Schedule.takeNext?_sees_upstream`).
-/
namespace HeapFlow

namespace ControlFlowGraph

variable (graph : ControlFlowGraph)

/-- There is an edge from the block at the first position of the reverse postorder to the block at
the second one, which is higher. -/
def ForwardEdge (p q : Nat) : Prop :=
  p < q ∧ ∃ source target, graph.reversePostorder[p]? = some source ∧
    graph.reversePostorder[q]? = some target ∧ target ∈ graph.successors source

/-- A chain of one or more forward edges leads from the first position to the second one. -/
def Upstream (p q : Nat) : Prop := Relation.TransGen graph.ForwardEdge p q

end ControlFlowGraph

namespace Solver

variable {V D : Type} [AbstractValue V] [EntityState D V] [BEq D]

/-- A step takes a position off the worklist and gives the block there its turn. -/
theorem step?_eq_map_takeNext? (A : Analysis V D) (options : Options) (schedule : Schedule)
    (first : D) (state : State V D) :
    step? A options schedule first state =
      (schedule.takeNext? options.worklistOrder state.pending).map fun taken =>
        giveTurn A options schedule first { state with pending := taken.2 } taken.1 := by
  rw [step?, Schedule.takeNext?, Option.map_map]
  rfl

end Solver

namespace Schedule

variable {graph : ControlFlowGraph}

theorem transGen_ofGraph_iff {p q : Nat} :
    Relation.TransGen (ofGraph graph).Forward p q ↔ graph.Upstream p q := by
  have hforward : (ofGraph graph).Forward = graph.ForwardEdge :=
    funext fun p => funext fun q => propext ((ofGraph_sound graph).forward_iff p q)
  rw [hforward, ControlFlowGraph.Upstream]

variable {pending : List Nat}

/-- The search for pending ancestors finds one exactly if a pending position is upstream. -/
theorem hasPendingAncestor_ofGraph_iff (hasc : pending.Pairwise (· < ·)) {position : Nat} :
    (ofGraph graph).hasPendingAncestor pending position = true ↔
      ∃ p ∈ pending, graph.Upstream p position := by
  rw [(ofGraph_sound graph).hasPendingAncestor_iff hasc]
  simp only [transGen_ofGraph_iff]

/-- The given position is taken off the worklist, and the others are left: nothing pending is
upstream of it, and in its order it is the first such position. -/
structure TakesUp (graph : ControlFlowGraph) (worklistOrder : WorklistOrder) (pending : List Nat)
    (position : Nat) (rest : List Nat) : Prop where
  mem : position ∈ pending
  ascending : rest.Pairwise (· < ·)
  mem_rest_iff : ∀ p, p ∈ rest ↔ p ∈ pending ∧ p ≠ position
  not_upstream : ∀ p ∈ pending, ¬graph.Upstream p position
  earliest : worklistOrder = .earliestFirst → ∀ p ∈ pending, position ≤ p
  latest : worklistOrder = .latestFirst →
    ∀ p ∈ pending, position < p → ∃ q ∈ pending, graph.Upstream q p

/-- Everything that is later in the ascending worklist has a pending ancestor, if the latest
position without one is taken up. -/
theorem hasPendingAncestor_of_next? {schedule : Schedule} {position p : Nat}
    (hasc : pending.Pairwise (· < ·))
    (hnext : schedule.next? .latestFirst pending = some position) (hp : p ∈ pending)
    (hlt : position < p) : schedule.hasPendingAncestor pending p = true := by
  obtain ⟨-, later, earlier, hsplit, hlater⟩ := List.find?_eq_some_iff_append.1 hnext
  have hdescending : (later ++ position :: earlier).Pairwise (· > ·) := by
    rw [← hsplit]
    exact List.pairwise_reverse.2 hasc
  have hmem : p ∈ later ++ position :: earlier := by
    rw [← hsplit]
    exact List.mem_reverse.2 hp
  rcases List.mem_append.1 hmem with hp | hp
  · simpa using hlater p hp
  · have hle : p ≤ position := by
      rcases List.mem_cons.1 hp with rfl | hp
      · exact Nat.le_refl p
      · have htail := (List.pairwise_append.1 hdescending).2.1
        exact Nat.le_of_lt ((List.pairwise_cons.1 htail).1 p hp)
    omega

theorem takesUp_of_next? {worklistOrder : WorklistOrder} {position : Nat}
    (hasc : pending.Pairwise (· < ·))
    (hnext : (ofGraph graph).next? worklistOrder pending = some position) :
    TakesUp graph worklistOrder pending position (pending.erase position) := by
  have hnodup : pending.Nodup := hasc.imp fun hlt => Nat.ne_of_lt hlt
  obtain ⟨hmem, hready⟩ := (ofGraph_sound graph).ready_of_next? hasc hnext
  refine ⟨hmem, hasc.sublist List.erase_sublist, fun p => ?_, fun p hp hup => ?_, ?_, ?_⟩
  · rw [hnodup.mem_erase_iff, and_comm]
  · exact hready p hp (transGen_ofGraph_iff.2 hup)
  · rintro rfl p hp
    obtain ⟨rest, rfl⟩ := List.head?_eq_some_iff.1 hnext
    rcases List.mem_cons.1 hp with rfl | hp
    · exact Nat.le_refl p
    · exact Nat.le_of_lt ((List.pairwise_cons.1 hasc).1 p hp)
  · rintro rfl p hp hlt
    exact (hasPendingAncestor_ofGraph_iff hasc).1 (hasPendingAncestor_of_next? hasc hnext hp hlt)

/-- **Blocks see what is upstream.**  The search for pending ancestors is exact, and as long as
positions are pending, either order takes one off the worklist that nothing pending is upstream
of. -/
theorem takeNext?_sees_upstream (graph : ControlFlowGraph) {pending : List Nat}
    (hasc : pending.Pairwise (· < ·)) :
    (∀ position, (ofGraph graph).hasPendingAncestor pending position = true ↔
      ∃ p ∈ pending, graph.Upstream p position) ∧
    ∀ worklistOrder, pending ≠ [] → ∃ position rest,
      (ofGraph graph).takeNext? worklistOrder pending = some (position, rest) ∧
        TakesUp graph worklistOrder pending position rest := by
  refine ⟨fun position => hasPendingAncestor_ofGraph_iff hasc, fun worklistOrder hpending => ?_⟩
  have hsome : (ofGraph graph).next? worklistOrder pending ≠ none :=
    fun hnone => hpending (((ofGraph_sound graph).next?_eq_none_iff hasc).1 hnone)
  obtain ⟨position, hnext⟩ := Option.ne_none_iff_exists'.1 hsome
  refine ⟨position, pending.erase position, ?_, takesUp_of_next? hasc hnext⟩
  rw [takeNext?, hnext]
  rfl

/-- A loop of the blocks 1, 2 and 3 behind the entry, and another block behind the entry. -/
def loopBesideBlock : ControlFlowGraph :=
  ⟨[⟨⟨0⟩, [], none, [.always ⟨1⟩, .always ⟨4⟩]⟩, ⟨⟨1⟩, [], none, [.always ⟨2⟩]⟩,
    ⟨⟨2⟩, [], none, [.always ⟨3⟩]⟩, ⟨⟨3⟩, [], none, [.always ⟨1⟩]⟩, ⟨⟨4⟩, [], none, []⟩], by simp⟩

/-- The end of the loop waits for its start, although the block between them is not pending. -/
theorem loopBesideBlock_takesUp :
    [1, 2, 4].Pairwise (· < ·) ∧ [1, 2, 4] ≠ ([] : List Nat) ∧
      (∃ p ∈ [1, 2, 4], loopBesideBlock.Upstream p 4) ∧
      (ofGraph loopBesideBlock).takeNext? .latestFirst [1, 2, 4] = some (2, [1, 4]) ∧
      TakesUp loopBesideBlock .latestFirst [1, 2, 4] 2 [1, 4] := by
  have hasc : [1, 2, 4].Pairwise (· < ·) := by decide
  obtain ⟨hancestor, htakes⟩ := takeNext?_sees_upstream loopBesideBlock hasc
  have htaken : (ofGraph loopBesideBlock).takeNext? .latestFirst [1, 2, 4] = some (2, [1, 4]) := by
    decide
  refine ⟨hasc, by decide, (hancestor 4).1 (by decide), htaken, ?_⟩
  obtain ⟨position, rest, hnext, hresult⟩ := htakes .latestFirst (by decide)
  obtain ⟨rfl, rfl⟩ := Prod.mk.inj (Option.some.inj (htaken.symm.trans hnext))
  exact hresult

end Schedule
end HeapFlow
