import HeapFlow.Client.PointsTo
import HeapFlow.Proofs.Environment.Congruence
import HeapFlow.Proofs.Solver.Invariant

/-! # Tracked storage stays tracked

Storage that the points-to analysis has once bound stays bound: assignments and calls change what
storage refers to, but they do not drop it, and where states meet all storage is kept that any of
them binds (`PointsToAnalysis.maintains_contains`).  So the evaluation of an operation keeps all
bindings, even though it goes back to an earlier state where alternatives begin, and so does every
path that control may take (`Routine.analyze_contains`).
-/
namespace HeapFlow

namespace PointsToAnalysis

variable {e : Entity}

theorem contains_resetEntities {condition : Entity → Bool} {state : PointsToState}
    (h : state.contains e = true) :
    (pointsToAnalysis.resetEntities condition state).contains e = true :=
  (Environment.isSome_get?_mapValues _ e).trans h

theorem contains_bindSelf {routine : Routine} {state : PointsToState}
    (h : state.contains e = true) : (bindSelf routine state).contains e = true := by
  unfold bindSelf
  split
  · exact state.isSome_get?_insert _ _ h
  · exact h

/-- **Whatever the points-to analysis does to a state, storage that is bound stays bound.** -/
theorem maintains_contains (routine : Routine) (e : Entity) :
    pointsToAnalysis.Maintains (.ofState routine fun state => state.contains e = true) :=
  Analysis.maintains_ofState (fun h => h) contains_bindSelf
    (fun h => Environment.isSome_get?_insert _ _ _ (contains_resetEntities h))
    contains_resetEntities fun h _ => Environment.contains_mergeWith (.inl h)

/-- The evaluation of an operation keeps all storage that is bound. -/
theorem contains_evaluate (operation : Operation) (m : Machine PointsTo PointsToState)
    (h : m.data.contains e = true) :
    (outcome (pointsToAnalysis.evaluate operation) m).2.data.contains e = true :=
  (Analysis.preserves_evaluate (maintains_contains m.routine e) trivial m ⟨rfl, h, trivial⟩).2.state

/-- Storage that is bound where a path begins is bound where it ends. -/
theorem persists_contains {I : Invariant PointsTo PointsToState} :
    pointsToAnalysis.Persists I fun state => state.contains e = true where
  merge _ _ h := Environment.contains_mergeWith h
  widen _ _ h := Environment.contains_widenWith (.inl h)
  beq _ _ hsame h := ((Environment.sameBindings_of_beq hsame).contains e).trans h

end PointsToAnalysis

namespace Routine

open PointsToAnalysis

variable {routine : Routine} {options : Options} {e : Entity}

/-- A block keeps all storage that is bound. -/
theorem contains_exit {id : BlockId} {visit : Visit PointsToState}
    (hinterpreted : Solver.Interpreted pointsToAnalysis routine.unrestricted id visit)
    (h : visit.entry.contains e = true) : visit.exit.contains e = true := by
  obtain ⟨block, machine, -, hmachine, heq⟩ := hinterpreted.exists_machine
  rw [heq]
  exact (Solver.holds_interpret (maintains_contains routine e) (fun _ _ => trivial)
    ⟨hmachine.routine, h, trivial⟩).state

section Paths

variable (hlimit : (pointsToAnalysis.finalState routine options).overruns = [])
include hlimit

/-- Storage that is bound on exit from a block is bound on entry to all blocks that control may go
on to, in one step or more. -/
theorem contains_entry_of_path {source target : BlockId}
    (hpath : Relation.TransGen routine.graph.HasFeasibleEdge source target)
    {visit : Visit PointsToState}
    (hvisit : (pointsToAnalysis.finalState routine options).visits.get? source = some visit)
    (hexit : visit.exit.contains e = true) :
    ∃ found, (pointsToAnalysis.finalState routine options).visits.get? target = some found ∧
      found.entry.contains e = true := by
  obtain ⟨last, hpath, hedge⟩ := Relation.TransGen.tail'_iff.1 hpath
  have hkept : Relation.ReflTransGen (fun a b => routine.graph.HasFeasibleEdge a b ∧ True) source
      last := Relation.ReflTransGen.mono (fun _ _ hedge => ⟨hedge, trivial⟩) _ _ hpath
  have hA := pointsToAnalysis.upholds_unrestricted routine
  obtain ⟨visit', hvisit', hexit'⟩ := Analysis.exit_of_path hA persists_contains hlimit
    (fun _ h => contains_exit h) hkept ⟨visit, hvisit, hexit⟩
  exact Analysis.entry_of_edge hA persists_contains hlimit hedge hvisit' hexit'

/-- Storage that is bound on entry to the routine is bound on entry to all blocks that control may
reach. -/
theorem contains_entry_of_initial (h : (initialState routine).contains e = true) {id : BlockId}
    (hpath : Relation.ReflTransGen routine.graph.HasFeasibleEdge routine.graph.entry id) :
    ∃ visit, (pointsToAnalysis.finalState routine options).visits.get? id = some visit ∧
      visit.entry.contains e = true := by
  obtain ⟨visit, hvisit⟩ := Option.isSome_iff_exists.1
    ((Analysis.isSome_visits_iff hlimit).2 (.entry : routine.graph.Reached routine.graph.entry))
  have hA := pointsToAnalysis.upholds_unrestricted routine
  have hentry : visit.entry.contains e = true :=
    Analysis.entry_of_first hA persists_contains h hvisit
  rcases Relation.reflTransGen_iff_eq_or_transGen.1 hpath with rfl | hpath
  · exact ⟨visit, hvisit, hentry⟩
  · have hinterpreted := (Analysis.upheld_finalState hA options).visits hvisit
    exact contains_entry_of_path hlimit hpath hvisit (contains_exit hinterpreted hentry)

end Paths

/-- **Tracked storage stays tracked.**  The evaluation of an operation, in whatever state, keeps all
storage that is bound.  If the analysis of a routine does not reach the limit, then what is bound
initially is bound on entry to each block that control may reach, and what is bound on exit from a
block is bound on entry to each block that a path of edges that control may take leads to. -/
theorem analyze_contains (hlimit : (routine.analyze options).flow.reachedLimit = false) :
    (∀ (operation : Operation) (m : Machine PointsTo PointsToState) (e : Entity),
      m.data.contains e = true →
        (outcome (pointsToAnalysis.evaluate operation) m).2.data.contains e = true) ∧
    (∀ e id, (initialState routine).contains e = true →
      Relation.ReflTransGen routine.graph.HasFeasibleEdge routine.graph.entry id →
        ∃ state, (routine.analyze options).flow.entryState? id = some state ∧
          state.contains e = true) ∧
    (∀ e source target exit, Relation.TransGen routine.graph.HasFeasibleEdge source target →
      (routine.analyze options).flow.exitState? source = some exit → exit.contains e = true →
        ∃ state, (routine.analyze options).flow.entryState? target = some state ∧
          state.contains e = true) := by
  have hlimit := (Analysis.reachedLimit_eq_false_iff pointsToAnalysis routine options).1 hlimit
  refine ⟨fun operation m e h => contains_evaluate operation m h, fun e id h hpath => ?_,
    fun e source target exit hpath hexit h => ?_⟩
  · obtain ⟨visit, hvisit, hentry⟩ := contains_entry_of_initial hlimit h hpath
    exact ⟨visit.entry, Option.map_eq_some_iff.2 ⟨visit, hvisit, rfl⟩, hentry⟩
  · obtain ⟨visit, hvisit, rfl⟩ := Option.map_eq_some_iff.1 hexit
    obtain ⟨found, hfound, hentry⟩ := contains_entry_of_path hlimit hpath hvisit h
    exact ⟨found.entry, Option.map_eq_some_iff.2 ⟨found, hfound, rfl⟩, hentry⟩

/-- A parameter that refers to an object on entry. -/
def relayedParameter : Symbol := .parameter ⟨1⟩ "node" 0 .byValue (.reference "Node")

/-- A local variable that the parameter is assigned to. -/
def relayedVariable : Symbol := .localVariable ⟨2⟩ "last" (.reference "Node")

/-- A routine that assigns the parameter to the local variable on one of two paths, and then goes
through a loop. -/
def relayRoutine : Routine where
  name := ""
  containingType? := none
  parameters := [relayedParameter]
  returnType := .void
  graph := ⟨[⟨⟨0⟩, [], none, [.when ⟨1⟩ true, .when ⟨2⟩ false]⟩,
    ⟨⟨1⟩, [.ofForm ⟨2⟩ (.simpleAssignment (.ofForm ⟨0⟩ (.localReference relayedVariable))
      (.ofForm ⟨1⟩ (.parameterReference relayedParameter)))], none, [.always ⟨2⟩]⟩,
    ⟨⟨2⟩, [], none, [.when ⟨2⟩ true, .when ⟨3⟩ false]⟩, ⟨⟨3⟩, [], none, []⟩], by simp⟩

/-- At the end the routine still knows of the parameter, and of the local variable that only one of
the paths assigns. -/
theorem relayRoutine_contains :
    (∃ state, (relayRoutine.analyze {}).flow.entryState? ⟨3⟩ = some state ∧
      state.contains (.ofParameter relayedParameter) = true) ∧
    ∃ state, (relayRoutine.analyze {}).flow.entryState? ⟨3⟩ = some state ∧
      state.contains (.ofLocal relayedVariable) = true := by
  have hedge : ∀ {source target}, (relayRoutine.graph.canFlow source target = true ∧
      relayRoutine.graph.contains target = true) →
        relayRoutine.graph.HasFeasibleEdge source target := relayRoutine.graph.hasFeasibleEdge_iff.2
  have hkept := analyze_contains
    (by decide : (relayRoutine.analyze {}).flow.reachedLimit = false)
  have hpath : Relation.TransGen relayRoutine.graph.HasFeasibleEdge ⟨1⟩ ⟨3⟩ :=
    .tail (.single (hedge (by decide : _ ∧ relayRoutine.graph.contains ⟨2⟩ = true)))
      (hedge (by decide))
  obtain ⟨exit, hexit, hbound⟩ : ∃ exit, (relayRoutine.analyze {}).flow.exitState? ⟨1⟩ = some exit ∧
      exit.contains (.ofLocal relayedVariable) = true := by
    have hexit : ((relayRoutine.analyze {}).flow.exitState? ⟨1⟩).map
        (·.contains (.ofLocal relayedVariable)) = some true := by decide
    exact Option.map_eq_some_iff.1 hexit
  exact ⟨hkept.2.1 _ _ (by decide) (hpath.to_reflTransGen.head (hedge (by decide))),
    hkept.2.2 _ _ _ exit hpath hexit hbound⟩

end Routine
end HeapFlow
