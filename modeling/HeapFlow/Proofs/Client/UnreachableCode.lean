import HeapFlow.Client.PointsTo
import HeapFlow.Proofs.Solver.UnreachableBlocks

/-! # Unreachable code

The points-to analysis looks at the signature of a routine and at the blocks that it visits.  Code
that the entry does not reach has no influence on what it finds out about the routine, even if that
code leads to blocks that the entry does reach (`Routine.analyze_inserted`).
-/
namespace HeapFlow
namespace Routine

variable {routine : Routine} {graph' : ControlFlowGraph}

/-- The points-to analysis cannot tell apart routines of one signature. -/
theorem confuses_graph (routine : Routine) (graph' : ControlFlowGraph) :
    pointsToAnalysis.Confuses routine { routine with graph := graph' } where
  self := rfl
  returnType := rfl
  initialState := rfl
  defaultValue _ _ _ := rfl
  creationValue _ _ _ := rfl
  invocationValue _ _ _ _ := rfl
  conversionValue _ _ _ _ _ := rfl
  finalValue _ _ _ _ := rfl
  beforeStatement f hf := by
    subst hf
    rfl
  pointsTo _ _ _ := rfl

/-- **Unreachable code has no influence.**  Blocks with new ids may be inserted anywhere between the
first and the last block of a routine, with any operations and any edges.  As long as the entry
reaches none of them, the analysis comes to the same result: the states of all blocks, the values of
all operations, the summary, and whether the limit was reached. -/
theorem analyze_inserted (h : routine.graph.InsertsUnreachable graph') (options : Options) :
    ({ routine with graph := graph' } : Routine).analyze options = routine.analyze options := by
  have hflow : pointsToAnalysis.solve { routine with graph := graph' } options =
      pointsToAnalysis.solve routine options :=
    Analysis.solve_inserted h (confuses_graph routine graph') options
  unfold analyze
  simp only [hflow]
  rfl

/-- A local variable that a loop assigns. -/
def loopVariable : Symbol := .localVariable ⟨1⟩ "node" (.reference "Node")

/-- A routine that assigns a new object to the variable in a loop. -/
def creatingRoutine : Routine where
  name := ""
  containingType? := none
  parameters := []
  returnType := .void
  graph := ⟨[⟨⟨0⟩, [], none, [.always ⟨1⟩]⟩,
    ⟨⟨1⟩, [.ofForm ⟨2⟩ (.simpleAssignment (.ofForm ⟨0⟩ (.localReference loopVariable))
      (.ofForm ⟨1⟩ (.objectCreation none [] none)))], none, [.when ⟨1⟩ true, .when ⟨2⟩ false]⟩,
    ⟨⟨2⟩, [], none, []⟩], by simp⟩

/-- The body of the routine with a block that assigns `null` to the variable and goes on to the
loop, but that nothing leads to. -/
def graphWithDeadCode : ControlFlowGraph where
  blocks := [⟨⟨0⟩, [], none, [.always ⟨1⟩]⟩,
    ⟨⟨7⟩, [.ofForm ⟨5⟩ (.simpleAssignment (.ofForm ⟨3⟩ (.localReference loopVariable))
      ((Operation.ofForm ⟨4⟩ .literal).withConstant .null))], none, [.always ⟨1⟩, .always ⟨7⟩]⟩,
    ⟨⟨1⟩, [.ofForm ⟨2⟩ (.simpleAssignment (.ofForm ⟨0⟩ (.localReference loopVariable))
      (.ofForm ⟨1⟩ (.objectCreation none [] none)))], none, [.when ⟨1⟩ true, .when ⟨2⟩ false]⟩,
    ⟨⟨2⟩, [], none, []⟩]
  nonempty := by simp

/-- The new block is a predecessor of the loop, and still the routine is analysed as before. -/
theorem creatingRoutine_inserted : ⟨7⟩ ∈ graphWithDeadCode.predecessors ⟨1⟩ ∧
    ({ creatingRoutine with graph := graphWithDeadCode } : Routine).analyze
        { worklistOrder := .latestFirst } =
      creatingRoutine.analyze { worklistOrder := .latestFirst } := by
  have hinserts : creatingRoutine.graph.InsertsUnreachable graphWithDeadCode :=
    { kept := rfl
      first := by decide
      last := by decide
      unreachable := ControlFlowGraph.unreachable_of_reversePostorder (by decide) }
  exact ⟨by decide, analyze_inserted hinserts _⟩

end Routine
end HeapFlow
