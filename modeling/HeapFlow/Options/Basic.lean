/-! # Options

What can be chosen for an analysis run: the routine to look at, how much is reported, how often a
block may be interpreted, when the states of loop anchors are widened, and the order in which
pending blocks are taken up.
-/
namespace HeapFlow

/-- How much is reported about problems with the analysis itself. -/
inductive Diagnostics where
  /-- Running into the limit of iterations is not worth a warning. -/
  | standard
  /-- Running into the limit of iterations is reported as a warning. -/
  | paranoid
deriving DecidableEq, Repr

/-- The order in which pending blocks are taken up. -/
inductive WorklistOrder where
  /-- The block that comes first in reverse postorder. -/
  | earliestFirst
  /-- The block that comes last in reverse postorder, of those that wait for no other block. -/
  | latestFirst
deriving DecidableEq, Repr

/-- The choices for an analysis run. -/
structure Options where
  /-- The name of the only routine to analyse, if there is one. -/
  singleRoutine? : Option String := none
  diagnostics : Diagnostics := .standard
  /-- How often a block may be interpreted. -/
  maxIterations : Nat := 50
  /-- After how many visits the state of a loop anchor is widened. -/
  widenAfter : Nat := 3
  worklistOrder : WorklistOrder := .earliestFirst
deriving DecidableEq, Repr

end HeapFlow
