import HeapFlow.Client.LocationState
import HeapFlow.Client.PointsTo
import HeapFlow.Domain.Truth

/-! # Which objects have been disposed of

The disposal analysis finds out for the operations of a routine whether the objects they refer to
have been disposed of.  It runs after the points-to analysis, which tells it what operations refer
to.  A call of a method named `Dispose` disposes of the objects that its instance refers to, and
objects start out not disposed of.
-/
namespace HeapFlow

namespace Disposal

/-- The instance that an operation disposes of, if it does. -/
def disposed? (operation : Operation) : Option Operation :=
  match operation.form with
  | .invocation (.method method) (some object) _ =>
    if method.name = "Dispose" then some object else none
  | _ => none

/-- The state after a call. -/
def afterCall (pointsTo : OperationId → PointsTo) (state : LocationState Truth)
    (operation : Operation) : LocationState Truth :=
  match disposed? operation with
  | some object => state.setValueAt (pointsTo object.id) .isTrue
  | none => state

end Disposal

/-- The disposal analysis, given what the operations of the routine refer to. -/
def disposalAnalysis (pointsTo : OperationId → PointsTo) :
    Analysis Truth (LocationState Truth) where
  defaultEntityValue _ := .top
  initialState _ := .empty
  defaultValue _ _ := .top
  invocationValue frame operation _ :=
    (.top, Disposal.afterCall pointsTo frame.data operation)
  finalValue frame operation value :=
    if (pointsTo operation.id).isKnown then
      frame.data.valueAt (pointsTo operation.id) fun _ => .isFalse
    else value
  pointsTo _ operation := pointsTo operation.id
  mergeData := LocationState.merge

namespace Routine

/-- Runs the disposal analysis on a routine, after the points-to analysis. -/
def analyzeDisposal (routine : Routine) (options : Options) :
    FlowResult Truth (LocationState Truth) :=
  (disposalAnalysis (routine.analyze options).pointsTo).solve routine options

end Routine
end HeapFlow
