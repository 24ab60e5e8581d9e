import HeapFlow.Flow.Analysis

/-! # Summaries

The summary of a routine says what its callers can observe: what it returns, and what it leaves in
the storage that was passed to it by reference.  What a routine does with other parameters stays
with the routine.
-/
namespace HeapFlow

/-- What a routine leaves in a parameter that its caller can observe. -/
structure ParameterSummary where
  ordinal : UInt64
  name : String
  passing : Passing
  value : PointsTo
deriving DecidableEq

/-- What the callers of a routine can observe.  A summary that was not computed says nothing, an
incomplete one may say too much, and a routine without a return value has none. -/
structure Summary where
  isComputed : Bool
  isIncomplete : Bool
  returnValue? : Option PointsTo
  parameters : List ParameterSummary
deriving DecidableEq

namespace Summary

/-- The summary that was not computed. -/
def absent : Summary := ⟨false, false, none, []⟩

/-- The value of an entity when control leaves a routine, undefined if it is not tracked there or if
control never leaves. -/
def valueAt (finalState? : Option (Environment Entity PointsTo)) (e : Entity) : PointsTo :=
  (finalState? >>= fun state => state.get? e).getD .undefined

/-- The summary of a parameter, none unless the routine can write to the storage of its caller. -/
def ofParameter? (finalState? : Option (Environment Entity PointsTo)) (parameter : Symbol) :
    Option ParameterSummary :=
  match parameter.kind with
  | .parameter ordinal passing =>
    if passing.isWritable then
      some ⟨ordinal, parameter.name, passing, valueAt finalState? (.ofParameter parameter)⟩
    else none
  | _ => none

/-- What a routine returns. -/
def returnValueOf? (finalState? : Option (Environment Entity PointsTo)) (type : StaticType) :
    Option PointsTo :=
  if type.isVoid then none
  else if type.isCopied then some .noLocation
  else some (valueAt finalState? (.ofResult type))

/-- The summary of a routine, from the state when control leaves it. -/
def ofFinalState (routine : Routine) (finalState? : Option (Environment Entity PointsTo))
    (isIncomplete : Bool) : Summary :=
  { isComputed := true
    isIncomplete
    returnValue? := returnValueOf? finalState? routine.returnType
    parameters := routine.parameters.filterMap (ofParameter? finalState?) }

/-- The summary of the parameter of the given name. -/
def parameter? (summary : Summary) (name : String) : Option ParameterSummary :=
  summary.parameters.find? (·.name = name)

end Summary
end HeapFlow
