import HeapFlow.Client.Summary
import HeapFlow.Flow.Solver

/-! # The points-to analysis

For each entity and each operation of a routine the points-to analysis computes which heap objects
it may refer to.  Callees are not analysed: what they return is an object of its own, and what they
may have changed is forgotten.

Storage of a value type holds no reference, so that its value is `noLocation` at all times, and the
self instance is the same object throughout the routine.  Both are pinned.
-/
namespace HeapFlow

/-- The states of the points-to analysis. -/
abbrev PointsToState := Environment Entity PointsTo

namespace PointsToAnalysis

/-- What a parameter refers to on entry to the routine.  An output parameter has to be assigned
before it is read. -/
def parameterValue (parameter : Symbol) : PointsTo :=
  if parameter.type.isCopied then .noLocation
  else if parameter.passing = .output then .undefined
  else .ofLocation (.referent parameter)

/-- What an entity refers to that is not bound. -/
def defaultEntityValue (e : Entity) : PointsTo :=
  if e.isCopied then .noLocation
  else
    match e.place with
    | .self => e.owner
    | .parameter symbol => parameterValue symbol
    | .localVariable _ | .capture _ | .result => .undefined
    | .member _ | .element _ => .unknown

/-- The bindings on entry to a routine: the self instance and the parameters. -/
def initialState (routine : Routine) : PointsToState :=
  let self := match routine.self? with
    | some self => Environment.empty.insert self self.owner
    | none => .empty
  routine.parameters.foldl
    (fun state parameter => state.insert (.ofParameter parameter) (parameterValue parameter)) self

/-- True if an operation does not refer to anything: it is a constant or of a value type. -/
def hasNoLocation (operation : Operation) : Bool := operation.isConstant || operation.isCopied

/-- What an operation refers to that is not modelled more precisely. -/
def defaultValue (operation : Operation) : PointsTo :=
  if hasNoLocation operation then .noLocation else .unknown

/-- The object that an operation allocates. -/
def allocation (operation : Operation) (type : StaticType) : PointsTo :=
  .ofLocation (.creation operation.id type)

/-- What a creation refers to. -/
def creationValue (operation : Operation) : PointsTo :=
  if operation.isCopied then .noLocation else allocation operation operation.typeOrUnknown

/-- What a call returns: an object of its own, unless the return type says that it is none. -/
def invocationValue (operation : Operation) (returnType : StaticType) : PointsTo :=
  if returnType.isCopied || returnType.isVoid then .noLocation
  else allocation operation returnType

/-- What a conversion of an operand refers to.  Boxing allocates an object. -/
def conversionValue (operation : Operation) (kind : ConversionKind) (operand : PointsTo) :
    PointsTo :=
  match kind with
  | .identity | .reference => operand
  | .boxing => allocation operation operation.typeOrUnknown
  | .unboxing | .numeric | .userDefined => defaultValue operation

/-- The state with the self instance bound to what the self reference refers to. -/
def bindSelf (routine : Routine) (state : PointsToState) : PointsToState :=
  match routine.self? with
  | some self => state.insert self self.owner
  | none => state

/-- True for entities that keep their values: storage of a value type and the self instance. -/
def isPinned (e : Entity) : Bool := e.isCopied || e.isSelf

/-- What an entity refers to when it is assigned the given value. -/
def assignedValue (e : Entity) (value : PointsTo) : PointsTo :=
  if e.isCopied then .noLocation else value

/-- What an entity refers to that was not observed on one of two paths. -/
def unobservedValue (e : Entity) (value : PointsTo) : PointsTo :=
  assignedValue e (value.merge .unknown)

/-- The state where two edges meet. -/
def mergeData (a b : PointsToState) : PointsToState := a.mergeWith b unobservedValue

/-- The state of a loop anchor that covers the given state and the previous one. -/
def widenData (state previous : PointsToState) : PointsToState :=
  state.widenWith previous unobservedValue

end PointsToAnalysis

open PointsToAnalysis in
/-- The points-to analysis. -/
def pointsToAnalysis : Analysis PointsTo PointsToState where
  defaultEntityValue := defaultEntityValue
  initialState := initialState
  defaultValue _ := defaultValue
  creationValue _ := creationValue
  invocationValue frame operation returnType :=
    (invocationValue operation returnType, frame.data)
  conversionValue _ := conversionValue
  finalValue _ operation value := if hasNoLocation operation then .noLocation else value
  beforeStatement frame := bindSelf frame.routine frame.data
  isPinned := isPinned
  assignedValue := assignedValue
  pointsTo frame operation := (frame.values.get? operation.id).getD .unknown
  mergeData := mergeData
  widenData := widenData

/-- What the points-to analysis finds out about a routine. -/
structure PointsToResult where
  flow : FlowResult PointsTo PointsToState
  /-- What the self reference refers to, undefined for static routines. -/
  selfValue : PointsTo
  summary : Summary

namespace PointsToResult

variable (result : PointsToResult)

/-- What an operation may refer to, undefined if it cannot be reached. -/
def pointsTo (id : OperationId) : PointsTo := (result.flow.valueOf? id).getD .undefined

/-- What an entity refers to when control leaves the routine, if it is tracked there. -/
def finalValue? (e : Entity) : Option PointsTo :=
  result.flow.finalState? >>= fun state => state.get? e

/-- True for the entity of a local variable of the given name. -/
def isLocalNamed (name : String) (e : Entity) : Bool :=
  match e.place with
  | .localVariable symbol => symbol.name = name
  | _ => false

/-- What the local variable of the given name refers to when control leaves the routine. -/
def finalLocalValue? (name : String) : Option PointsTo := do
  let state ← result.flow.finalState?
  let (_, value) ← state.entries.find? fun (e, _) => isLocalNamed name e
  return value

/-- True unless two operations are known to refer to different objects. -/
def mayAlias (a b : OperationId) : Bool := (result.pointsTo a).mayAlias (result.pointsTo b)

/-- The text that stands for a result in messages. -/
def briefText : String :=
  "PointsToAnalysisResult(" ++ result.flow.routineName ++ ") DataFlowAnalysisResult(" ++
    result.flow.routineName ++ ")"

end PointsToResult

/-- A line of the log. -/
inductive LogLine where
  | warning (message : String)
  | info (message : String)
deriving DecidableEq, Repr

namespace LogLine

/-- The text of a line of the log. -/
def text : LogLine → String
  | .warning message => "WARN " ++ message
  | .info message => "INFO " ++ message

end LogLine

namespace PointsToResult

/-- What is logged while a routine is analysed. -/
def log (result : PointsToResult) (options : Options) : List LogLine :=
  let conclusion :=
    if result.flow.reachedLimit then
      [.info ("routine " ++ result.flow.routineName ++ " did not reach a fixed point")]
    else []
  (result.flow.warnings options).map .warning ++ conclusion

end PointsToResult

namespace Routine

/-- Runs the points-to analysis on a routine. -/
def analyze (routine : Routine) (options : Options) : PointsToResult :=
  let flow := pointsToAnalysis.solve routine options
  { flow
    selfValue := routine.selfValue
    summary := .ofFinalState routine flow.finalState? flow.reachedLimit }

end Routine
end HeapFlow
