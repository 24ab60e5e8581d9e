import HeapFlow.Flow.Analysis

/-! # Interpreting operations

The interpreter evaluates operations in the order in which the program does, for any analysis.  The
value of every operation is kept, so that operations can refer to operations that come before them,
and the order in which operations were given their values is recorded.

The target of an assignment is not read.  Its parts are evaluated before the assigned value, and it
takes on that value.  The operand of a name expression and the body of an anonymous function are not
evaluated at all.  Alternatives of which only one is evaluated start from one state, and their
states are merged.

A callee is not analysed.  It may update the heap, and if it can reach the variables of its caller,
everything; arguments that it can write to are assigned unknown values.
-/
namespace HeapFlow

/-- A frame along with the record of the operations that were given values, latest first. -/
structure Machine (V D : Type) extends Frame V D where
  visited : List OperationId

/-- Actions on a machine. -/
abbrev Interp (V D : Type) := StateM (Machine V D)

namespace Machine

variable {V D : Type}

/-- The machine at the entry of a routine. -/
def initial [EntityState D V] (routine : Routine) : Machine V D := ⟨.initial routine, []⟩

end Machine

namespace Callee

variable {α : Type}

/-- True if the routine that is called can reach the variables of its caller. -/
def mayUpdateLocals : Callee α → Bool
  | .method _ => false
  | .localFunction _ | .delegate _ => true

/-- The declared type of the value that a call returns. -/
def returnType : Callee α → StaticType
  | .method symbol | .localFunction symbol => symbol.type
  | .delegate _ => .unknown

end Callee

namespace Argument

variable {α : Type}

/-- True if the callee can assign to the argument. -/
def isWritable (argument : Argument α) : Bool :=
  argument.passing.isWritable ||
    match argument.parameter with
    | some parameter => parameter.passing.isWritable
    | none => false

end Argument

namespace Analysis

variable {V D : Type} [DecidableEq V] [AbstractValue V] [EntityState D V] (A : Analysis V D)

/-! ## Single steps -/

/-- The current frame. -/
def frame : Interp V D (Frame V D) := return (← get).toFrame

/-- Changes the frame. -/
def changeFrame (change : Frame V D → Frame V D) : Interp V D Unit :=
  modify fun machine => { machine with toFrame := change machine.toFrame }

/-- The current state. -/
def data : Interp V D D := return (← get).data

/-- Changes the state. -/
def changeData (change : D → D) : Interp V D Unit :=
  changeFrame fun frame => { frame with data := change frame.data }

/-- Keeps the value of an operation. -/
def cache (id : OperationId) (value : V) : Interp V D Unit :=
  changeFrame fun frame => frame.cache id value

/-- The value of an operation that is not modelled more precisely. -/
def fallback (operation : Operation) : Interp V D V :=
  return A.defaultValue (← frame) operation

/-- The value of the entity that an operation denotes. -/
def readReference (operation : Operation) : Interp V D V := do
  let frame ← frame
  match A.denoted? frame operation with
  | some e => return A.read frame.data e
  | none => return A.defaultValue frame operation

/-- The value of an operation that has been evaluated before. -/
def knownValue (id : OperationId) (operation : Operation) : Interp V D V := do
  let frame ← frame
  match frame.values.get? id with
  | some value => return value
  | none => return A.defaultValue frame operation

/-- Allocates the object of a creation. -/
def allocate (creation : Operation) : Interp V D V := do
  let value := A.creationValue (← frame) creation
  cache creation.id value
  return value

/-- The value of the creation that an initializer belongs to. -/
def initializedValue (initializer : Operation) : Interp V D V := do
  let frame ← frame
  match frame.creationValue? with
  | some value => return value
  | none => return A.defaultValue frame initializer

/-- Enters the initializer of a creation. -/
def enterInitializer (creation : OperationId) : Interp V D Unit :=
  changeFrame fun frame => { frame with creations := creation :: frame.creations }

/-- Leaves the initializer of a creation. -/
def leaveInitializer : Interp V D Unit :=
  changeFrame fun frame => { frame with creations := frame.creations.tail }

/-- Returns from a call that has been evaluated up to the point of the call. -/
def returnFrom (operation : Operation) (returnType : StaticType) : Interp V D V := do
  let (value, data) := A.invocationValue (← frame) operation returnType
  changeData fun _ => data
  return value

/-- Assigns a value to an entity. -/
def writeEntity (e : Entity) (value : V) : Interp V D Unit := changeData (A.write e value)

/-- Assigns a value to what an operation denotes. -/
def assignTo (target : Operation) (value : V) : Interp V D Unit :=
  changeFrame (A.assign target value)

/-- Forgets what a callee may have changed: the heap, or everything if it can reach the variables of
its caller, and what it was given to write to. -/
def applyCall (arguments : List (Argument Operation)) (mayUpdateLocals : Bool) :
    Interp V D Unit := do
  changeData (if mayUpdateLocals then A.resetAll else A.resetHeap)
  changeFrame
    (A.assignUnknown ((arguments.filter (·.isWritable)).map (·.value)))

/-- Merges the state at the end of an alternative into the current state. -/
def joinData (other : D) : Interp V D Unit := changeData (A.mergeData other)

/-- Settles the value of an operation. -/
def settle (operation : Operation) (value : V) : Interp V D V := do
  let value := A.finalValue (← frame) operation value
  modify fun machine => { machine with visited := operation.id :: machine.visited }
  cache operation.id value
  return value

/-! ## Evaluation -/

mutual

/-- Evaluates an operation, and returns its value. -/
def evaluate : Operation → Interp V D V
  | ⟨id, form, type?, constant?⟩ => do
    let operation : Operation := ⟨id, form, type?, constant?⟩
    let value ← evaluateForm operation form
    A.settle operation value

/-- Evaluates an operation of the given form, up to the step that settles its value. -/
def evaluateForm (operation : Operation) : Form Operation → Interp V D V
  | .localReference _ | .parameterReference _ | .flowCaptureReference _ =>
    A.readReference operation
  | .fieldReference instance? _ => do
    evaluateOption instance?
    A.readReference operation
  | .arrayElementReference array indices => do
    discard (evaluate array)
    evaluateList indices
    A.readReference operation
  | .propertyReference instance? property arguments => do
    evaluateOption instance?
    evaluateArguments arguments
    if arguments.isEmpty then A.readReference operation
    else A.returnFrom operation (operation.type?.getD property.type)
  | .instanceReference none => A.readReference operation
  | .instanceReference (some receiver) => A.knownValue receiver operation
  | .flowCapture _ captured => do
    let value ← evaluate captured
    match A.denoted? (← frame) operation with
    | some e => A.writeEntity e value
    | none => pure ()
    return value
  | .variableDeclarator symbol (some initializer) => do
    let value ← evaluate initializer
    A.writeEntity (.ofLocal symbol) value
    return value
  | .simpleAssignment target assigned => do
    evaluateParts target
    let value ← evaluate assigned
    A.assignTo target value
    cache target.id value
    return value
  | .compoundAssignment _ target assigned => do
    discard (evaluate target)
    discard (evaluate assigned)
    let value ← A.fallback operation
    A.assignTo target value
    return value
  | .objectCreation constructor? arguments initializer? => do
    let value ← A.allocate operation
    evaluateArguments arguments
    if constructor?.isSome then A.applyCall arguments false
    evaluateInitializer operation.id initializer?
    return value
  | .dynamicObjectCreation arguments initializer? => do
    let value ← A.allocate operation
    evaluateList arguments
    changeData A.resetHeap
    evaluateInitializer operation.id initializer?
    return value
  | .arrayCreation dimensionSizes initializer? => do
    evaluateList dimensionSizes
    let value ← A.allocate operation
    evaluateInitializer operation.id initializer?
    return value
  | .typeParameterObjectCreation initializer? => do
    let value ← A.allocate operation
    evaluateInitializer operation.id initializer?
    return value
  | .anonymousObjectCreation initializers => do
    let value ← A.allocate operation
    enterInitializer operation.id
    evaluateList initializers
    leaveInitializer
    return value
  | .delegateCreation target => do
    let value ← A.allocate operation
    discard (evaluate target)
    return value
  | .arrayInitializer elements => do
    evaluateList elements
    A.initializedValue operation
  | .objectInitializer initializers => do
    evaluateList initializers
    A.initializedValue operation
  | .invocation callee instance? arguments => do
    evaluateCallee callee
    evaluateOption instance?
    evaluateArguments arguments
    let value ← A.returnFrom operation (operation.type?.getD callee.returnType)
    A.applyCall arguments callee.mayUpdateLocals
    return value
  | .dynamicInvocation callee arguments => do
    discard (evaluate callee)
    evaluateList arguments
    let value ← A.returnFrom operation (operation.type?.getD (.typeParameter "dynamic"))
    changeData A.resetHeap
    return value
  | .await awaited => do
    discard (evaluate awaited)
    changeData A.resetHeap
    A.fallback operation
  | .declarationPattern (some symbol) _ => do
    A.writeEntity (.ofLocal symbol) AbstractValue.unknown
    A.fallback operation
  | .conversion operand kind => do
    let value ← evaluate operand
    return A.conversionValue (← frame) operation kind value
  | .conditional condition whenTrue whenFalse? => do
    discard (evaluate condition)
    let before ← data
    let valueWhenTrue ← evaluate whenTrue
    let afterTrue ← data
    changeData fun _ => before
    let value ← match whenFalse? with
      | some whenFalse => do
        let valueWhenFalse ← evaluate whenFalse
        pure (AbstractValue.merge valueWhenTrue valueWhenFalse)
      | none => A.fallback operation
    A.joinData afterTrue
    return value
  | .coalesce first whenNull => do
    let value ← evaluate first
    let afterFirst ← data
    let valueWhenNull ← evaluate whenNull
    A.joinData afterFirst
    return AbstractValue.merge value valueWhenNull
  | .binary operator left right => do
    discard (evaluate left)
    let afterLeft ← data
    discard (evaluate right)
    if operator.isShortCircuit then A.joinData afterLeft
    A.fallback operation
  | .returning (some returned) => do
    let value ← evaluate returned
    let returnType := (← frame).routine.returnType
    if !returnType.isVoid then A.writeEntity (.ofResult returnType) value
    return value
  | .expressionStatement expression => evaluate expression
  | .isType operand _ | .constantPattern operand | .unary _ operand => do
    discard (evaluate operand)
    A.fallback operation
  | .isPattern operand pattern => do
    discard (evaluate operand)
    discard (evaluate pattern)
    A.fallback operation
  | .interpolatedString fragments | .tuple fragments | .other fragments => do
    evaluateList fragments
    A.fallback operation
  | .throwing exception? => do
    evaluateOption exception?
    A.fallback operation
  | .literal | .defaultValue | .variableDeclarator _ none | .declarationPattern none _
  | .returning none | .sizeOf _ | .typeOf _ | .nameOf _ | .anonymousFunction _ =>
    A.fallback operation

/-- Evaluates the parts of an operation, but not the operation itself. -/
def evaluateParts : Operation → Interp V D Unit
  | ⟨_, form, _, _⟩ =>
    match form with
    | .literal | .defaultValue | .localReference _ | .parameterReference _
    | .instanceReference _ | .flowCaptureReference _ | .anonymousFunction _
    | .declarationPattern _ _ | .sizeOf _ | .typeOf _ => pure ()
    | .fieldReference part? _ | .variableDeclarator _ part?
    | .typeParameterObjectCreation part? | .throwing part? | .returning part? =>
      evaluateOption part?
    | .propertyReference instance? _ arguments => do
      evaluateOption instance?
      evaluateArguments arguments
    | .arrayElementReference first rest | .dynamicInvocation first rest => do
      discard (evaluate first)
      evaluateList rest
    | .flowCapture _ part | .delegateCreation part | .await part | .isType part _
    | .constantPattern part | .unary _ part | .conversion part _ | .expressionStatement part
    | .nameOf part => discard (evaluate part)
    | .simpleAssignment first second | .compoundAssignment _ first second
    | .isPattern first second | .binary _ first second | .coalesce first second => do
      discard (evaluate first)
      discard (evaluate second)
    | .objectCreation _ arguments initializer? => do
      evaluateArguments arguments
      evaluateOption initializer?
    | .dynamicObjectCreation parts last? | .arrayCreation parts last? => do
      evaluateList parts
      evaluateOption last?
    | .arrayInitializer parts | .objectInitializer parts | .anonymousObjectCreation parts
    | .interpolatedString parts | .tuple parts | .other parts => evaluateList parts
    | .invocation callee instance? arguments => do
      evaluateCallee callee
      evaluateOption instance?
      evaluateArguments arguments
    | .conditional condition whenTrue whenFalse? => do
      discard (evaluate condition)
      discard (evaluate whenTrue)
      evaluateOption whenFalse?

/-- Evaluates an optional part. -/
def evaluateOption : Option Operation → Interp V D Unit
  | none => pure ()
  | some operation => discard (evaluate operation)

/-- Evaluates an optional initializer of a creation. -/
def evaluateInitializer (creation : OperationId) : Option Operation → Interp V D Unit
  | none => pure ()
  | some initializer => do
    enterInitializer creation
    discard (evaluate initializer)
    leaveInitializer

/-- Evaluates operations one after the other. -/
def evaluateList : List Operation → Interp V D Unit
  | [] => pure ()
  | operation :: operations => do
    discard (evaluate operation)
    evaluateList operations

/-- Evaluates the values of arguments one after the other. -/
def evaluateArguments : List (Argument Operation) → Interp V D Unit
  | [] => pure ()
  | ⟨_, _, value⟩ :: arguments => do
    discard (evaluate value)
    evaluateArguments arguments

/-- Evaluates the operation that computes what is called, if there is one. -/
def evaluateCallee : Callee Operation → Interp V D Unit
  | .method _ | .localFunction _ => pure ()
  | .delegate target => discard (evaluate target)

end

omit [DecidableEq V] in
theorem evaluate_eq (operation : Operation) :
    A.evaluate operation =
      (A.evaluateForm operation operation.form >>= fun value => A.settle operation value) := by
  obtain ⟨id, form, type?, constant?⟩ := operation
  rw [evaluate]

omit [DecidableEq V] in
/-- The operand of a name expression is not evaluated. -/
theorem evaluateForm_nameOf (operation operand : Operation) :
    A.evaluateForm operation (.nameOf operand) = A.fallback operation := by
  rw [evaluateForm]

/-! ## Statements and blocks -/

/-- Evaluates an operation that stands on its own. -/
def evaluateStatement (operation : Operation) : Interp V D Unit := do
  let data := A.beforeStatement (← frame)
  changeData fun _ => data
  discard (A.evaluate operation)

/-- Evaluates the operations of a block and its branch value, and returns the blocks that control
may go on to. -/
def evaluateBlock (block : Block) : Interp V D (List BlockId) := do
  block.statements.forM A.evaluateStatement
  return block.feasibleTargets

end Analysis
end HeapFlow
