import HeapFlow.Program.Symbol

/-! # Operations

The body of a routine consists of operation trees.  Every operation has an id, a form that holds
its parts, and possibly a static type and a constant value.

`Form α` is the shape of one operation with parts of type `α`; an operation is a form whose parts
are operations.  `Form.children` lists the parts in the order in which they are evaluated.
-/
namespace HeapFlow

/-- Identifies an operation within a routine. -/
structure OperationId where
  number : UInt32
deriving DecidableEq, Repr

/-- Identifies a slot that holds an intermediate value. -/
structure CaptureId where
  number : UInt32
deriving DecidableEq, Repr

/-- A value that is known when the program is compiled. -/
inductive Constant where
  | null
  | bool (b : Bool)
  | char (c : Char)
  | int (n : Int64)
  | text (s : String)
deriving DecidableEq, Repr

/-- The operators of two operands. -/
inductive BinaryOperator where
  | add | subtract | multiply | divide | remainder
  | and | or | exclusiveOr
  | conditionalAnd | conditionalOr
  | equals | notEquals | lessThan | lessThanOrEqual | greaterThan | greaterThanOrEqual
  | leftShift | rightShift
deriving DecidableEq, Repr

namespace BinaryOperator

/-- True if the left operand may decide the outcome on its own, so that the right operand is not
evaluated. -/
def isShortCircuit : BinaryOperator → Bool
  | .conditionalAnd | .conditionalOr => true
  | _ => false

end BinaryOperator

/-- The operators of one operand. -/
inductive UnaryOperator where
  | not | minus | plus | bitwiseNegation
deriving DecidableEq, Repr

/-- The kinds of conversions.  A reference conversion keeps the identity of the object, boxing
copies a value into a new object. -/
inductive ConversionKind where
  | identity | reference | boxing | unboxing | numeric | userDefined
deriving DecidableEq, Repr

/-- An argument of a call or a creation. -/
structure Argument (α : Type) where
  parameter : Option Symbol
  passing : Passing
  value : α

/-- What a call invokes: a method, a local function, or the value of an operation. -/
inductive Callee (α : Type) where
  | method (method : Symbol)
  | localFunction (function : Symbol)
  | delegate (target : α)

/-- The shape of an operation whose parts are of type `α`.

A field or property without an instance is static or belongs to the self instance.  An instance
reference without a receiver denotes the self instance, otherwise it denotes the object that the
receiver creates. -/
inductive Form (α : Type) where
  | literal
  | defaultValue
  | localReference (symbol : Symbol)
  | parameterReference (parameter : Symbol)
  | fieldReference (instance? : Option α) (field : Symbol)
  | propertyReference (instance? : Option α) (property : Symbol) (arguments : List (Argument α))
  | arrayElementReference (array : α) (indices : List α)
  | instanceReference (receiver? : Option OperationId)
  | flowCapture (capture : CaptureId) (value : α)
  | flowCaptureReference (capture : CaptureId)
  | variableDeclarator (symbol : Symbol) (initializer? : Option α)
  | simpleAssignment (target value : α)
  | compoundAssignment (operator : BinaryOperator) (target value : α)
  | objectCreation (constructor? : Option Symbol) (arguments : List (Argument α))
      (initializer? : Option α)
  | dynamicObjectCreation (arguments : List α) (initializer? : Option α)
  | arrayCreation (dimensionSizes : List α) (initializer? : Option α)
  | arrayInitializer (elements : List α)
  | objectInitializer (initializers : List α)
  | anonymousObjectCreation (initializers : List α)
  | typeParameterObjectCreation (initializer? : Option α)
  | delegateCreation (target : α)
  | anonymousFunction (function : Symbol)
  | invocation (callee : Callee α) (instance? : Option α) (arguments : List (Argument α))
  | dynamicInvocation (callee : α) (arguments : List α)
  | await (awaited : α)
  | isType (operand : α) (type : StaticType)
  | isPattern (value pattern : α)
  | declarationPattern (symbol? : Option Symbol) (type? : Option StaticType)
  | constantPattern (value : α)
  | interpolatedString (fragments : List α)
  | tuple (elements : List α)
  | binary (operator : BinaryOperator) (left right : α)
  | unary (operator : UnaryOperator) (operand : α)
  | conversion (operand : α) (kind : ConversionKind)
  | conditional (condition whenTrue : α) (whenFalse? : Option α)
  | coalesce (value whenNull : α)
  | throwing (exception? : Option α)
  | returning (value? : Option α)
  | expressionStatement (expression : α)
  | sizeOf (type : StaticType)
  | typeOf (type : StaticType)
  | nameOf (argument : α)
  | other (fragments : List α)

namespace Callee

variable {α : Type}

/-- The operation that computes what is called, if there is one. -/
def target? : Callee α → Option α
  | .delegate target => some target
  | .method _ | .localFunction _ => none

end Callee

namespace Form

variable {α : Type}

/-- The parts in the order in which they are evaluated. -/
def children : Form α → List α
  | .literal | .defaultValue | .localReference _ | .parameterReference _ | .instanceReference _
  | .flowCaptureReference _ | .anonymousFunction _ | .declarationPattern _ _ | .sizeOf _
  | .typeOf _ => []
  | .fieldReference instance? _ => instance?.toList
  | .propertyReference instance? _ arguments => instance?.toList ++ arguments.map (·.value)
  | .arrayElementReference array indices => array :: indices
  | .flowCapture _ value => [value]
  | .variableDeclarator _ initializer? => initializer?.toList
  | .simpleAssignment target value => [target, value]
  | .compoundAssignment _ target value => [target, value]
  | .objectCreation _ arguments initializer? =>
    arguments.map (·.value) ++ initializer?.toList
  | .dynamicObjectCreation arguments initializer? => arguments ++ initializer?.toList
  | .arrayCreation dimensionSizes initializer? => dimensionSizes ++ initializer?.toList
  | .arrayInitializer elements => elements
  | .objectInitializer initializers => initializers
  | .anonymousObjectCreation initializers => initializers
  | .typeParameterObjectCreation initializer? => initializer?.toList
  | .delegateCreation target => [target]
  | .invocation callee instance? arguments =>
    callee.target?.toList ++ instance?.toList ++ arguments.map (·.value)
  | .dynamicInvocation callee arguments => callee :: arguments
  | .await awaited => [awaited]
  | .isType operand _ => [operand]
  | .isPattern value pattern => [value, pattern]
  | .constantPattern value => [value]
  | .interpolatedString fragments => fragments
  | .tuple elements => elements
  | .binary _ left right => [left, right]
  | .unary _ operand => [operand]
  | .conversion operand _ => [operand]
  | .conditional condition whenTrue whenFalse? => condition :: whenTrue :: whenFalse?.toList
  | .coalesce value whenNull => [value, whenNull]
  | .throwing exception? => exception?.toList
  | .returning value? => value?.toList
  | .expressionStatement expression => [expression]
  | .nameOf argument => [argument]
  | .other fragments => fragments

end Form

/-- An operation of a routine body. -/
structure Operation where
  id : OperationId
  form : Form Operation
  type? : Option StaticType
  constant? : Option Constant

namespace Operation

/-- The operation of the given form without a type and without a constant. -/
def ofForm (id : OperationId) (form : Form Operation) : Operation := ⟨id, form, none, none⟩

/-- The operation with the given type. -/
def withType (operation : Operation) (type : StaticType) : Operation :=
  { operation with type? := some type }

/-- The operation with the given constant value. -/
def withConstant (operation : Operation) (constant : Constant) : Operation :=
  { operation with constant? := some constant }

/-- True if the value of the operation is known when the program is compiled. -/
def isConstant (operation : Operation) : Bool := operation.constant?.isSome

/-- True if the operation is known to be of a value type. -/
def isCopied (operation : Operation) : Bool :=
  match operation.type? with
  | some type => type.isCopied
  | none => false

/-- The static type, or the type of storage whose type is not known. -/
def typeOrUnknown (operation : Operation) : StaticType := operation.type?.getD .unknown

/-- The immediate parts of the operation, in the order in which they are evaluated. -/
def children (operation : Operation) : List Operation := operation.form.children

/-! ## Folding over operations -/

section Fold

variable {β : Type} (combine : Operation → Form β → β)

mutual

/-- Computes a result from the operation and the results of its parts. -/
def fold : Operation → β
  | ⟨id, form, type?, constant?⟩ => combine ⟨id, form, type?, constant?⟩ (foldForm form)

/-- The form with the results of its parts in place of the parts. -/
def foldForm : Form Operation → Form β
  | .literal => .literal
  | .defaultValue => .defaultValue
  | .localReference symbol => .localReference symbol
  | .parameterReference parameter => .parameterReference parameter
  | .fieldReference instance? field => .fieldReference (foldOption instance?) field
  | .propertyReference instance? property arguments =>
    .propertyReference (foldOption instance?) property (foldArguments arguments)
  | .arrayElementReference array indices =>
    .arrayElementReference (fold array) (foldList indices)
  | .instanceReference receiver? => .instanceReference receiver?
  | .flowCapture capture value => .flowCapture capture (fold value)
  | .flowCaptureReference capture => .flowCaptureReference capture
  | .variableDeclarator symbol initializer? =>
    .variableDeclarator symbol (foldOption initializer?)
  | .simpleAssignment target value => .simpleAssignment (fold target) (fold value)
  | .compoundAssignment operator target value =>
    .compoundAssignment operator (fold target) (fold value)
  | .objectCreation constructor? arguments initializer? =>
    .objectCreation constructor? (foldArguments arguments) (foldOption initializer?)
  | .dynamicObjectCreation arguments initializer? =>
    .dynamicObjectCreation (foldList arguments) (foldOption initializer?)
  | .arrayCreation dimensionSizes initializer? =>
    .arrayCreation (foldList dimensionSizes) (foldOption initializer?)
  | .arrayInitializer elements => .arrayInitializer (foldList elements)
  | .objectInitializer initializers => .objectInitializer (foldList initializers)
  | .anonymousObjectCreation initializers => .anonymousObjectCreation (foldList initializers)
  | .typeParameterObjectCreation initializer? =>
    .typeParameterObjectCreation (foldOption initializer?)
  | .delegateCreation target => .delegateCreation (fold target)
  | .anonymousFunction function => .anonymousFunction function
  | .invocation callee instance? arguments =>
    .invocation (foldCallee callee) (foldOption instance?) (foldArguments arguments)
  | .dynamicInvocation callee arguments => .dynamicInvocation (fold callee) (foldList arguments)
  | .await awaited => .await (fold awaited)
  | .isType operand type => .isType (fold operand) type
  | .isPattern value pattern => .isPattern (fold value) (fold pattern)
  | .declarationPattern symbol? type? => .declarationPattern symbol? type?
  | .constantPattern value => .constantPattern (fold value)
  | .interpolatedString fragments => .interpolatedString (foldList fragments)
  | .tuple elements => .tuple (foldList elements)
  | .binary operator left right => .binary operator (fold left) (fold right)
  | .unary operator operand => .unary operator (fold operand)
  | .conversion operand kind => .conversion (fold operand) kind
  | .conditional condition whenTrue whenFalse? =>
    .conditional (fold condition) (fold whenTrue) (foldOption whenFalse?)
  | .coalesce value whenNull => .coalesce (fold value) (fold whenNull)
  | .throwing exception? => .throwing (foldOption exception?)
  | .returning value? => .returning (foldOption value?)
  | .expressionStatement expression => .expressionStatement (fold expression)
  | .sizeOf type => .sizeOf type
  | .typeOf type => .typeOf type
  | .nameOf argument => .nameOf (fold argument)
  | .other fragments => .other (foldList fragments)

/-- The result of an optional part. -/
def foldOption : Option Operation → Option β
  | none => none
  | some operation => some (fold operation)

/-- The results of a list of parts. -/
def foldList : List Operation → List β
  | [] => []
  | operation :: operations => fold operation :: foldList operations

/-- The results of the values of arguments. -/
def foldArguments : List (Argument Operation) → List (Argument β)
  | [] => []
  | ⟨parameter, passing, value⟩ :: arguments =>
    ⟨parameter, passing, fold value⟩ :: foldArguments arguments

/-- The result of a computed callee. -/
def foldCallee : Callee Operation → Callee β
  | .method method => .method method
  | .localFunction function => .localFunction function
  | .delegate target => .delegate (fold target)

end

end Fold

/-- The operation and all operations below it, each before its parts. -/
def nodes (operation : Operation) : List Operation :=
  operation.fold fun operation parts => operation :: parts.children.flatten

end Operation
end HeapFlow
