import HeapFlow.Json.Reader
import HeapFlow.Wire.Symbol

/-! # The JSON form of operations

An operation is a record whose field `kind` holds its form, tagged by `op`; what a call invokes is
tagged by `kind`.  A form is stored before it is read, so all that is inside of it has to be
storable, and the arrays and objects inside of it count against the depth limit of a text.  Other
parts of an operation that are not fields are skipped unseen.

`Form.toJson` and `Form.ofJson?` are given the functions that write and read a part.  The parts of
an operation are operations again, which nest no deeper than the arrays and objects do.
-/
namespace HeapFlow

open Json (Access)

/-- How many arrays and objects may be nested in each other in a text that is read. -/
def Json.depthLimit : Nat := 127

namespace BinaryOperator

/-- The names of the operators of two operands. -/
def names : List (String × BinaryOperator) :=
  [("Add", .add), ("Subtract", .subtract), ("Multiply", .multiply), ("Divide", .divide),
    ("Remainder", .remainder), ("And", .and), ("Or", .or), ("ExclusiveOr", .exclusiveOr),
    ("ConditionalAnd", .conditionalAnd), ("ConditionalOr", .conditionalOr), ("Equals", .equals),
    ("NotEquals", .notEquals), ("LessThan", .lessThan), ("LessThanOrEqual", .lessThanOrEqual),
    ("GreaterThan", .greaterThan), ("GreaterThanOrEqual", .greaterThanOrEqual),
    ("LeftShift", .leftShift), ("RightShift", .rightShift)]

/-- The name of an operator of two operands. -/
def name : BinaryOperator → String
  | .add => "Add"
  | .subtract => "Subtract"
  | .multiply => "Multiply"
  | .divide => "Divide"
  | .remainder => "Remainder"
  | .and => "And"
  | .or => "Or"
  | .exclusiveOr => "ExclusiveOr"
  | .conditionalAnd => "ConditionalAnd"
  | .conditionalOr => "ConditionalOr"
  | .equals => "Equals"
  | .notEquals => "NotEquals"
  | .lessThan => "LessThan"
  | .lessThanOrEqual => "LessThanOrEqual"
  | .greaterThan => "GreaterThan"
  | .greaterThanOrEqual => "GreaterThanOrEqual"
  | .leftShift => "LeftShift"
  | .rightShift => "RightShift"

end BinaryOperator

namespace UnaryOperator

/-- The names of the operators of one operand. -/
def names : List (String × UnaryOperator) :=
  [("Not", .not), ("Minus", .minus), ("Plus", .plus), ("BitwiseNegation", .bitwiseNegation)]

/-- The name of an operator of one operand. -/
def name : UnaryOperator → String
  | .not => "Not"
  | .minus => "Minus"
  | .plus => "Plus"
  | .bitwiseNegation => "BitwiseNegation"

end UnaryOperator

namespace ConversionKind

/-- The names of the kinds of conversions. -/
def names : List (String × ConversionKind) :=
  [("Identity", .identity), ("Reference", .reference), ("Boxing", .boxing),
    ("Unboxing", .unboxing), ("Numeric", .numeric), ("UserDefined", .userDefined)]

/-- The name of a kind of conversion. -/
def name : ConversionKind → String
  | .identity => "Identity"
  | .reference => "Reference"
  | .boxing => "Boxing"
  | .unboxing => "Unboxing"
  | .numeric => "Numeric"
  | .userDefined => "UserDefined"

end ConversionKind

namespace OperationId

/-- The JSON form of the id of an operation. -/
def toJson (id : OperationId) : Json := .nat id.number.toNat

/-- Reads the id of an operation. -/
def ofJson? (value : Json) : Option OperationId := OperationId.mk <$> value.uint32?

end OperationId

namespace CaptureId

/-- The JSON form of the id of a slot. -/
def toJson (id : CaptureId) : Json := .nat id.number.toNat

/-- Reads the id of a slot. -/
def ofJson? (value : Json) : Option CaptureId := CaptureId.mk <$> value.uint32?

end CaptureId

namespace Argument

variable {α : Type}

/-- The JSON form of an argument. -/
def toJson (part : α → Json) (argument : Argument α) : Json :=
  .record [("parameter", .ofOption Symbol.toJson argument.parameter),
    ("ref_kind", argument.passing.toJson), ("value", part argument.value)]

/-- Reads an argument. -/
def ofJson? (part : Json → Option α) (value : Json) : Option (Argument α) := do
  let record ← value.record? ["parameter", "ref_kind", "value"]
  let parameter ← record.withDefault "parameter" (Json.option? (Symbol.ofJson? .stored)) none
  let passing ← record.withDefault "ref_kind" (Passing.ofJson? .stored) .byValue
  let value ← record.required "value" part
  return ⟨parameter, passing, value⟩

end Argument

namespace Callee

variable {α : Type}

/-- The JSON form of what a call invokes. -/
def toJson (part : α → Json) : Callee α → Json
  | .method called => .record [("kind", .text "Method"), ("method", called.toJson)]
  | .localFunction function =>
    .record [("kind", .text "LocalFunction"), ("function", function.toJson)]
  | .delegate target => .record [("kind", .text "Delegate"), ("target", part target)]

/-- Reads what a call invokes. -/
def ofJson? (part : Json → Option α) (value : Json) : Option (Callee α) := do
  let (tag, rest) ← value.tagged? "kind"
  match ← Json.kind? .stored ["Method", "LocalFunction", "Delegate"] tag with
  | "Method" => do
    let record ← rest.record? ["method"]
    return .method (← record.required "method" (Symbol.ofJson? .stored))
  | "LocalFunction" => do
    let record ← rest.record? ["function"]
    return .localFunction (← record.required "function" (Symbol.ofJson? .stored))
  | "Delegate" => do
    let record ← rest.record? ["target"]
    return .delegate (← record.required "target" part)
  | _ => none

end Callee

namespace Form

variable {α : Type}

/-- The names of the forms, in order. -/
def names : List String :=
  ["Literal", "DefaultValue", "LocalReference", "ParameterReference", "FieldReference",
    "PropertyReference", "ArrayElementReference", "InstanceReference", "FlowCapture",
    "FlowCaptureReference", "VariableDeclarator", "SimpleAssignment", "CompoundAssignment",
    "ObjectCreation", "DynamicObjectCreation", "ArrayCreation", "ArrayInitializer",
    "ObjectOrCollectionInitializer", "AnonymousObjectCreation", "TypeParameterObjectCreation",
    "DelegateCreation", "AnonymousFunction", "Invocation", "DynamicInvocation", "Await", "IsType",
    "IsPattern", "DeclarationPattern", "ConstantPattern", "InterpolatedString", "Tuple", "Binary",
    "Unary", "Conversion", "Conditional", "Coalesce", "Throw", "Return", "ExpressionStatement",
    "SizeOf", "TypeOf", "NameOf", "Other"]

/-- The name and the fields of a form. -/
def toFields (part : α → Json) : Form α → String × List (String × Json)
  | .literal => ("Literal", [])
  | .defaultValue => ("DefaultValue", [])
  | .localReference symbol => ("LocalReference", [("local", symbol.toJson)])
  | .parameterReference parameter => ("ParameterReference", [("parameter", parameter.toJson)])
  | .fieldReference instance? field =>
    ("FieldReference", [("instance", .ofOption part instance?), ("field", field.toJson)])
  | .propertyReference instance? property arguments =>
    ("PropertyReference", [("instance", .ofOption part instance?),
      ("property", property.toJson), ("arguments", .ofList (·.toJson part) arguments)])
  | .arrayElementReference array indices =>
    ("ArrayElementReference", [("array", part array), ("indices", .ofList part indices)])
  | .instanceReference receiver? =>
    ("InstanceReference", [("receiver", .ofOption OperationId.toJson receiver?)])
  | .flowCapture capture value =>
    ("FlowCapture", [("id", capture.toJson), ("value", part value)])
  | .flowCaptureReference capture => ("FlowCaptureReference", [("id", capture.toJson)])
  | .variableDeclarator symbol initializer? =>
    ("VariableDeclarator", [("local", symbol.toJson),
      ("initializer", .ofOption part initializer?)])
  | .simpleAssignment target value =>
    ("SimpleAssignment", [("target", part target), ("value", part value)])
  | .compoundAssignment operator target value =>
    ("CompoundAssignment", [("operator", .text operator.name), ("target", part target),
      ("value", part value)])
  | .objectCreation constructor? arguments initializer? =>
    ("ObjectCreation", [("constructor", .ofOption Symbol.toJson constructor?),
      ("arguments", .ofList (·.toJson part) arguments),
      ("initializer", .ofOption part initializer?)])
  | .dynamicObjectCreation arguments initializer? =>
    ("DynamicObjectCreation", [("arguments", .ofList part arguments),
      ("initializer", .ofOption part initializer?)])
  | .arrayCreation dimensionSizes initializer? =>
    ("ArrayCreation", [("dimension_sizes", .ofList part dimensionSizes),
      ("initializer", .ofOption part initializer?)])
  | .arrayInitializer elements =>
    ("ArrayInitializer", [("element_values", .ofList part elements)])
  | .objectInitializer initializers =>
    ("ObjectOrCollectionInitializer", [("initializers", .ofList part initializers)])
  | .anonymousObjectCreation initializers =>
    ("AnonymousObjectCreation", [("initializers", .ofList part initializers)])
  | .typeParameterObjectCreation initializer? =>
    ("TypeParameterObjectCreation", [("initializer", .ofOption part initializer?)])
  | .delegateCreation target => ("DelegateCreation", [("target", part target)])
  | .anonymousFunction function => ("AnonymousFunction", [("symbol", function.toJson)])
  | .invocation callee instance? arguments =>
    ("Invocation", [("target", callee.toJson part), ("instance", .ofOption part instance?),
      ("arguments", .ofList (·.toJson part) arguments)])
  | .dynamicInvocation callee arguments =>
    ("DynamicInvocation", [("operation", part callee), ("arguments", .ofList part arguments)])
  | .await awaited => ("Await", [("operation", part awaited)])
  | .isType operand type =>
    ("IsType", [("value_operand", part operand), ("type_operand", type.toJson)])
  | .isPattern value pattern =>
    ("IsPattern", [("value", part value), ("pattern", part pattern)])
  | .declarationPattern symbol? type? =>
    ("DeclarationPattern", [("declared_symbol", .ofOption Symbol.toJson symbol?),
      ("matched_type", .ofOption StaticType.toJson type?)])
  | .constantPattern value => ("ConstantPattern", [("value", part value)])
  | .interpolatedString fragments =>
    ("InterpolatedString", [("parts", .ofList part fragments)])
  | .tuple elements => ("Tuple", [("elements", .ofList part elements)])
  | .binary operator left right =>
    ("Binary", [("operator", .text operator.name), ("left", part left), ("right", part right)])
  | .unary operator operand =>
    ("Unary", [("operator", .text operator.name), ("operand", part operand)])
  | .conversion operand kind =>
    ("Conversion", [("operand", part operand), ("conversion", .text kind.name)])
  | .conditional condition whenTrue whenFalse? =>
    ("Conditional", [("condition", part condition), ("when_true", part whenTrue),
      ("when_false", .ofOption part whenFalse?)])
  | .coalesce value whenNull =>
    ("Coalesce", [("value", part value), ("when_null", part whenNull)])
  | .throwing exception? => ("Throw", [("exception", .ofOption part exception?)])
  | .returning value? => ("Return", [("value", .ofOption part value?)])
  | .expressionStatement expression =>
    ("ExpressionStatement", [("operation", part expression)])
  | .sizeOf type => ("SizeOf", [("type_operand", type.toJson)])
  | .typeOf type => ("TypeOf", [("type_operand", type.toJson)])
  | .nameOf argument => ("NameOf", [("argument", part argument)])
  | .other fragments => ("Other", [("children", .ofList part fragments)])

/-- The JSON form of a form. -/
def toJson (part : α → Json) (form : Form α) : Json :=
  let (name, fields) := form.toFields part
  .record (("op", .text name) :: fields)

/-- Reads the fields of the form of the given name. -/
def ofFields? (part : Json → Option α) (name : String) (value : Json) : Option (Form α) := do
  match name with
  | "Literal" => do
    let _ ← value.record? []
    return .literal
  | "DefaultValue" => do
    let _ ← value.record? []
    return .defaultValue
  | "LocalReference" => do
    let record ← value.record? ["local"]
    return .localReference (← record.required "local" (Symbol.ofJson? .stored))
  | "ParameterReference" => do
    let record ← value.record? ["parameter"]
    return .parameterReference (← record.required "parameter" (Symbol.ofJson? .stored))
  | "FieldReference" => do
    let record ← value.record? ["instance", "field"]
    return .fieldReference (← record.optional "instance" part)
      (← record.required "field" (Symbol.ofJson? .stored))
  | "PropertyReference" => do
    let record ← value.record? ["instance", "property", "arguments"]
    return .propertyReference (← record.optional "instance" part)
      (← record.required "property" (Symbol.ofJson? .stored))
      (← record.withDefault "arguments" (Json.list? (Argument.ofJson? part)) [])
  | "ArrayElementReference" => do
    let record ← value.record? ["array", "indices"]
    return .arrayElementReference (← record.required "array" part)
      (← record.required "indices" (Json.list? part))
  | "InstanceReference" => do
    let record ← value.record? ["receiver"]
    return .instanceReference
      (← record.withDefault "receiver" (Json.option? OperationId.ofJson?) none)
  | "FlowCapture" => do
    let record ← value.record? ["id", "value"]
    return .flowCapture (← record.required "id" CaptureId.ofJson?)
      (← record.required "value" part)
  | "FlowCaptureReference" => do
    let record ← value.record? ["id"]
    return .flowCaptureReference (← record.required "id" CaptureId.ofJson?)
  | "VariableDeclarator" => do
    let record ← value.record? ["local", "initializer"]
    return .variableDeclarator (← record.required "local" (Symbol.ofJson? .stored))
      (← record.optional "initializer" part)
  | "SimpleAssignment" => do
    let record ← value.record? ["target", "value"]
    return .simpleAssignment (← record.required "target" part) (← record.required "value" part)
  | "CompoundAssignment" => do
    let record ← value.record? ["operator", "target", "value"]
    return .compoundAssignment
      (← record.required "operator" (Json.choice? .stored BinaryOperator.names))
      (← record.required "target" part) (← record.required "value" part)
  | "ObjectCreation" => do
    let record ← value.record? ["constructor", "arguments", "initializer"]
    return .objectCreation (← record.optional "constructor" (Symbol.ofJson? .stored))
      (← record.required "arguments" (Json.list? (Argument.ofJson? part)))
      (← record.optional "initializer" part)
  | "DynamicObjectCreation" => do
    let record ← value.record? ["arguments", "initializer"]
    return .dynamicObjectCreation (← record.required "arguments" (Json.list? part))
      (← record.optional "initializer" part)
  | "ArrayCreation" => do
    let record ← value.record? ["dimension_sizes", "initializer"]
    return .arrayCreation (← record.required "dimension_sizes" (Json.list? part))
      (← record.optional "initializer" part)
  | "ArrayInitializer" => do
    let record ← value.record? ["element_values"]
    return .arrayInitializer (← record.required "element_values" (Json.list? part))
  | "ObjectOrCollectionInitializer" => do
    let record ← value.record? ["initializers"]
    return .objectInitializer (← record.required "initializers" (Json.list? part))
  | "AnonymousObjectCreation" => do
    let record ← value.record? ["initializers"]
    return .anonymousObjectCreation (← record.required "initializers" (Json.list? part))
  | "TypeParameterObjectCreation" => do
    let record ← value.record? ["initializer"]
    return .typeParameterObjectCreation (← record.optional "initializer" part)
  | "DelegateCreation" => do
    let record ← value.record? ["target"]
    return .delegateCreation (← record.required "target" part)
  | "AnonymousFunction" => do
    let record ← value.record? ["symbol"]
    return .anonymousFunction (← record.required "symbol" (Symbol.ofJson? .stored))
  | "Invocation" => do
    let record ← value.record? ["target", "instance", "arguments"]
    return .invocation (← record.required "target" (Callee.ofJson? part))
      (← record.optional "instance" part)
      (← record.required "arguments" (Json.list? (Argument.ofJson? part)))
  | "DynamicInvocation" => do
    let record ← value.record? ["operation", "arguments"]
    return .dynamicInvocation (← record.required "operation" part)
      (← record.required "arguments" (Json.list? part))
  | "Await" => do
    let record ← value.record? ["operation"]
    return .await (← record.required "operation" part)
  | "IsType" => do
    let record ← value.record? ["value_operand", "type_operand"]
    return .isType (← record.required "value_operand" part)
      (← record.required "type_operand" (StaticType.ofJson? .stored))
  | "IsPattern" => do
    let record ← value.record? ["value", "pattern"]
    return .isPattern (← record.required "value" part) (← record.required "pattern" part)
  | "DeclarationPattern" => do
    let record ← value.record? ["declared_symbol", "matched_type"]
    return .declarationPattern (← record.optional "declared_symbol" (Symbol.ofJson? .stored))
      (← record.optional "matched_type" (StaticType.ofJson? .stored))
  | "ConstantPattern" => do
    let record ← value.record? ["value"]
    return .constantPattern (← record.required "value" part)
  | "InterpolatedString" => do
    let record ← value.record? ["parts"]
    return .interpolatedString (← record.required "parts" (Json.list? part))
  | "Tuple" => do
    let record ← value.record? ["elements"]
    return .tuple (← record.required "elements" (Json.list? part))
  | "Binary" => do
    let record ← value.record? ["operator", "left", "right"]
    return .binary (← record.required "operator" (Json.choice? .stored BinaryOperator.names))
      (← record.required "left" part) (← record.required "right" part)
  | "Unary" => do
    let record ← value.record? ["operator", "operand"]
    return .unary (← record.required "operator" (Json.choice? .stored UnaryOperator.names))
      (← record.required "operand" part)
  | "Conversion" => do
    let record ← value.record? ["operand", "conversion"]
    return .conversion (← record.required "operand" part)
      (← record.required "conversion" (Json.choice? .stored ConversionKind.names))
  | "Conditional" => do
    let record ← value.record? ["condition", "when_true", "when_false"]
    return .conditional (← record.required "condition" part)
      (← record.required "when_true" part) (← record.optional "when_false" part)
  | "Coalesce" => do
    let record ← value.record? ["value", "when_null"]
    return .coalesce (← record.required "value" part) (← record.required "when_null" part)
  | "Throw" => do
    let record ← value.record? ["exception"]
    return .throwing (← record.optional "exception" part)
  | "Return" => do
    let record ← value.record? ["value"]
    return .returning (← record.optional "value" part)
  | "ExpressionStatement" => do
    let record ← value.record? ["operation"]
    return .expressionStatement (← record.required "operation" part)
  | "SizeOf" => do
    let record ← value.record? ["type_operand"]
    return .sizeOf (← record.required "type_operand" (StaticType.ofJson? .stored))
  | "TypeOf" => do
    let record ← value.record? ["type_operand"]
    return .typeOf (← record.required "type_operand" (StaticType.ofJson? .stored))
  | "NameOf" => do
    let record ← value.record? ["argument"]
    return .nameOf (← record.required "argument" part)
  | "Other" => do
    let record ← value.record? ["children"]
    return .other (← record.withDefault "children" (Json.list? part) [])
  | _ => none

/-- Reads a form. -/
def ofJson? (access : Access) (part : Json → Option α) (value : Json) : Option (Form α) := do
  let (tag, rest) ← value.tagged? "op"
  let name ← Json.kind? access names tag
  ofFields? part name rest

end Form

namespace Operation

/-- The JSON form of an operation, given the JSON forms of its parts. -/
def toRecord (operation : Operation) (parts : Form Json) : Json :=
  .record [("id", operation.id.toJson), ("kind", parts.toJson fun part => part),
    ("ty", .ofOption StaticType.toJson operation.type?),
    ("constant", .ofOption Constant.toJson operation.constant?)]

/-- The JSON form of an operation. -/
def toJson (operation : Operation) : Json := operation.fold toRecord

/-- Reads an operation whose form is read with `form`. -/
def ofRecord? (access : Access) (form : Json → Option (Form Operation)) (value : Json) :
    Option Operation := do
  let record ← value.record? ["id", "kind", "ty", "constant"]
  let id ← record.required "id" OperationId.ofJson?
  let form ← record.required "kind" form
  let type? ← record.withDefault "ty" (Json.option? (StaticType.ofJson? access)) none
  let constant? ← record.withDefault "constant" (Json.option? (Constant.ofJson? access)) none
  return ⟨id, form, type?, constant?⟩

/-- Reads an operation that is part of a form.  Operations nest at most as deep as the bound. -/
def ofStored? : Nat → Json → Option Operation
  | 0, _ => none
  | bound + 1, value => ofRecord? .stored (Form.ofJson? .stored (ofStored? bound)) value

/-- Reads a form that stands inside of the given number of arrays and objects. -/
def formOfJson? (outer : Nat) (value : Json) : Option (Form Operation) := do
  guard (value.depth + outer ≤ Json.depthLimit)
  guard value.isStorable
  Form.ofJson? .direct (ofStored? value.depth) value

/-- Reads an operation that stands inside of the given number of arrays and objects. -/
def ofJson? (outer : Nat) (value : Json) : Option Operation :=
  ofRecord? .direct (formOfJson? (outer + 1)) value

/-- Reads an operation from the text of its JSON form. -/
def ofText? (text : String) : Option Operation := Json.ofText? text >>= ofJson? 0

end Operation
end HeapFlow
