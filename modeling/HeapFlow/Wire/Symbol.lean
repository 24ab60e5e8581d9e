import HeapFlow.Json.Record
import HeapFlow.Program.Operation

/-! # The JSON form of types, symbols and constants

Every type has a function that gives the JSON form of its values and a function that reads it back.
Reading a variant without data depends on how the data is accessed, so the readers of types with
such variants take the access as an argument.
-/
namespace HeapFlow

open Json (Access)

namespace TypeKind

/-- The names of the type kinds. -/
def names : List (String × TypeKind) :=
  [("Value", .value), ("Reference", .reference), ("TypeParameter", .typeParameter),
    ("Void", .void)]

/-- The name of a type kind. -/
def name : TypeKind → String
  | .value => "Value"
  | .reference => "Reference"
  | .typeParameter => "TypeParameter"
  | .void => "Void"

end TypeKind

namespace StaticType

/-- The JSON form of a type. -/
def toJson (type : StaticType) : Json :=
  .record [("name", .text type.name), ("kind", .text type.kind.name)]

/-- Reads a type. -/
def ofJson? (access : Access) (value : Json) : Option StaticType := do
  let record ← value.record? ["name", "kind"]
  let name ← record.required "name" Json.text?
  let kind ← record.required "kind" (Json.choice? access TypeKind.names)
  return ⟨name, kind⟩

end StaticType

namespace Passing

/-- The names of the ways to pass an argument. -/
def names : List (String × Passing) :=
  [("None", .byValue), ("In", .readOnly), ("Ref", .byReference), ("Out", .output)]

/-- The name of a way to pass an argument. -/
def name : Passing → String
  | .byValue => "None"
  | .readOnly => "In"
  | .byReference => "Ref"
  | .output => "Out"

/-- The JSON form of a way to pass an argument. -/
def toJson (passing : Passing) : Json := .text passing.name

/-- Reads a way to pass an argument. -/
def ofJson? (access : Access) : Json → Option Passing := Json.choice? access names

end Passing

namespace SymbolKind

/-- The JSON form of a member that may be static. -/
def memberToJson (name : String) (isStatic : Bool) : Json :=
  .record [(name, .record [("is_static", .bool isStatic)])]

/-- The JSON form of a symbol kind. -/
def toJson : SymbolKind → Json
  | .localVariable => .text "Local"
  | .parameter ordinal passing =>
    .record [("Parameter",
      .record [("ordinal", .nat ordinal.toNat), ("ref_kind", passing.toJson)])]
  | .field isStatic => memberToJson "Field" isStatic
  | .property isStatic => memberToJson "Property" isStatic
  | .method isStatic => memberToJson "Method" isStatic
  | .localFunction => .text "LocalFunction"

/-- Reads the data of a parameter. -/
def parameterOfJson? (access : Access) (value : Json) : Option SymbolKind := do
  let record ← value.record? ["ordinal", "ref_kind"]
  let ordinal ← record.required "ordinal" Json.uint64?
  let passing ← record.required "ref_kind" (Passing.ofJson? access)
  return .parameter ordinal passing

/-- Reads whether a member is static. -/
def isStaticOfJson? (value : Json) : Option Bool := do
  let record ← value.record? ["is_static"]
  record.required "is_static" Json.bool?

/-- Reads a symbol kind. -/
def ofJson? (access : Access) (value : Json) : Option SymbolKind := do
  match ← value.variant? with
  | ("Local", data) => do
    guard (Json.isUnit access data)
    return .localVariable
  | ("LocalFunction", data) => do
    guard (Json.isUnit access data)
    return .localFunction
  | ("Parameter", some data) => parameterOfJson? access data
  | ("Field", some data) => .field <$> isStaticOfJson? data
  | ("Property", some data) => .property <$> isStaticOfJson? data
  | ("Method", some data) => .method <$> isStaticOfJson? data
  | _ => none

end SymbolKind

namespace Symbol

/-- The JSON form of a symbol. -/
def toJson (symbol : Symbol) : Json :=
  .record [("id", .nat symbol.id.number.toNat), ("name", .text symbol.name),
    ("kind", symbol.kind.toJson), ("ty", symbol.type.toJson)]

/-- Reads a symbol. -/
def ofJson? (access : Access) (value : Json) : Option Symbol := do
  let record ← value.record? ["id", "name", "kind", "ty"]
  let id ← record.required "id" Json.uint32?
  let name ← record.required "name" Json.text?
  let kind ← record.required "kind" (SymbolKind.ofJson? access)
  let type ← record.required "ty" (StaticType.ofJson? access)
  return ⟨⟨id⟩, name, kind, type⟩

end Symbol

namespace Constant

/-- The JSON form of a constant. -/
def toJson : Constant → Json
  | .null => .text "Null"
  | .bool b => .record [("Bool", .bool b)]
  | .char c => .record [("Char", .text (String.singleton c))]
  | .int n => .record [("Int", .int n.toInt)]
  | .text s => .record [("Str", .text s)]

/-- Reads a constant. -/
def ofJson? (access : Access) (value : Json) : Option Constant := do
  match ← value.variant? with
  | ("Null", data) => do
    guard (Json.isUnit access data)
    return .null
  | ("Bool", some data) => .bool <$> data.bool?
  | ("Char", some data) => .char <$> data.char?
  | ("Int", some data) => .int <$> data.int64?
  | ("Str", some data) => .text <$> data.text?
  | _ => none

end Constant
end HeapFlow
