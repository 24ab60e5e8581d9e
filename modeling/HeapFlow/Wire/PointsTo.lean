import HeapFlow.Domain.PointsTo
import HeapFlow.Domain.Truth
import HeapFlow.Text.Full
import HeapFlow.Wire.Operation

/-! # The JSON form of abstract values

Reading a known points-to value takes the listed locations as they are: their number is not
limited.
-/
namespace HeapFlow

open Json (Access)

namespace Location

/-- The JSON form of a location. -/
def toJson : Location → Json
  | .null => .text "Null"
  | .referent symbol => .record [("Symbol", .record [("symbol", symbol.toJson)])]
  | .creation operation type =>
    .record [("Creation", .record [("operation", operation.toJson), ("ty", type.toJson)])]
  | .self type => .record [("ThisOrMe", .record [("ty", type.toJson)])]

/-- Reads the data of a symbol's location. -/
def referentOfJson? (value : Json) : Option Location := do
  let record ← value.record? ["symbol"]
  let symbol ← record.required "symbol" (Symbol.ofJson? .direct)
  return .referent symbol

/-- Reads the data of an allocation site. -/
def creationOfJson? (value : Json) : Option Location := do
  let record ← value.record? ["operation", "ty"]
  let operation ← record.required "operation" OperationId.ofJson?
  let type ← record.required "ty" (StaticType.ofJson? .direct)
  return .creation operation type

/-- Reads the data of the self instance. -/
def selfOfJson? (value : Json) : Option Location := do
  let record ← value.record? ["ty"]
  let type ← record.required "ty" (StaticType.ofJson? .direct)
  return .self type

/-- Reads a location. -/
def ofJson? (value : Json) : Option Location := do
  match ← value.variant? with
  | ("Null", data) => do
    guard (Json.isUnit .direct data)
    return .null
  | ("Symbol", some data) => referentOfJson? data
  | ("Creation", some data) => creationOfJson? data
  | ("ThisOrMe", some data) => selfOfJson? data
  | _ => none

end Location

namespace PointsTo

/-- The JSON form of a points-to value. -/
def toJson : PointsTo → Json
  | .undefined => .text "Undefined"
  | .noLocation => .text "NoLocation"
  | .known locations => .record [("Known", .ofList Location.toJson locations.toList)]
  | .unknown => .text "Unknown"

/-- Reads a points-to value. -/
def ofJson? (value : Json) : Option PointsTo := do
  match ← value.variant? with
  | ("Undefined", data) => do
    guard (Json.isUnit .direct data)
    return .undefined
  | ("NoLocation", data) => do
    guard (Json.isUnit .direct data)
    return .noLocation
  | ("Known", some data) => do
    let locations ← Json.list? Location.ofJson? data
    return .known (.ofList locations)
  | ("Unknown", data) => do
    guard (Json.isUnit .direct data)
    return .unknown
  | _ => none

end PointsTo

namespace Truth

/-- The JSON form of a set of truth values. -/
def toJson (value : Truth) : Json := .text value.name

/-- Reads a set of truth values. -/
def ofJson? : Json → Option Truth :=
  Json.choice? .direct
    [("Bottom", .bottom), ("False", .isFalse), ("True", .isTrue), ("Top", .top)]

end Truth
end HeapFlow
