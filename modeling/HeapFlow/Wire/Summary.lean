import HeapFlow.Client.Summary
import HeapFlow.Json.Reader
import HeapFlow.Json.Writer
import HeapFlow.Wire.PointsTo

/-! # The JSON form of summaries -/
namespace HeapFlow

namespace ParameterSummary

/-- The JSON form of the summary of a parameter. -/
def toJson (summary : ParameterSummary) : Json :=
  .record [("ordinal", .nat summary.ordinal.toNat), ("name", .text summary.name),
    ("ref_kind", summary.passing.toJson), ("value", summary.value.toJson)]

/-- Reads the summary of a parameter. -/
def ofJson? (value : Json) : Option ParameterSummary := do
  let record ← value.record? ["ordinal", "name", "ref_kind", "value"]
  let ordinal ← record.required "ordinal" Json.uint64?
  let name ← record.required "name" Json.text?
  let passing ← record.required "ref_kind" (Passing.ofJson? .direct)
  let value ← record.required "value" PointsTo.ofJson?
  return ⟨ordinal, name, passing, value⟩

end ParameterSummary

namespace Summary

/-- The JSON form of a summary. -/
def toJson (summary : Summary) : Json :=
  .record [("is_computed", .bool summary.isComputed),
    ("is_incomplete", .bool summary.isIncomplete),
    ("return_value", .ofOption PointsTo.toJson summary.returnValue?),
    ("by_ref_parameters", .ofList ParameterSummary.toJson summary.parameters)]

/-- Reads a summary. -/
def ofJson? (value : Json) : Option Summary := do
  let record ←
    value.record? ["is_computed", "is_incomplete", "return_value", "by_ref_parameters"]
  let isComputed ← record.required "is_computed" Json.bool?
  let isIncomplete ← record.required "is_incomplete" Json.bool?
  let returnValue? ← record.optional "return_value" PointsTo.ofJson?
  let parameters ← record.required "by_ref_parameters" (Json.list? ParameterSummary.ofJson?)
  return ⟨isComputed, isIncomplete, returnValue?, parameters⟩

/-- The text of the JSON form of a summary. -/
def toText (summary : Summary) : String := summary.toJson.toText

/-- Reads a summary from the text of its JSON form. -/
def ofText? (text : String) : Option Summary := Json.ofText? text >>= ofJson?

end Summary
end HeapFlow
