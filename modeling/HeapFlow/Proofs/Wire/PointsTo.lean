import HeapFlow.Proofs.Domain.LocationSet
import HeapFlow.Proofs.Wire.Operation
import HeapFlow.Wire.PointsTo

/-! # Points-to values are read back

A location is read back from its JSON form, and so is a points-to value, however many locations it
has: the locations of a set are listed in ascending order, and listing them is enough to get the set
again (`LocationSet.ofList_toList`).
-/
namespace HeapFlow

namespace LocationSet

theorem mem_ofList {l : Location} {locations : List Location} :
    l ∈ ofList locations ↔ l ∈ locations := by
  have hempty : l ∉ empty := List.not_mem_nil
  rw [ofList, mem_foldl_insert, or_iff_left hempty]

/-- A set is the set of its locations. -/
theorem ofList_toList (set : LocationSet) : ofList set.toList = set :=
  ext_mem fun _ => mem_ofList

end LocationSet

namespace Location

theorem referentOfJson?_record (symbol : Symbol) :
    referentOfJson? (.record [("symbol", symbol.toJson)]) = some (.referent symbol) := by
  simp -implicitDefEqProofs [referentOfJson?]

theorem creationOfJson?_record (operation : OperationId) (type : StaticType) :
    creationOfJson? (.record [("operation", operation.toJson), ("ty", type.toJson)]) =
      some (.creation operation type) := by
  simp -implicitDefEqProofs [creationOfJson?]

theorem selfOfJson?_record (type : StaticType) :
    selfOfJson? (.record [("ty", type.toJson)]) = some (.self type) := by
  simp -implicitDefEqProofs [selfOfJson?]

@[simp] theorem plain_toJson (location : Location) : location.toJson.Plain := by
  cases location <;> simp [toJson]

@[simp] theorem ofJson?_toJson (location : Location) : ofJson? location.toJson = some location := by
  cases location with
  | null => rfl
  | referent symbol =>
    have hdata (data : Json) : ofJson? (.record [("Symbol", data)]) = referentOfJson? data := rfl
    rw [toJson, hdata, referentOfJson?_record]
  | creation operation type =>
    have hdata (data : Json) : ofJson? (.record [("Creation", data)]) = creationOfJson? data := rfl
    rw [toJson, hdata, creationOfJson?_record]
  | self type =>
    have hdata (data : Json) : ofJson? (.record [("ThisOrMe", data)]) = selfOfJson? data := rfl
    rw [toJson, hdata, selfOfJson?_record]

end Location

namespace PointsTo

@[simp] theorem plain_toJson (value : PointsTo) : value.toJson.Plain := by
  cases value <;> simp [toJson]

@[simp] theorem ofJson?_toJson (value : PointsTo) : ofJson? value.toJson = some value := by
  cases value with
  | undefined | noLocation | unknown => rfl
  | known locations =>
    have hlist : Json.list? Location.ofJson? (.ofList Location.toJson locations.toList) =
        some locations.toList := Json.list?_ofList fun l _ => l.ofJson?_toJson
    have hdata (data : Json) : ofJson? (.record [("Known", data)]) =
        Json.list? Location.ofJson? data >>= fun list => some (.known (.ofList list)) := rfl
    rw [toJson, hdata, hlist]
    exact congrArg (fun set => some (known set)) locations.ofList_toList

end PointsTo
end HeapFlow
