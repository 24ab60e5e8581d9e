import HeapFlow.Proofs.Wire.PointsTo
import HeapFlow.Wire.Summary

/-! # Summaries are read back

A summary is read back from its text (`Summary.toText_readBack`), whatever its names and locations
are and however many locations a value has.  The parts of a summary nest in each other only a few
levels deep, no matter what they hold (`Summary.depth_toJson_le`).  So unlike a routine a summary
never exceeds the depth to which a text can be read.
-/
namespace HeapFlow

/-! ## Depth -/

namespace Json

@[simp] theorem depth_text (s : String) : (text s).depth = 0 := rfl

@[simp] theorem depth_bool (b : Bool) : (Json.bool b).depth = 0 := rfl

@[simp] theorem depth_nat (n : Nat) : (nat n).depth = 0 := rfl

@[simp] theorem depth_record_le_iff {fields : List (String × Json)} {n : Nat} :
    (record fields).depth ≤ n + 1 ↔ ∀ field ∈ fields, field.2.depth ≤ n := by
  refine Nat.succ_le_succ_iff.trans (depthOfMembers_le_iff.trans ?_)
  constructor
  · intro h field hfield
    exact h (some field.1, field.2) (List.mem_map_of_mem hfield)
  · intro h member hmember
    obtain ⟨field, hfield, rfl⟩ := List.mem_map.1 hmember
    exact h field hfield

@[simp] theorem depth_ofList_le_iff {α : Type} {write : α → Json} {as : List α} {n : Nat} :
    (ofList write as).depth ≤ n + 1 ↔ ∀ a ∈ as, (write a).depth ≤ n := by
  refine Nat.succ_le_succ_iff.trans (depthOfItems_le_iff.trans ?_)
  simp only [List.forall_mem_map]

theorem depth_ofOption_le {α : Type} {write : α → Json} {n : Nat}
    (h : ∀ a, (write a).depth ≤ n) (a? : Option α) : (ofOption write a?).depth ≤ n := by
  cases a? with
  | none => exact Nat.zero_le n
  | some a => exact h a

end Json

@[simp] theorem StaticType.depth_toJson (type : StaticType) : type.toJson.depth = 1 := rfl

@[simp] theorem Passing.depth_toJson (passing : Passing) : passing.toJson.depth = 0 := rfl

@[simp] theorem OperationId.depth_toJson (id : OperationId) : id.toJson.depth = 0 := rfl

theorem SymbolKind.depth_toJson_le (kind : SymbolKind) : kind.toJson.depth ≤ 2 := by
  cases kind with
  | localVariable | localFunction => exact Nat.zero_le 2
  | parameter | field | property | method => exact Nat.le_refl 2

theorem Symbol.depth_toJson_le (symbol : Symbol) : symbol.toJson.depth ≤ 3 := by
  simp [toJson, symbol.kind.depth_toJson_le]

theorem Location.depth_toJson_le (location : Location) : location.toJson.depth ≤ 5 := by
  cases location with
  | null => exact Nat.zero_le 5
  | referent symbol => simp [toJson, symbol.depth_toJson_le]
  | creation operation type => simp [toJson]
  | self type => simp [toJson]

theorem PointsTo.depth_toJson_le (value : PointsTo) : value.toJson.depth ≤ 7 := by
  cases value with
  | undefined | noLocation | unknown => exact Nat.zero_le 7
  | known locations => simp [toJson, Location.depth_toJson_le]

/-! ## Summaries of parameters -/

namespace ParameterSummary

variable (summary : ParameterSummary)

theorem depth_toJson_le : summary.toJson.depth ≤ 8 := by
  simp [toJson, summary.value.depth_toJson_le]

@[simp] theorem plain_toJson : summary.toJson.Plain := by
  simp [toJson]

@[simp] theorem ofJson?_toJson : ofJson? summary.toJson = some summary := by
  simp -implicitDefEqProofs [ofJson?, toJson]

end ParameterSummary

/-! ## Summaries -/

theorem PointsTo.toJson_ne_null (value : PointsTo) : value.toJson ≠ .null := by
  cases value <;> nofun

namespace Summary

variable (summary : Summary)

/-- However many parameters, locations and characters there are, the depth is limited. -/
theorem depth_toJson_le : summary.toJson.depth ≤ 10 := by
  have hvalue : (Json.ofOption PointsTo.toJson summary.returnValue?).depth ≤ 9 :=
    Json.depth_ofOption_le (fun value => Nat.le_trans value.depth_toJson_le (by decide)) _
  simp [toJson, hvalue, ParameterSummary.depth_toJson_le]

theorem plain_toJson : summary.toJson.Plain := by
  simp [toJson]

theorem ofJson?_toJson : ofJson? summary.toJson = some summary := by
  simp -implicitDefEqProofs [ofJson?, toJson, PointsTo.toJson_ne_null]

/-- **Summaries are read back.**  The text of a summary is a JSON text that is not nested too deep,
and reading it gives the summary. -/
theorem toText_readBack (summary : Summary) :
    Json.ofText? summary.toText = some summary.toJson ∧
      summary.toJson.depth ≤ Json.depthLimit ∧ ofText? summary.toText = some summary := by
  have hvalue : Json.ofText? summary.toText = some summary.toJson :=
    Json.ofText?_toText summary.plain_toJson.isProper
  refine ⟨hvalue, Nat.le_trans summary.depth_toJson_le (by decide), ?_⟩
  rw [ofText?, hvalue]
  exact summary.ofJson?_toJson

end Summary
end HeapFlow
