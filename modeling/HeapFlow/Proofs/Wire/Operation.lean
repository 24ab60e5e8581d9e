import HeapFlow.Proofs.Interpreter.Evaluated
import HeapFlow.Proofs.Wire.Symbol
import HeapFlow.Wire.Operation

/-! # Operations are read back

A form is read back from its JSON form if its parts are (`Form.ofJson?_toJson`).  The parts are less
deep than the form, so by induction an operation is read back if the bound on the depth of a stored
operation lets it (`Operation.ofStored?_toJson`).
-/
namespace HeapFlow

open Json (Access)

/-! ## Names and ids -/

@[simp] theorem BinaryOperator.choice?_name (access : Access) (operator : BinaryOperator) :
    Json.choice? access names (.text operator.name) = some operator := by
  cases operator <;> rfl

@[simp] theorem UnaryOperator.choice?_name (access : Access) (operator : UnaryOperator) :
    Json.choice? access names (.text operator.name) = some operator := by
  cases operator <;> rfl

@[simp] theorem ConversionKind.choice?_name (access : Access) (kind : ConversionKind) :
    Json.choice? access names (.text kind.name) = some kind := by
  cases kind <;> rfl

namespace OperationId

@[simp] theorem toJson_ne_null (id : OperationId) : id.toJson ≠ .null := nofun

@[simp] theorem plain_toJson (id : OperationId) : id.toJson.Plain := Json.plain_uint32 id.number

@[simp] theorem ofJson?_toJson (id : OperationId) : ofJson? id.toJson = some id := by
  rw [ofJson?, toJson, Json.uint32?_nat]
  rfl

end OperationId

namespace CaptureId

@[simp] theorem plain_toJson (id : CaptureId) : id.toJson.Plain := Json.plain_uint32 id.number

@[simp] theorem ofJson?_toJson (id : CaptureId) : ofJson? id.toJson = some id := by
  rw [ofJson?, toJson, Json.uint32?_nat]
  rfl

end CaptureId

section Parts

variable {α : Type} {read : Json → Option α} {write : α → Json}

/-! ## Arguments and callees -/

namespace Argument

theorem ofJson?_toJson {argument : Argument α}
    (h : read (write argument.value) = some argument.value) :
    ofJson? read (argument.toJson write) = some argument := by
  simp -implicitDefEqProofs [ofJson?, toJson, h]

@[simp] theorem list?_toJson {arguments : List (Argument α)}
    (h : ∀ argument ∈ arguments, read (write argument.value) = some argument.value) :
    Json.list? (ofJson? read) (.ofList (toJson write) arguments) = some arguments :=
  Json.list?_ofList fun argument hargument => ofJson?_toJson (h argument hargument)

@[simp] theorem plain_toJson {argument : Argument α} :
    (argument.toJson write).Plain ↔ (write argument.value).Plain := by
  simp [toJson]

/-- The values of arguments are less deep than the arguments. -/
@[simp] theorem depth_le_toJson {argument : Argument α} {arguments : List (Argument α)}
    (h : argument ∈ arguments) :
    (write argument.value).depth ≤ (Json.ofList (toJson write) arguments).depth := by
  have hvalue : (write argument.value).depth < (argument.toJson write).depth :=
    Json.depth_lt_record "value" (by simp)
  have hargument := Json.depth_lt_ofList (toJson write) h
  omega

end Argument

namespace Callee

@[simp] theorem ofJson?_toJson {callee : Callee α}
    (h : ∀ target ∈ callee.target?, read (write target) = some target) :
    ofJson? read (callee.toJson write) = some callee := by
  cases callee with
  | method called => simp -implicitDefEqProofs [ofJson?, toJson]
  | localFunction function => simp -implicitDefEqProofs [ofJson?, toJson]
  | delegate target => simp -implicitDefEqProofs [ofJson?, toJson, h target rfl]

@[simp] theorem plain_toJson {callee : Callee α} :
    (callee.toJson write).Plain ↔ ∀ target ∈ callee.target?, (write target).Plain := by
  cases callee <;> simp [toJson, target?]

@[simp] theorem depth_le_toJson {callee : Callee α} {target : α}
    (h : callee.target? = some target) :
    (write target).depth ≤ (callee.toJson write).depth := by
  cases callee with
  | method | localFunction => cases h
  | delegate =>
    obtain rfl := Option.some.inj h
    exact Nat.le_of_lt (Json.depth_lt_record "target" (by simp))

end Callee

/-! ## Forms -/

namespace Form

/-- The fields of a form are read back if its parts are. -/
theorem ofFields?_toFields (hnull : ∀ a, write a ≠ .null) {form : Form α}
    (h : ∀ part ∈ form.children, read (write part) = some part) :
    ofFields? read (form.toFields write).1 (.record (form.toFields write).2) = some form := by
  -- What is known of the parts in a list is known of its elements only, hence `+contextual`.
  cases form <;> simp [children, or_imp, forall_and] at h <;>
    simp -implicitDefEqProofs +contextual [toFields, ofFields?, hnull, h]

/-- A form is plain if its parts are. -/
theorem plain_toJson {form : Form α} (h : ∀ part ∈ form.children, (write part).Plain) :
    (form.toJson write).Plain := by
  cases form <;> simp [children, or_imp, forall_and] at h <;>
    simp +contextual [toJson, toFields, h]

theorem name_mem_names (write : α → Json) (form : Form α) : (form.toFields write).1 ∈ names := by
  cases form <;> simp [toFields, names]

/-- No field of a form has the name of the tag. -/
theorem op_not_mem_toFields (write : α → Json) (form : Form α) :
    "op" ∉ (form.toFields write).2.map Prod.fst := by
  cases form <;> simp [toFields]

/-- A form is read back if its parts are. -/
theorem ofJson?_toJson (access : Access) (hnull : ∀ a, write a ≠ .null) {form : Form α}
    (h : ∀ part ∈ form.children, read (write part) = some part) :
    ofJson? access read (form.toJson write) = some form := by
  rw [ofJson?, toJson, Json.tagged?_record (op_not_mem_toFields write form)]
  show (Json.kind? access names (.text (form.toFields write).1) >>= fun name =>
    ofFields? read name (.record (form.toFields write).2)) = some form
  rw [Json.kind?_text (name_mem_names write form)]
  exact ofFields?_toFields hnull h

/-- Every part is written into a field of the form. -/
theorem exists_field_of_part (write : α → Json) {form : Form α} {part : α}
    (h : part ∈ form.children) :
    ∃ field ∈ (form.toFields write).2, (write part).depth ≤ field.2.depth := by
  revert part
  cases form <;> simp +contextual [children, or_imp, toFields]

/-- The parts of a form are less deep than the form. -/
theorem depth_lt_toJson (write : α → Json) {form : Form α} {part : α}
    (h : part ∈ form.children) :
    (write part).depth < (form.toJson write).depth := by
  obtain ⟨⟨name, value⟩, hfield, hle⟩ := exists_field_of_part write h
  exact Nat.lt_of_le_of_lt hle (Json.depth_lt_record name (List.mem_cons_of_mem _ hfield))

end Form
end Parts

/-! ## Operations -/

section Fold

variable {β : Type} (combine : Operation → Form β → β) (write : β → Json)

theorem Callee.toJson_foldCallee (callee : Callee Operation) :
    (Operation.foldCallee combine callee).toJson write =
      callee.toJson fun part => write (part.fold combine) := by
  cases callee <;> rfl

/-- To write what the parts are folded to is to fold each part and write the result. -/
theorem Form.toFields_foldForm (form : Form Operation) :
    (Operation.foldForm combine form).toFields write =
      form.toFields fun part => write (part.fold combine) := by
  cases form <;>
    simp [Operation.foldForm, toFields, Operation.foldOption_eq, Operation.foldList_eq,
      Operation.foldArguments_eq, Json.ofList_map, Json.ofOption_map, Argument.toJson,
      Callee.toJson_foldCallee]

end Fold

namespace Operation

theorem toJson_eq (operation : Operation) :
    operation.toJson = .record [("id", operation.id.toJson), ("kind", operation.form.toJson toJson),
      ("ty", .ofOption StaticType.toJson operation.type?),
      ("constant", .ofOption Constant.toJson operation.constant?)] := by
  obtain ⟨id, form, type?, constant?⟩ := operation
  have hform : (foldForm toRecord form).toJson (fun part => part) = form.toJson toJson := by
    rw [Form.toJson, Form.toFields_foldForm]
    rfl
  show toRecord ⟨id, form, type?, constant?⟩ (foldForm toRecord form) = _
  rw [toRecord, hform]

@[simp] theorem toJson_ne_null (operation : Operation) : operation.toJson ≠ .null := by
  rw [toJson_eq]
  exact Json.record_ne_null _

@[simp] theorem plain_toJson (operation : Operation) : operation.toJson.Plain := by
  induction operation using induction_children with
  | h operation ih =>
    rw [toJson_eq]
    simp [Form.plain_toJson ih]

theorem depth_form_lt (operation : Operation) :
    (operation.form.toJson toJson).depth < operation.toJson.depth := by
  rw [toJson_eq]
  exact Json.depth_lt_record "kind" (by simp)

/-- An operation is read back if its form is. -/
theorem ofRecord?_toJson (access : Access) {readForm : Json → Option (Form Operation)}
    {operation : Operation} (h : readForm (operation.form.toJson toJson) = some operation.form) :
    ofRecord? access readForm operation.toJson = some operation := by
  rw [toJson_eq]
  obtain ⟨id, form, type?, constant?⟩ := operation
  simp -implicitDefEqProofs [ofRecord?, h]

/-- A stored operation is read back unless it is too deep. -/
theorem ofStored?_toJson {operation : Operation} {bound : Nat}
    (h : operation.toJson.depth ≤ bound) : ofStored? bound operation.toJson = some operation := by
  induction operation using induction_children generalizing bound with
  | h operation ih =>
    have hform := operation.depth_form_lt
    obtain ⟨bound, rfl⟩ : ∃ b, bound = b + 1 := ⟨bound - 1, by omega⟩
    have hread : ∀ part ∈ operation.children, ofStored? bound part.toJson = some part := by
      intro part hpart
      have hlt := Form.depth_lt_toJson toJson hpart
      exact ih part hpart (by omega)
    exact ofRecord?_toJson .stored (Form.ofJson?_toJson .stored toJson_ne_null hread)

/-- The form of an operation is read back if there is room for its depth. -/
theorem formOfJson?_toJson {operation : Operation} {outer : Nat}
    (h : operation.toJson.depth + outer ≤ Json.depthLimit + 1) :
    formOfJson? outer (operation.form.toJson toJson) = some operation.form := by
  have hform := operation.depth_form_lt
  have hplain : (operation.form.toJson toJson).Plain :=
    Form.plain_toJson fun part _ => part.plain_toJson
  have hread : Form.ofJson? .direct (ofStored? (operation.form.toJson toJson).depth)
      (operation.form.toJson toJson) = some operation.form :=
    Form.ofJson?_toJson .direct toJson_ne_null fun part hpart =>
      ofStored?_toJson (Nat.le_of_lt (Form.depth_lt_toJson toJson hpart))
  have hroom : (guard ((operation.form.toJson toJson).depth + outer ≤ Json.depthLimit) :
      Option Unit) = some () := if_pos (by omega)
  rw [formOfJson?, hroom, hplain.isStorable, hread]
  rfl

/-- An operation is read back if there is room for its depth. -/
theorem ofJson?_toJson {operation : Operation} {outer : Nat}
    (h : operation.toJson.depth + outer ≤ Json.depthLimit) :
    ofJson? outer operation.toJson = some operation :=
  ofRecord?_toJson .direct (formOfJson?_toJson (by omega))

/-- An operation is read back from its text, unless the arrays and objects in the text are nested
too deep. -/
theorem ofText?_toText {operation : Operation} (h : operation.toJson.depth ≤ Json.depthLimit) :
    ofText? operation.toJson.toText = some operation := by
  rw [ofText?, Json.ofText?_toText operation.plain_toJson.isProper]
  exact ofJson?_toJson h

end Operation
end HeapFlow
