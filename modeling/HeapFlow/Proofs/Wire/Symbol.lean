import HeapFlow.Proofs.Json.Plain
import HeapFlow.Wire.Symbol

/-! # Types, symbols and constants are read back

However the data is accessed, a type, a symbol or a constant is read back from its JSON form, which
is plain.
-/
namespace HeapFlow

open Json (Access)

@[simp] theorem TypeKind.choice?_name (access : Access) (kind : TypeKind) :
    Json.choice? access TypeKind.names (.text kind.name) = some kind := by
  cases kind <;> rfl

namespace StaticType

@[simp] theorem toJson_ne_null (type : StaticType) : type.toJson ≠ .null := nofun

@[simp] theorem plain_toJson (type : StaticType) : type.toJson.Plain := by
  simp [toJson]

@[simp] theorem ofJson?_toJson (access : Access) (type : StaticType) :
    ofJson? access type.toJson = some type := by
  simp -implicitDefEqProofs [ofJson?, toJson]

end StaticType

namespace Passing

@[simp] theorem plain_toJson (passing : Passing) : passing.toJson.Plain := Json.plain_text _

@[simp] theorem ofJson?_toJson (access : Access) (passing : Passing) :
    ofJson? access passing.toJson = some passing := by
  cases passing <;> rfl

end Passing

namespace SymbolKind

@[simp] theorem plain_toJson (kind : SymbolKind) : kind.toJson.Plain := by
  cases kind <;> simp [toJson, memberToJson]

theorem isStaticOfJson?_record (isStatic : Bool) :
    isStaticOfJson? (.record [("is_static", .bool isStatic)]) = some isStatic := by
  simp -implicitDefEqProofs [isStaticOfJson?]

theorem parameterOfJson?_record (access : Access) (ordinal : UInt64) (passing : Passing) :
    parameterOfJson? access (.record [("ordinal", .nat ordinal.toNat),
      ("ref_kind", passing.toJson)]) = some (.parameter ordinal passing) := by
  simp -implicitDefEqProofs [parameterOfJson?]

@[simp] theorem ofJson?_toJson (access : Access) (kind : SymbolKind) :
    ofJson? access kind.toJson = some kind := by
  cases kind with
  | localVariable | localFunction => rfl
  | parameter ordinal passing =>
    have hdata (data : Json) :
        ofJson? access (.record [("Parameter", data)]) = parameterOfJson? access data := rfl
    rw [toJson, hdata, parameterOfJson?_record]
  | field isStatic => exact congrArg (field <$> ·) (isStaticOfJson?_record isStatic)
  | property isStatic => exact congrArg (property <$> ·) (isStaticOfJson?_record isStatic)
  | method isStatic => exact congrArg (method <$> ·) (isStaticOfJson?_record isStatic)

end SymbolKind

namespace Symbol

@[simp] theorem toJson_ne_null (symbol : Symbol) : symbol.toJson ≠ .null := nofun

@[simp] theorem plain_toJson (symbol : Symbol) : symbol.toJson.Plain := by
  simp [toJson]

@[simp] theorem ofJson?_toJson (access : Access) (symbol : Symbol) :
    ofJson? access symbol.toJson = some symbol := by
  simp -implicitDefEqProofs [ofJson?, toJson]

end Symbol

namespace Constant

@[simp] theorem toJson_ne_null (constant : Constant) : constant.toJson ≠ .null := by
  cases constant <;> nofun

@[simp] theorem plain_toJson (constant : Constant) : constant.toJson.Plain := by
  cases constant <;> simp [toJson]

@[simp] theorem ofJson?_toJson (access : Access) (constant : Constant) :
    ofJson? access constant.toJson = some constant := by
  cases constant with
  | null | bool | text => rfl
  | char c => exact congrArg (char <$> ·) (Json.char?_text c)
  | int n => exact congrArg (int <$> ·) (Json.int64?_int n)

end Constant
end HeapFlow
