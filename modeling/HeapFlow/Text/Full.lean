import HeapFlow.Domain.Truth
import HeapFlow.Entity.Basic
import HeapFlow.Wire.Symbol

/-! # Full texts

The full text of a value shows all that the value consists of, so that different values have
different texts unless names make them look alike.  Environments are shown as the texts of their
bindings, in the order of these texts.
-/
namespace HeapFlow

namespace StaticType

/-- A type is shown as its name and its kind. -/
def fullText (type : StaticType) : String := type.name ++ ":" ++ type.kind.name

end StaticType

namespace SymbolKind

/-- The name of a kind of members, which says whether they are static. -/
def memberText (name : String) (isStatic : Bool) : String :=
  if isStatic then "Static" ++ name else name

/-- A symbol kind is shown as its name, a parameter along with its position and passing. -/
def fullText : SymbolKind → String
  | .localVariable => "Local"
  | .parameter ordinal passing =>
    "Parameter(" ++ toString ordinal.toNat ++ "," ++ passing.name ++ ")"
  | .field isStatic => memberText "Field" isStatic
  | .property isStatic => memberText "Property" isStatic
  | .method isStatic => memberText "Method" isStatic
  | .localFunction => "LocalFunction"

end SymbolKind

namespace Symbol

/-- A symbol is shown as its id, its name, its kind and its type. -/
def fullText (symbol : Symbol) : String :=
  "#" ++ toString symbol.id.number.toNat ++ " " ++ symbol.name ++ " " ++ symbol.kind.fullText ++
    " " ++ symbol.type.fullText

end Symbol

namespace Location

/-- A location is shown as what brings it about. -/
def fullText : Location → String
  | .null => "null"
  | .referent symbol => "*" ++ symbol.fullText
  | .creation operation type =>
    "new " ++ type.fullText ++ "@" ++ toString operation.number.toNat
  | .self type => "this " ++ type.fullText

end Location

namespace LocationSet

/-- A set is shown as its locations in ascending order. -/
def fullText (set : LocationSet) : String :=
  "\x7b" ++ ", ".intercalate (set.toList.map (·.fullText)) ++ "\x7d"

end LocationSet

namespace PointsTo

/-- A points-to value is shown as its locations or its name. -/
def fullText : PointsTo → String
  | .undefined => "Undefined"
  | .noLocation => "NoLocation"
  | .known locations => locations.fullText
  | .unknown => "Unknown"

end PointsTo

namespace Truth

/-- The name of a set of truth values. -/
def name : Truth → String
  | .bottom => "Bottom"
  | .isFalse => "False"
  | .isTrue => "True"
  | .top => "Top"

end Truth

namespace Index

/-- An index is shown as its value or as the operation that computes it. -/
def fullText : Index → String
  | .constant n => toString n.toInt
  | .operation id => "op_" ++ toString id.number.toNat

end Index

namespace Place

/-- A place is shown as its kind and what names it. -/
def fullText : Place → String
  | .localVariable symbol => "local " ++ symbol.fullText
  | .parameter symbol => "param " ++ symbol.fullText
  | .member symbol => "member " ++ symbol.fullText
  | .element indices => "element [" ++ ", ".intercalate (indices.map (·.fullText)) ++ "]"
  | .self => "this"
  | .capture id => "capture " ++ toString id.number.toNat
  | .result => "result"

end Place

namespace Storage

/-- Storage is shown as its place, its type and its owner. -/
def fullText (storage : Storage) : String :=
  storage.place.fullText ++ " : " ++ storage.type.fullText ++ " in " ++ storage.owner.fullText

/-- Storage with enclosing storage is shown behind the text of what encloses it. -/
def chainText (storage : Storage) : List Storage → String
  | [] => storage.fullText
  | parent :: enclosing =>
    "(" ++ parent.chainText enclosing ++ ") > " ++ storage.fullText

end Storage

namespace Entity

/-- An entity is shown as its storage and all that it is part of. -/
def fullText (e : Entity) : String := e.toStorage.chainText e.enclosing

end Entity

namespace Environment

variable {K V : Type} [Key K]

/-- The texts of the bindings, in the order of the texts of the keys and then of the values. -/
def listing (keyText : K → String) (valueText : V → String) (env : Environment K V) :
    List (String × String) :=
  (env.entries.map fun (k, v) => (keyText k, valueText v)).mergeSort fun x y =>
    x.1 < y.1 || (x.1 = y.1 && x.2 ≤ y.2)

end Environment
end HeapFlow
