import HeapFlow.Entity.Basic
import HeapFlow.Program.ControlFlow

/-! # Brief texts

The brief text of a value is made for messages: symbols and types are shown by their names alone.
-/
namespace HeapFlow

namespace OperationId

/-- The text of the id of an operation. -/
def briefText (id : OperationId) : String := "op_" ++ toString id.number.toNat

end OperationId

namespace BlockId

/-- The text of the id of a block. -/
def briefText (id : BlockId) : String := "bb" ++ toString id.number.toNat

end BlockId

namespace ControlFlowGraph

/-- The text of a block: its id and the targets of its edges. -/
def blockText (block : Block) : String :=
  block.id.briefText ++ ": [" ++
    ", ".intercalate (block.successors.map (·.target.briefText)) ++ "]"

/-- The text of a graph: all blocks along with the targets of their edges. -/
def briefText (graph : ControlFlowGraph) : String :=
  "\x7b" ++ ", ".intercalate (graph.blocks.map blockText) ++ "\x7d"

end ControlFlowGraph

namespace SymbolId

/-- The text of the id of a symbol. -/
def briefText (id : SymbolId) : String := "SymbolId(" ++ toString id.number.toNat ++ ")"

end SymbolId

namespace Location

/-- The text of a location. -/
def briefText : Location → String
  | .null => "null"
  | .referent symbol => "*" ++ symbol.name
  | .creation operation type => "new " ++ type.name ++ "@" ++ operation.briefText
  | .self type => "this:" ++ type.name

end Location

namespace PointsTo

/-- The text of a points-to value. -/
def briefText : PointsTo → String
  | .undefined => "Undefined"
  | .noLocation => "NoLocation"
  | .known locations =>
    "\x7b" ++ ", ".intercalate (locations.toList.map (·.briefText)) ++ "\x7d"
  | .unknown => "Unknown"

end PointsTo

namespace Index

/-- The text of an index. -/
def briefText : Index → String
  | .constant n => toString n.toInt
  | .operation id => id.briefText

end Index

namespace Place

/-- The text of a place, as it stands behind the text of its instance. -/
def briefText : Place → String
  | .localVariable symbol | .parameter symbol => symbol.name
  | .member symbol => "." ++ symbol.name
  | .element indices => "[" ++ ", ".intercalate (indices.map (·.briefText)) ++ "]"
  | .self => "this"
  | .capture id => "capture_" ++ toString id.number.toNat
  | .result => "result"

end Place

namespace Storage

/-- The owner of storage in front of its text, if it is known. -/
def ownerText (storage : Storage) : String :=
  if storage.owner.isKnown then "<" ++ storage.owner.briefText ++ ">" else ""

/-- The text of storage behind the text of what encloses it. -/
def pathText (storage : Storage) : List Storage → String
  | [] => storage.ownerText ++ storage.place.briefText
  | parent :: enclosing => parent.pathText enclosing ++ storage.place.briefText

end Storage

namespace Entity

/-- The text of an entity: the owner of the outermost storage and the places from there on. -/
def briefText (e : Entity) : String := e.toStorage.pathText e.enclosing

end Entity
end HeapFlow
