import HeapFlow.Json.Reader
import HeapFlow.Program.ControlFlow
import HeapFlow.Wire.Operation

/-! # The JSON form of routines

A routine is a record that holds its blocks in the field `cfg`.  Whether there are any blocks is
found out as soon as the list of blocks has been read: a list without blocks is reported even if
the text that follows it is at fault, while a fault before it is reported first.
-/
namespace HeapFlow

open Json (Access Leading)

namespace BlockId

/-- The JSON form of the id of a block. -/
def toJson (id : BlockId) : Json := .nat id.number.toNat

/-- Reads the id of a block. -/
def ofJson? (value : Json) : Option BlockId := BlockId.mk <$> value.uint64?

end BlockId

namespace EdgeCondition

/-- The names of the edge conditions. -/
def names : List (String × EdgeCondition) :=
  [("Always", .always), ("WhenTrue", .whenTrue), ("WhenFalse", .whenFalse)]

/-- The name of an edge condition. -/
def name : EdgeCondition → String
  | .always => "Always"
  | .whenTrue => "WhenTrue"
  | .whenFalse => "WhenFalse"

end EdgeCondition

namespace Edge

/-- The JSON form of an edge. -/
def toJson (edge : Edge) : Json :=
  .record [("target", edge.target.toJson), ("condition", .text edge.condition.name)]

/-- Reads an edge. -/
def ofJson? (value : Json) : Option Edge := do
  let record ← value.record? ["target", "condition"]
  let target ← record.required "target" BlockId.ofJson?
  let condition ←
    record.withDefault "condition" (Json.choice? .direct EdgeCondition.names) .always
  return ⟨target, condition⟩

end Edge

namespace Block

/-- The JSON form of a block. -/
def toJson (block : Block) : Json :=
  .record [("id", block.id.toJson), ("operations", .ofList Operation.toJson block.operations),
    ("branch_value", .ofOption Operation.toJson block.branchValue?),
    ("successors", .ofList Edge.toJson block.successors)]

/-- Reads a block that stands inside of the given number of arrays and objects. -/
def ofJson? (outer : Nat) (value : Json) : Option Block := do
  let record ← value.record? ["id", "operations", "branch_value", "successors"]
  let id ← record.required "id" BlockId.ofJson?
  let operations ←
    record.withDefault "operations" (Json.list? (Operation.ofJson? (outer + 2))) []
  let branchValue? ←
    record.withDefault "branch_value" (Json.option? (Operation.ofJson? (outer + 1))) none
  let successors ← record.withDefault "successors" (Json.list? Edge.ofJson?) []
  return ⟨id, operations, branchValue?, successors⟩

end Block

namespace ControlFlowGraph

/-- The JSON form of a control flow graph: the list of its blocks. -/
def toJson (graph : ControlFlowGraph) : Json := .ofList Block.toJson graph.blocks

end ControlFlowGraph

/-- Why a text does not denote a routine. -/
inductive RoutineError where
  | malformed
  | noBlocks
deriving DecidableEq, Repr

namespace RoutineError

/-- The message about a routine without blocks. -/
def noBlocksMessage : String := "assertion failed: !blocks.is_empty()"

end RoutineError

namespace Routine

/-- The fields of a routine. -/
def fields : List String := ["name", "containing_type", "parameters", "return_type", "cfg"]

/-- The JSON form of a routine. -/
def toJson (routine : Routine) : Json :=
  .record [("name", .text routine.name),
    ("containing_type", .ofOption StaticType.toJson routine.containingType?),
    ("parameters", .ofList Symbol.toJson routine.parameters),
    ("return_type", routine.returnType.toJson), ("cfg", routine.graph.toJson)]

/-- Reads the blocks of a routine. -/
def blocksOfJson? : Json → Option (List Block) := Json.list? (Block.ofJson? 2)

/-- Reads a complete routine. -/
def ofRecord? (value : Json) : Option Routine := do
  let record ← value.record? fields
  let name ← record.required "name" Json.text?
  let containingType? ←
    record.withDefault "containing_type" (Json.option? (StaticType.ofJson? .direct)) none
  let parameters ← record.withDefault "parameters" (Json.list? (Symbol.ofJson? .direct)) []
  let returnType ← record.required "return_type" (StaticType.ofJson? .direct)
  let blocks ← record.required "cfg" blocksOfJson?
  let graph ← ControlFlowGraph.ofBlocks? blocks
  return ⟨name, containingType?, parameters, returnType, graph⟩

/-- True if the value of a field other than the blocks is in order.  The value of a member that is
not a field does not matter. -/
def fieldIsProper (name : String) (value : Json) : Bool :=
  match name with
  | "name" => value.text?.isSome
  | "containing_type" => (Json.option? (StaticType.ofJson? .direct) value).isSome
  | "parameters" => (Json.list? (Symbol.ofJson? .direct) value).isSome
  | "return_type" => (StaticType.ofJson? .direct value).isSome
  | _ => true

/-- True if the value is an array without items. -/
def isEmptyList : Json → Bool
  | .array [] => true
  | _ => false

/-- True if the members come to a list without blocks, and all before it is in order.  The fields
that have been given already must not be given again. -/
def membersLackBlocks : List String → List (Option String × Json) → Bool
  | _, [] => false
  | _, (none, _) :: _ => false
  | given, (some name, value) :: members =>
    if given.contains name then false
    else if name == "cfg" then isEmptyList value
    else if fieldIsProper name value then
      membersLackBlocks (if fields.contains name then name :: given else given) members
    else false

/-- True if the items come to a list without blocks, and all before it is in order. -/
def itemsLackBlocks : List String → List Json → Bool
  | "cfg" :: _, value :: _ => isEmptyList value
  | name :: names, value :: items => fieldIsProper name value && itemsLackBlocks names items
  | _, _ => false

/-- True if the parts of a routine come to a list without blocks, and all before it is in
order. -/
def lacksBlocks : Leading → Bool
  | .members members => membersLackBlocks [] members
  | .items items => itemsLackBlocks fields items
  | .nothing => false

/-- Reads a routine from the leading parts of its text and, if the text is JSON, its value. -/
def ofParts (leading : Leading) (value? : Option Json) : Except RoutineError Routine :=
  if lacksBlocks leading then .error .noBlocks
  else
    match value? >>= ofRecord? with
    | some routine => .ok routine
    | none => .error .malformed

/-- Reads a routine. -/
def ofJson (value : Json) : Except RoutineError Routine := ofParts value.parts (some value)

/-- Reads a routine from the text of its JSON form. -/
def ofText (text : String) : Except RoutineError Routine :=
  ofParts (Json.leading text) (Json.ofText? text)

end Routine
end HeapFlow
