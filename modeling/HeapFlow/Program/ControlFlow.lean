import HeapFlow.Program.Operation
import HeapFlow.Program.Traversal

/-! # Control flow graphs

A control flow graph is a list of blocks that is not empty.  The first block is the entry, the last
one is the exit.  Graphs need not be well formed: an edge whose target does not exist is ignored,
and of several blocks with one id the last one is the block of that id, while the edges of all of
them count.

Two orders are derived from a graph.  `ControlFlowGraph.reversePostorder` lists the blocks that the
entry reaches, and `ControlFlowGraph.loopAnchors` lists the blocks that every path from the entry
to one of their predecessors passes through.
-/
namespace HeapFlow

/-- Identifies a block within a control flow graph. -/
structure BlockId where
  number : UInt64
deriving DecidableEq, Repr

/-- The outcomes of the branch value under which an edge is taken. -/
inductive EdgeCondition where
  | always
  | whenTrue
  | whenFalse
deriving DecidableEq, Repr

namespace EdgeCondition

/-- True if the edge can be taken when the branch value has the given outcome, none if the outcome
is not known. -/
def admits : EdgeCondition → Option Bool → Bool
  | .whenTrue, some false => false
  | .whenFalse, some true => false
  | _, _ => true

end EdgeCondition

/-- An edge of a control flow graph, as its source has it. -/
structure Edge where
  target : BlockId
  condition : EdgeCondition
deriving DecidableEq, Repr

namespace Edge

/-- The edge that is always taken. -/
def always (target : BlockId) : Edge := ⟨target, .always⟩

/-- The edge that is taken when the branch value has the given outcome. -/
def when (target : BlockId) (outcome : Bool) : Edge :=
  ⟨target, if outcome then .whenTrue else .whenFalse⟩

end Edge

/-- Operations that are evaluated one after the other, a branch value that decides how control
goes on, and the edges to the blocks that may be next. -/
structure Block where
  id : BlockId
  operations : List Operation
  branchValue? : Option Operation
  successors : List Edge

namespace Block

/-- The operations that are evaluated, the branch value last. -/
def statements (block : Block) : List Operation := block.operations ++ block.branchValue?.toList

/-- The outcome of the branch value, if it is a truth constant. -/
def branchOutcome? (block : Block) : Option Bool :=
  match block.branchValue? with
  | some ⟨_, _, _, some (.bool outcome)⟩ => some outcome
  | _ => none

/-- The targets of the edges that can be taken, each target once. -/
def feasibleTargets (block : Block) : List BlockId :=
  ((block.successors.filter fun edge => edge.condition.admits block.branchOutcome?).map
    (·.target)).eraseDups

end Block

/-- The control flow graph of a routine. -/
structure ControlFlowGraph where
  blocks : List Block
  nonempty : blocks ≠ []

namespace ControlFlowGraph

/-- The graph of the given blocks, none if there are no blocks. -/
def ofBlocks? (blocks : List Block) : Option ControlFlowGraph :=
  if nonempty : blocks = [] then none else some ⟨blocks, nonempty⟩

variable (graph : ControlFlowGraph)

/-- The id of the block where control enters the routine. -/
def entry : BlockId := (graph.blocks.head graph.nonempty).id

/-- The id of the block where control leaves the routine. -/
def exit : BlockId := (graph.blocks.getLast graph.nonempty).id

/-- The block of the given id. -/
def block? (id : BlockId) : Option Block := graph.blocks.reverse.find? (·.id = id)

/-- True if there is a block of the given id. -/
def contains (id : BlockId) : Bool := graph.blocks.any (·.id = id)

/-- The distinct ids of the blocks, in the order of the blocks. -/
def ids : List BlockId := (graph.blocks.map (·.id)).eraseDups

/-- The targets of all edges that leave blocks of the given id. -/
def successors (id : BlockId) : List BlockId :=
  ((graph.blocks.filter (·.id = id)).flatMap fun block => block.successors.map (·.target)).filter
    graph.contains

/-- The ids of the blocks that have an edge to the block of the given id, in the order of the
blocks. -/
def predecessors (id : BlockId) : List BlockId :=
  if graph.contains id then
    ((graph.blocks.filter fun block => block.successors.any (·.target = id)).map
      (·.id)).eraseDups
  else []

/-- The blocks that the entry reaches, so that a block comes before the blocks that it flows into
unless the edge closes a cycle. -/
def reversePostorder : List BlockId :=
  (Traversal.visit graph.successors graph.blocks.length .empty graph.entry).finished

/-- The blocks that the entry reaches along paths that do not pass through the given block. -/
def reachableAvoiding (id : BlockId) : List BlockId :=
  if graph.entry = id then []
  else
    (Traversal.visit (fun node => (graph.successors node).filter (· ≠ id)) graph.blocks.length
      .empty graph.entry).finished

/-- True if one of the reached predecessors can be reached only through the block itself. -/
def anchorsLoop (reached : List BlockId) (id : BlockId) : Bool :=
  let avoiding := graph.reachableAvoiding id
  (graph.predecessors id).any fun predecessor =>
    predecessor ∈ reached && predecessor ∉ avoiding

/-- The blocks where the loops of the graph are anchored. -/
def loopAnchors : List BlockId :=
  let reached := graph.reversePostorder
  graph.ids.filter (graph.anchorsLoop reached)

end ControlFlowGraph

/-- A routine: its signature and its body.  Routines without a containing type are static. -/
structure Routine where
  name : String
  containingType? : Option StaticType
  parameters : List Symbol
  returnType : StaticType
  graph : ControlFlowGraph

namespace Routine

/-- All operations of the body of a routine. -/
def nodes (routine : Routine) : List Operation :=
  routine.graph.blocks.flatMap fun block => block.statements.flatMap Operation.nodes

end Routine

end HeapFlow
