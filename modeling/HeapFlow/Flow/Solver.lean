import HeapFlow.Flow.Interpreter
import HeapFlow.Flow.Worklist
import HeapFlow.Text.Brief

/-! # The fixed point solver

The solver propagates states along the edges of a control flow graph until nothing changes any
more.  It is a sequence of steps on a state: each step takes a block off the worklist and interprets
it, starting from the merge of the states that flow into it along edges that can be taken.  The
blocks that the block flows into become pending if its final state has changed, or if it was not
known before that control can go there.

From a number of visits on, the entry state of a loop anchor is widened against the entry state of
its previous visit.  A block that has used up its visits is not interpreted again: its turn is
recorded as an overrun.

Each visit adds at most all blocks to the worklist, and there are at most `maxIterations` visits of
each block, which bounds the number of steps (`Solver.stepBound`).
-/
namespace HeapFlow

/-- The ids of blocks are keys. -/
instance : Key BlockId := .ofDecidableEq BlockId

/-- What is known from the latest interpretation of a block: the states at its start and its end,
and the blocks that it was found to flow into. -/
structure Visit (D : Type) where
  entry : D
  exit : D
  successors : List BlockId

/-- A turn of a block that had used up its visits. -/
structure Overrun where
  block : BlockId
  /-- Which turn of the block it was. -/
  count : Nat
deriving DecidableEq, Repr

namespace Overrun

/-- The warning about an overrun. -/
def message (overrun : Overrun) (limit : Nat) (routine : String) : String :=
  "Fixed point loop iterations " ++ toString overrun.count ++ " exceeded limit of " ++
    toString limit ++ " at " ++ overrun.block.briefText ++ " in routine " ++ routine ++ "."

end Overrun

/-- The outcome of analysing a routine. -/
structure FlowResult (V D : Type) where
  routineName : String
  /-- The block where control leaves the routine. -/
  exitBlock : BlockId
  /-- The latest visits of the blocks that can be reached. -/
  visits : Environment BlockId (Visit D)
  /-- The values of the operations that can be reached. -/
  values : Environment OperationId V
  /-- The turns of blocks that had used up their visits, in order. -/
  overruns : List Overrun
  /-- The operations in the order in which they were given values. -/
  visited : List OperationId

namespace FlowResult

variable {V D : Type} (result : FlowResult V D)

/-- True if some block has used up its visits before it became stable. -/
def reachedLimit : Bool := !result.overruns.isEmpty

/-- The state at the start of a block, none if the block cannot be reached. -/
def entryState? (id : BlockId) : Option D := (result.visits.get? id).map (·.entry)

/-- The state at the end of a block, none if the block cannot be reached. -/
def exitState? (id : BlockId) : Option D := (result.visits.get? id).map (·.exit)

/-- The state when control leaves the routine, none if it never does. -/
def finalState? : Option D := result.exitState? result.exitBlock

/-- The value of an operation, none if the operation cannot be reached. -/
def valueOf? (id : OperationId) : Option V := result.values.get? id

/-- The blocks that can be reached. -/
def reachableBlocks : List BlockId := result.visits.keys

/-- The warnings about overruns. -/
def warnings (options : Options) : List String :=
  match options.diagnostics with
  | .standard => []
  | .paranoid =>
    result.overruns.map fun overrun =>
      overrun.message options.maxIterations result.routineName

end FlowResult

namespace Solver

/-- The state of the solver between two steps. -/
structure State (V D : Type) where
  machine : Machine V D
  /-- The positions of the pending blocks, ascending. -/
  pending : List Nat
  /-- How often each block has been taken up. -/
  counts : Environment BlockId Nat
  /-- The latest interpretation of each block. -/
  visits : Environment BlockId (Visit D)
  /-- The overruns so far, latest first. -/
  overruns : List Overrun

variable {V D : Type} [DecidableEq V] [AbstractValue V] [EntityState D V] [BEq D]
variable (A : Analysis V D) (options : Options) (schedule : Schedule) (first : D)

/-- The final states of the predecessors of a block that flow into it. -/
def incoming (visits : Environment BlockId (Visit D)) (id : BlockId) : List D :=
  (schedule.graph.predecessors id).filterMap fun predecessor => do
    let visit ← visits.get? predecessor
    guard (visit.successors.contains id)
    return visit.exit

/-- The merge of the states that flow into a block.  The entry block also starts from the first
state. -/
def mergedEntry (visits : Environment BlockId (Visit D)) (id : BlockId) : D :=
  let own := if id = schedule.graph.entry then [first] else []
  match own ++ incoming schedule visits id with
  | [] => first
  | state :: states => states.foldl A.mergeData state

/-- The state from which a block is interpreted on the given turn. -/
def entryState (visits : Environment BlockId (Visit D)) (id : BlockId) (count : Nat) : D :=
  let merged := mergedEntry A schedule first visits id
  if schedule.anchors.contains id && options.widenAfter < count then
    match visits.get? id with
    | some previous => A.widenData merged previous.entry
    | none => merged
  else merged

/-- Interprets a block from the given state. -/
def interpret (machine : Machine V D) (block : Block) (entry : D) : Visit D × Machine V D :=
  let (successors, machine) := (A.evaluateBlock block).run { machine with data := entry }
  (⟨entry, machine.data, successors⟩, machine)

/-- The positions of the successors that have to be visited after a block: all of them if its final
state has changed, otherwise those that are new. -/
def affected (previous? : Option (Visit D)) (visit : Visit D) : List Nat :=
  let isAffected (id : BlockId) : Bool :=
    match previous? with
    | none => true
    | some previous => !(previous.exit == visit.exit) || !previous.successors.contains id
  (visit.successors.filter isAffected).filterMap schedule.position?

/-- Visits a block on the given turn. -/
def visit (state : State V D) (block : Block) (count : Nat) : State V D :=
  let entry := entryState A options schedule first state.visits block.id count
  let (visit, machine) := interpret A state.machine block entry
  let positions := affected schedule (state.visits.get? block.id) visit
  { state with
    machine
    pending := positions.foldl (fun pending p => Worklist.insert p pending) state.pending
    visits := state.visits.insert block.id visit }

/-- Gives the block at a position, which has been taken off the worklist, its turn. -/
def giveTurn (state : State V D) (position : Nat) : State V D :=
  match schedule.order[position]? >>= schedule.graph.block? with
  | none => state
  | some block =>
    let count := (state.counts.get? block.id).getD 0 + 1
    let state := { state with counts := state.counts.insert block.id count }
    if options.maxIterations < count then
      { state with overruns := ⟨block.id, count⟩ :: state.overruns }
    else visit A options schedule first state block count

/-- Takes up the block at a position. -/
def takeUp (state : State V D) (position : Nat) : State V D :=
  giveTurn A options schedule first
    { state with pending := state.pending.erase position } position

/-- Takes up the next pending block, none if no block is pending. -/
def step? (state : State V D) : Option (State V D) :=
  (schedule.next? options.worklistOrder state.pending).map
    (takeUp A options schedule first state)

/-- Makes steps until no block is pending, but not more steps than the bound allows. -/
def run : Nat → State V D → State V D
  | 0, state => state
  | bound + 1, state =>
    match step? A options schedule first state with
    | none => state
    | some state => run bound state

/-- A number of steps after which no block is pending. -/
def stepBound : Nat := schedule.order.length * schedule.order.length * options.maxIterations + 1

/-- The state before the first step: the entry block is pending. -/
def start (routine : Routine) : State V D :=
  ⟨.initial routine, [0], .empty, .empty, []⟩

end Solver

namespace Analysis

variable {V D : Type} [DecidableEq V] [AbstractValue V] [EntityState D V] [BEq D]
variable (A : Analysis V D)

/-- Analyses a routine. -/
def solve (routine : Routine) (options : Options) : FlowResult V D :=
  let schedule := Schedule.ofGraph routine.graph
  let first := A.initialState routine
  let final := Solver.run A options schedule first (Solver.stepBound options schedule)
    (Solver.start routine)
  { routineName := routine.name
    exitBlock := routine.graph.exit
    visits := final.visits
    values := final.machine.values
    overruns := final.overruns.reverse
    visited := final.machine.visited.reverse }

end Analysis
end HeapFlow
