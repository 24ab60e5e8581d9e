import HeapFlow.Options.Basic
import HeapFlow.Program.ControlFlow

/-! # Pending blocks

Blocks whose entry state may have changed are pending.  They are known by their positions in
reverse postorder, and the worklist is an ascending list of positions.

A block is only taken up once no pending block flows into it along forward edges, which go from a
lower position to a higher one.  So a block sees all changes from before it in a single visit.  The
lowest pending position always qualifies.
-/
namespace HeapFlow

/-- The blocks of a graph in the order in which they are scheduled, and what the solver needs to
know about them. -/
structure Schedule where
  graph : ControlFlowGraph
  /-- The blocks that the entry reaches, in reverse postorder. -/
  order : List BlockId
  /-- For every position the positions of the predecessors that come earlier. -/
  forward : List (List Nat)
  /-- The blocks where loops are anchored. -/
  anchors : List BlockId

namespace Schedule

/-- The position of a block, none if the entry does not reach it. -/
def positionIn? (order : List BlockId) (id : BlockId) : Option Nat := order.findIdx? (· = id)

/-- The positions of the predecessors of a block that come before the given position. -/
def earlier (graph : ControlFlowGraph) (order : List BlockId) (id : BlockId) (position : Nat) :
    List Nat :=
  (graph.predecessors id).filterMap fun predecessor => do
    let p ← positionIn? order predecessor
    guard (p < position)
    return p

/-- The schedule of a graph. -/
def ofGraph (graph : ControlFlowGraph) : Schedule :=
  let order := graph.reversePostorder
  { graph
    order
    forward := order.zipIdx.map fun (id, position) => earlier graph order id position
    anchors := graph.loopAnchors }

variable (schedule : Schedule)

/-- The position of a block, none if the entry does not reach it. -/
def position? (id : BlockId) : Option Nat := positionIn? schedule.order id

/-- True if there is a forward edge from one position to another. -/
def flowsInto (source target : Nat) : Bool := (schedule.forward.getD target []).contains source

/-- A search among the positions that lead to a position: those whose predecessors have not been
looked at yet, latest first, and all those that the search has come across. -/
structure Search where
  stack : List Nat
  seen : List Nat

namespace Search

/-- Goes through the predecessors of a position, none if one of them is pending.  Predecessors below
the lowest pending position are passed over, since nothing that leads to them is pending, and so are
those that the search has come across before. -/
def follow? (pending : List Nat) (lowest : Nat) : List Nat → Search → Option Search
  | [], search => some search
  | p :: predecessors, search =>
    if p < lowest || search.seen.contains p then follow? pending lowest predecessors search
    else if pending.contains p then none
    else follow? pending lowest predecessors ⟨p :: search.stack, p :: search.seen⟩

/-- True if the search comes across a pending position.  The bound limits the number of positions
whose predecessors are looked at. -/
def findsPending (predecessors : Nat → List Nat) (pending : List Nat) (lowest : Nat) :
    Nat → Search → Bool
  | 0, _ => false
  | _ + 1, ⟨[], _⟩ => false
  | bound + 1, ⟨position :: stack, seen⟩ =>
    match follow? pending lowest (predecessors position) ⟨stack, seen⟩ with
    | none => true
    | some search => findsPending predecessors pending lowest bound search

end Search

/-- True if a pending block reaches the given position along one or more forward edges.  The search
looks at the position itself and at each of those before it at most once. -/
def hasPendingAncestor (pending : List Nat) (position : Nat) : Bool :=
  match pending.head? with
  | none => false
  | some lowest =>
    Search.findsPending (fun p => schedule.forward.getD p []) pending lowest (position + 1)
      ⟨[position], []⟩

/-- The position to take up next. -/
def next? (worklistOrder : WorklistOrder) (pending : List Nat) : Option Nat :=
  match worklistOrder with
  | .earliestFirst => pending.head?
  | .latestFirst => pending.reverse.find? fun p => !schedule.hasPendingAncestor pending p

/-- The position to take up next, and the positions that are pending when it has been taken off the
worklist. -/
def takeNext? (worklistOrder : WorklistOrder) (pending : List Nat) : Option (Nat × List Nat) :=
  (schedule.next? worklistOrder pending).map fun position => (position, pending.erase position)

end Schedule

namespace Worklist

/-- Adds a position to an ascending list of positions. -/
def insert (position : Nat) : List Nat → List Nat
  | [] => [position]
  | p :: pending =>
    if position < p then position :: p :: pending
    else if p < position then p :: insert position pending
    else p :: pending

end Worklist
end HeapFlow
