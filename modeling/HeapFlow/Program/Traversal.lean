/-! # Depth-first traversal

A depth-first traversal of a directed graph, given by the function that lists the direct successors
of a node.  The traversal records the nodes that it has seen and the nodes that it has finished,
which means that all that they reach has been seen.  Listing the finished nodes latest first gives
a reverse postorder.
-/
namespace HeapFlow

/-- The progress of a depth-first traversal.  Both lists have the latest node first. -/
structure Traversal (α : Type) where
  seen : List α
  finished : List α

namespace Traversal

variable {α : Type} [DecidableEq α] (next : α → List α)

/-- The traversal that has not seen any node. -/
def empty : Traversal α := ⟨[], []⟩

/-- Visits a node and, in order, all that it reaches and that has not been seen.  The bound limits
the length of the paths that are followed. -/
def visit : Nat → Traversal α → α → Traversal α
  | 0, progress, _ => progress
  | bound + 1, progress, node =>
    if node ∈ progress.seen then progress
    else
      let below := (next node).foldl (visit bound) ⟨node :: progress.seen, progress.finished⟩
      ⟨below.seen, node :: below.finished⟩

end Traversal
end HeapFlow
