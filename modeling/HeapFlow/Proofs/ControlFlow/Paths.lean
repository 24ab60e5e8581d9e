import HeapFlow.Proofs.Traversal
import Mathlib.Data.List.Chain

/-! # Paths of a control flow graph

Edges are read off the blocks of a graph: a block has an edge to another one if it lists that one as
a successor and that one exists (`ControlFlowGraph.HasEdge`).  Blocks of the same id share their
edges.  A path is a list of blocks, each with an edge to the next one (`ControlFlowGraph.IsPath`).

Paths are what the orders of a graph are about.  What they compute with is a traversal, which
follows the edges from a block one by one.  The two agree, also if both are confined to blocks with
some property (`ControlFlowGraph.exists_isPath_iff`).
-/
namespace HeapFlow
namespace ControlFlowGraph

variable (graph : ControlFlowGraph)

/-- A block of the first id has an edge to the second id, and there is a block of that id. -/
def HasEdge (source target : BlockId) : Prop :=
  (∃ block ∈ graph.blocks, block.id = source ∧ ∃ edge ∈ block.successors, edge.target = target) ∧
    ∃ block ∈ graph.blocks, block.id = target

instance (source target : BlockId) : Decidable (graph.HasEdge source target) :=
  inferInstanceAs (Decidable (_ ∧ _))

/-- The listed blocks lead from the first id to the second one, each by an edge to the next. -/
structure IsPath (source : BlockId) (path : List BlockId) (target : BlockId) : Prop where
  edges : path.IsChain graph.HasEdge
  head? : path.head? = some source
  getLast? : path.getLast? = some target

/-- There is a path from the first id to the second one, which may be the same. -/
def Reaches (source target : BlockId) : Prop := ∃ path, graph.IsPath source path target

theorem mem_successors_iff {source target : BlockId} :
    target ∈ graph.successors source ↔ graph.HasEdge source target := by
  simp [successors, HasEdge, contains, and_assoc]

variable {graph}

theorem IsPath.singleton (id : BlockId) : graph.IsPath id [id] id := ⟨.singleton id, rfl, rfl⟩

/-- A path goes on along an edge of its last block. -/
theorem IsPath.concat {source middle target : BlockId} {path : List BlockId}
    (hpath : graph.IsPath source path middle) (hedge : graph.HasEdge middle target) :
    graph.IsPath source (path ++ [target]) target where
  edges := by
    refine hpath.edges.append (.singleton target) fun last hlast next hnext => ?_
    obtain rfl : middle = last := Option.some.inj (hpath.getLast?.symm.trans hlast)
    obtain rfl : target = next := by simpa using hnext
    exact hedge
  head? := by rw [List.head?_append, hpath.head?, Option.some_or]
  getLast? := by simp

/-- What a path comes to is what single steps come to, if all steps lead to blocks with the same
property. -/
theorem exists_isPath_iff {P : BlockId → Prop} {source target : BlockId} :
    (∃ path, graph.IsPath source path target ∧ ∀ id ∈ path, P id) ↔
      P source ∧ Relation.ReflTransGen (fun a b => graph.HasEdge a b ∧ P b) source target := by
  constructor
  · rintro ⟨path, ⟨hedges, hhead, hlast⟩, hall⟩
    have hne : path ≠ [] := by rintro rfl; simp at hhead
    obtain rfl : path.head hne = source := by simpa [List.head?_eq_some_head hne] using hhead
    obtain rfl : path.getLast hne = target := by
      simpa [List.getLast?_eq_some_getLast hne] using hlast
    have hsteps : path.IsChain fun a b => graph.HasEdge a b ∧ P b :=
      hedges.imp_of_mem_imp fun a b _ hb hedge => ⟨hedge, hall b hb⟩
    exact ⟨hall _ (List.head_mem hne), List.relationReflTransGen_of_exists_isChain path hsteps hne⟩
  · rintro ⟨hsource, hsteps⟩
    induction hsteps with
    | refl => exact ⟨[source], .singleton source, by simpa using hsource⟩
    | tail _ hstep ih =>
      obtain ⟨path, hpath, hall⟩ := ih
      refine ⟨_, hpath.concat hstep.1, fun id hid => ?_⟩
      rcases List.mem_append.1 hid with hid | hid
      · exact hall id hid
      · exact List.mem_singleton.1 hid ▸ hstep.2

theorem reaches_iff {source target : BlockId} :
    graph.Reaches source target ↔ Relation.ReflTransGen graph.HasEdge source target := by
  have h : (∃ path, graph.IsPath source path target ∧ ∀ id ∈ path, True) ↔ _ := exists_isPath_iff
  simpa [Reaches] using h

end ControlFlowGraph
end HeapFlow
