import HeapFlow.Proofs.Interpreter.Effect
import Mathlib.Data.List.Nodup

/-! # Operations with ids of their own

The evaluation of operations gives values to operations of their trees only.  So if all operations
of some trees have ids of their own, then what the evaluation of one tree has come to is not
affected by the evaluation of another one.
-/
namespace HeapFlow

namespace Operation

/-- All operations of the trees have ids of their own. -/
def HaveUniqueIds (operations : List Operation) : Prop :=
  ((operations.flatMap nodes).map (·.id)).Nodup

/-- All operations of the tree have ids of their own. -/
def HasUniqueIds (operation : Operation) : Prop := (operation.nodes.map (·.id)).Nodup

instance (operation : Operation) : Decidable operation.HasUniqueIds :=
  inferInstanceAs (Decidable (List.Nodup _))

/-- No operation of the trees has the id. -/
def Lack (operations : List Operation) (id : OperationId) : Prop :=
  ∀ operation ∈ operations, ∀ node ∈ operation.nodes, node.id ≠ id

theorem lack_singleton {operation : Operation} {id : OperationId} :
    Lack [operation] id ↔ ∀ node ∈ operation.nodes, node.id ≠ id := by
  simp [Lack]

theorem mem_nodes_of_child {operation part node : Operation} (hpart : part ∈ operation.children)
    (hnode : node ∈ part.nodes) : node ∈ operation.nodes := by
  rw [nodes_eq]
  exact List.mem_cons_of_mem _ (List.mem_flatMap.2 ⟨part, hpart, hnode⟩)

theorem mem_nodes_of_performedChild {operation part node : Operation}
    (hpart : part ∈ operation.performedChildren) (hnode : node ∈ part.nodes) :
    node ∈ operation.nodes :=
  operation.nodes_perm_performedChildren.mem_iff.2
    (List.mem_append_left _ (List.mem_flatMap.2 ⟨part, hpart, hnode⟩))

/-- What is given a value belongs to the tree that is evaluated. -/
theorem recipient_mem_nodes {operation : Operation} {step : Step} (h : step ∈ operation.steps) :
    step.recipient ∈ operation.nodes :=
  operation.nodes_perm.mem_iff.2 (List.mem_append_left _ (mem_valued_iff.2 ⟨step, h, rfl⟩))

section

variable {operation part : Operation} {operations parts : List Operation}

theorem HasUniqueIds.haveUniqueIds (h : operation.HasUniqueIds) :
    HaveUniqueIds operation.children := by
  unfold HasUniqueIds at h
  rw [nodes_eq, List.map_cons] at h
  exact (List.nodup_cons.1 h).2

theorem HaveUniqueIds.of_mem (h : HaveUniqueIds operations) (hmem : operation ∈ operations) :
    operation.HasUniqueIds := by
  unfold HaveUniqueIds at h
  rw [List.map_flatMap] at h
  exact (List.nodup_flatMap.1 h).1 operation hmem

theorem HasUniqueIds.of_child (h : operation.HasUniqueIds) (hpart : part ∈ operation.children) :
    part.HasUniqueIds := h.haveUniqueIds.of_mem hpart

/-- The trees of a part do not contain the operation itself. -/
theorem HasUniqueIds.lack_self (h : operation.HasUniqueIds) :
    Lack operation.children operation.id := by
  intro part hpart node hnode hid
  unfold HasUniqueIds at h
  rw [nodes_eq, List.map_cons] at h
  refine (List.nodup_cons.1 h).1 (List.mem_map.2 ⟨node, ?_, hid⟩)
  exact List.mem_flatMap.2 ⟨part, hpart, hnode⟩

theorem HasUniqueIds.nodup_performedChildren (h : operation.HasUniqueIds) :
    ((operation.performedChildren.flatMap nodes ++
      (operation :: operation.assignmentTargets ++ operation.spared)).map (·.id)).Nodup :=
  (operation.nodes_perm_performedChildren.map _).nodup_iff.1 h

theorem HasUniqueIds.performedChildren (h : operation.HasUniqueIds) :
    HaveUniqueIds operation.performedChildren := by
  have hnodup := h.nodup_performedChildren
  rw [List.map_append] at hnodup
  exact (List.nodup_append.1 hnodup).1

/-- What is performed along with an operation contains neither the operation nor the target of an
assignment. -/
theorem HasUniqueIds.lack_performedChildren (h : operation.HasUniqueIds) {other : Operation}
    (hother : other ∈ operation :: operation.assignmentTargets) :
    Lack operation.performedChildren other.id := by
  intro part hpart node hnode
  have hnodup := h.nodup_performedChildren
  rw [List.map_append] at hnodup
  exact (List.nodup_append.1 hnodup).2.2 _
    (List.mem_map_of_mem (List.mem_flatMap.2 ⟨part, hpart, hnode⟩)) _
    (List.mem_map_of_mem (List.mem_append_left _ hother))

theorem HaveUniqueIds.left (h : HaveUniqueIds (operations ++ parts)) :
    HaveUniqueIds operations := by
  unfold HaveUniqueIds at h
  rw [List.flatMap_append, List.map_append] at h
  exact (List.nodup_append.1 h).1

theorem HaveUniqueIds.right (h : HaveUniqueIds (operations ++ parts)) : HaveUniqueIds parts := by
  unfold HaveUniqueIds at h
  rw [List.flatMap_append, List.map_append] at h
  exact (List.nodup_append.1 h).2.1

/-- What belongs to one of the trees does not belong to another one. -/
theorem HaveUniqueIds.lack (h : HaveUniqueIds (operations ++ parts)) {node : Operation}
    (hoperation : operation ∈ operations) (hnode : node ∈ operation.nodes) :
    Lack parts node.id := by
  intro part hpart other hother hid
  unfold HaveUniqueIds at h
  rw [List.flatMap_append, List.map_append] at h
  exact (List.nodup_append.1 h).2.2 _
    (List.mem_map_of_mem (List.mem_flatMap.2 ⟨operation, hoperation, hnode⟩)) _
    (List.mem_map_of_mem (List.mem_flatMap.2 ⟨part, hpart, hother⟩)) hid.symm

theorem HaveUniqueIds.head (h : HaveUniqueIds (operation :: operations)) :
    operation.HasUniqueIds := h.of_mem List.mem_cons_self

theorem HaveUniqueIds.tail (h : HaveUniqueIds (operation :: operations)) :
    HaveUniqueIds operations :=
  (show HaveUniqueIds ([operation] ++ operations) from h).right

theorem HaveUniqueIds.lack_tail (h : HaveUniqueIds (operation :: operations)) {node : Operation}
    (hnode : node ∈ operation.nodes) : Lack operations node.id :=
  (show HaveUniqueIds ([operation] ++ operations) from h).lack List.mem_cons_self hnode

end

end Operation

open Operation (Lack)

variable {V D : Type}

/-- Operations outside of the trees that are evaluated keep their values. -/
theorem Effect.get?_values {operations : List Operation} {m m' : Machine V D}
    (h : Effect (operations.flatMap Operation.steps) m m') {id : OperationId}
    (hid : Lack operations id) : m'.values.get? id = m.values.get? id := by
  refine h.kept fun step hstep => ?_
  obtain ⟨operation, hoperation, hstep⟩ := List.mem_flatMap.1 hstep
  exact hid operation hoperation _ (Operation.recipient_mem_nodes hstep)

namespace Analysis

variable [AbstractValue V] [EntityState D V] (A : Analysis V D)

theorem effect_evaluateList (operations : List Operation) (m : Machine V D) :
    Effect (operations.flatMap Operation.steps) m (outcome (A.evaluateList operations) m).2 :=
  (TracedLogic.runs_evaluateList (L := effects V D) (fun _ _ =>
    TracedLogic.accepts_evaluate fun node _ => .inr (A.effects_rules node)) m).2

variable {A} {id : OperationId}

/-- **The evaluation of an operation changes values of operations of its tree only.** -/
theorem get?_values_evaluate_of_lack {operation : Operation} (h : Lack [operation] id)
    (m : Machine V D) :
    (outcome (A.evaluate operation) m).2.values.get? id = m.values.get? id := by
  have heffect := A.effect_evaluate operation m
  rw [← List.flatMap_singleton Operation.steps operation] at heffect
  exact heffect.get?_values h

theorem get?_values_evaluateList_of_lack {operations : List Operation} (h : Lack operations id)
    (m : Machine V D) :
    (outcome (A.evaluateList operations) m).2.values.get? id = m.values.get? id :=
  (A.effect_evaluateList operations m).get?_values h

end Analysis
end HeapFlow
