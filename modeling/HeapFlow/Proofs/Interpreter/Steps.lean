import HeapFlow.Proofs.Interpreter.Evaluated

/-! # The steps of an evaluation

The evaluation of an operation gives values to operations one after the other, and which ones does
not depend on the state or on the analysis: `Operation.steps` lists these steps.  Most of them
settle the value of an operation.  Besides, a creation is given the object that it allocates ahead
of that, and the target of an assignment takes on the assigned value.

The operations whose values are settled (`Operation.completed`) come in the order in which a tree is
traversed bottom up: each operation after all that are performed as a part of it
(`Operation.completed_eq`).  Together with the targets of assignments and with what stands below
name expressions, they are the operations of the tree (`Operation.nodes_perm`).
-/
namespace HeapFlow

/-- A step of an evaluation that gives a value to an operation. -/
inductive Step where
  /-- A creation is given the object that it allocates. -/
  | allocates (creation : Operation)
  /-- The target of an assignment is given the assigned value. -/
  | gives (target : Operation)
  /-- An operation is given the value that it ends up with. -/
  | settles (operation : Operation)

namespace Step

/-- The operation that is given a value. -/
def recipient : Step → Operation
  | allocates operation | gives operation | settles operation => operation

/-- The operation whose value is settled. -/
def settled? : Step → Option Operation
  | settles operation => some operation
  | allocates _ | gives _ => none

end Step

theorem append_append_perm {α : Type} (a b c d : List α) :
    (a ++ b ++ (c ++ d)).Perm (a ++ c ++ (b ++ d)) := by
  simp only [List.append_assoc]
  exact (List.perm_append_comm_assoc b c d).append_left a

namespace Operation

/-- The steps that the evaluation of an operation takes. -/
structure Progress where
  operation : Operation
  /-- Those of the evaluation of the parts. -/
  ofParts : List Step
  /-- Those of the evaluation of the operation itself. -/
  ofWhole : List Step

/-- The steps of an operation from the steps of its parts.  The object of a creation is allocated
first, apart from arrays, whose dimensions have to be known. -/
def Progress.combine (operation : Operation) (form : Form Progress) : Progress :=
  let ofParts := form.children.flatMap (·.ofWhole)
  let below := match form with
    | .simpleAssignment target assigned =>
      target.ofParts ++ assigned.ofWhole ++ [.gives target.operation]
    | .nameOf _ => []
    | .arrayCreation dimensionSizes initializer? =>
      dimensionSizes.flatMap (·.ofWhole) ++
        .allocates operation :: initializer?.toList.flatMap (·.ofWhole)
    | .objectCreation _ _ _ | .dynamicObjectCreation _ _ | .typeParameterObjectCreation _
    | .anonymousObjectCreation _ | .delegateCreation _ => .allocates operation :: ofParts
    | _ => ofParts
  ⟨operation, ofParts, below ++ [.settles operation]⟩

/-- The steps of the evaluation of an operation, in order. -/
def steps (operation : Operation) : List Step := (operation.fold Progress.combine).ofWhole

/-- The steps of the evaluation of the parts of an operation, in order. -/
def partSteps (operation : Operation) : List Step := (operation.fold Progress.combine).ofParts

/-- The steps before the value of an operation of the given form is settled. -/
def stepsBelow (operation : Operation) (form : Form Operation) : List Step :=
  match form with
  | .simpleAssignment target assigned => target.partSteps ++ assigned.steps ++ [.gives target]
  | .nameOf _ => []
  | .arrayCreation dimensionSizes initializer? =>
    dimensionSizes.flatMap steps ++ .allocates operation :: initializer?.toList.flatMap steps
  | .objectCreation _ _ _ | .dynamicObjectCreation _ _ | .typeParameterObjectCreation _
  | .anonymousObjectCreation _ | .delegateCreation _ =>
    .allocates operation :: form.children.flatMap steps
  | _ => form.children.flatMap steps

/-- The operations whose values the evaluation of an operation settles, in order. -/
def completed (operation : Operation) : List Operation := operation.steps.filterMap Step.settled?

/-- The steps that an operation takes itself. -/
def ownSteps (operation : Operation) : List Step :=
  match operation.form with
  | .simpleAssignment target _ => [.gives target, .settles operation]
  | .arrayCreation _ _ | .objectCreation _ _ _ | .dynamicObjectCreation _ _
  | .typeParameterObjectCreation _ | .anonymousObjectCreation _ | .delegateCreation _ =>
    [.allocates operation, .settles operation]
  | _ => [.settles operation]

/-- The target of an assignment. -/
def assignmentTargets (operation : Operation) : List Operation :=
  match operation.form with
  | .simpleAssignment target _ => [target]
  | _ => []

/-- The operations that are not evaluated because they stand below a name expression. -/
def spared (operation : Operation) : List Operation :=
  match operation.form with
  | .nameOf operand => operand.nodes
  | _ => []

/-- The operations that are given values when the operation is evaluated: those that are completed
and the targets of assignments. -/
def valued (operation : Operation) : List Operation :=
  operation.completed ++ operation.completed.flatMap assignmentTargets

/-- Of an assignment `x.f = nameof(y)` the instance, the name expression and the assignment are
completed, in this order.  The target is given a value as well, and `y` is not. -/
example (x y f : Symbol) :
    let assignment := ofForm ⟨4⟩ (.simpleAssignment
      (ofForm ⟨1⟩ (.fieldReference (some (ofForm ⟨0⟩ (.localReference x))) f))
      (ofForm ⟨3⟩ (.nameOf (ofForm ⟨2⟩ (.localReference y)))))
    assignment.completed.map (·.id.number) = [0, 3, 4] ∧
      assignment.valued.map (·.id.number) = [0, 3, 4, 1] := ⟨rfl, rfl⟩

theorem operation_fold_progress (operation : Operation) :
    (operation.fold Progress.combine).operation = operation := by
  obtain ⟨id, form, type?, constant?⟩ := operation
  rfl

theorem partSteps_eq (operation : Operation) :
    operation.partSteps = operation.children.flatMap steps := by
  obtain ⟨id, form, type?, constant?⟩ := operation
  show (foldForm _ form).children.flatMap _ = _
  rw [children_foldForm, List.flatMap_map]
  rfl

theorem steps_eq (operation : Operation) :
    operation.steps = operation.stepsBelow operation.form ++ [.settles operation] := by
  have hparts := operation.partSteps_eq
  obtain ⟨id, form, type?, constant?⟩ := operation
  cases form with
  | simpleAssignment target assigned =>
    show _ ++ _ ++ [Step.gives (target.fold Progress.combine).operation] ++ _ = _
    rw [operation_fold_progress]
    rfl
  | nameOf operand => rfl
  | arrayCreation dimensionSizes initializer? =>
    show (foldList _ dimensionSizes).flatMap _ ++
      Step.allocates _ :: (foldOption _ initializer?).toList.flatMap _ ++ _ = _
    rw [foldList_eq, foldOption_eq, Option.toList_map, List.flatMap_map, List.flatMap_map]
    rfl
  | objectCreation | dynamicObjectCreation | typeParameterObjectCreation
  | anonymousObjectCreation | delegateCreation =>
    exact congrArg (Step.allocates _ :: · ++ [Step.settles _]) hparts
  | _ => exact congrArg (· ++ _) hparts

/-- All steps are taken by the operation itself or by one that is performed as a part of it. -/
theorem steps_perm (operation : Operation) :
    operation.steps.Perm (operation.performedChildren.flatMap steps ++ operation.ownSteps) := by
  rw [steps_eq]
  obtain ⟨id, form, type?, constant?⟩ := operation
  cases form with
  | simpleAssignment target assigned =>
    simp [stepsBelow, performedChildren, ownSteps, partSteps_eq]
  | nameOf operand => exact .refl _
  | arrayCreation dimensionSizes initializer? =>
    simp only [stepsBelow, performedChildren, ownSteps, Form.children, List.flatMap_append,
      List.append_assoc, List.cons_append]
    exact (List.perm_middle.symm).append_left _
  | objectCreation | dynamicObjectCreation | typeParameterObjectCreation
  | anonymousObjectCreation | delegateCreation => exact List.perm_middle.symm
  | _ => exact .refl _

/-- **Operations are completed bottom up**: an operation after all that are performed as a part of
it, which are completed one after the other. -/
theorem completed_eq (operation : Operation) :
    operation.completed = operation.performedChildren.flatMap completed ++ [operation] := by
  have hflatMap : ∀ parts : List Operation,
      (parts.flatMap steps).filterMap Step.settled? = parts.flatMap completed := fun parts =>
    List.filterMap_flatMap
  have hallocate : ∀ (creation : Operation) (steps : List Step),
      (Step.allocates creation :: steps).filterMap Step.settled? =
        steps.filterMap Step.settled? := fun _ _ => rfl
  rw [completed, steps_eq, List.filterMap_append]
  obtain ⟨id, form, type?, constant?⟩ := operation
  cases form with
  | simpleAssignment target assigned =>
    simp [stepsBelow, performedChildren, partSteps_eq, hflatMap, Step.settled?, completed]
  | nameOf operand => rfl
  | arrayCreation dimensionSizes initializer? =>
    simp [stepsBelow, performedChildren, Form.children, hflatMap, hallocate, Step.settled?]
  | objectCreation | dynamicObjectCreation | typeParameterObjectCreation
  | anonymousObjectCreation | delegateCreation =>
    exact congrArg (· ++ _) (hflatMap _)
  | _ => exact congrArg (· ++ _) (hflatMap _)

/-- The operations of a tree are those of the parts that are performed along with the operation, and
what these parts leave out. -/
theorem nodes_perm_performedChildren (operation : Operation) :
    operation.nodes.Perm (operation.performedChildren.flatMap nodes ++
      (operation :: operation.assignmentTargets ++ operation.spared)) := by
  rw [nodes_eq]
  obtain ⟨id, form, type?, constant?⟩ := operation
  cases form with
  | simpleAssignment target assigned =>
    have hchildren : [target, assigned].flatMap nodes =
        target :: (target.children ++ [assigned]).flatMap nodes := by
      simp [nodes_eq target]
    simp only [children, Form.children, hchildren, assignmentTargets, spared, List.append_nil]
    exact @List.perm_append_comm _ [_, target] _
  | nameOf operand =>
    simp [children, Form.children, performedChildren, assignmentTargets, spared]
  | _ => exact (List.perm_append_singleton _ _).symm

/-- **What becomes of the operations of a tree**: they are completed or the targets of assignments,
or they stand below name expressions. -/
theorem nodes_perm (operation : Operation) :
    operation.nodes.Perm (operation.valued ++ operation.completed.flatMap spared) := by
  unfold valued
  induction operation using induction_performed with
  | h operation ih =>
    have hparts : (operation.performedChildren.flatMap nodes).Perm
        (operation.performedChildren.flatMap completed ++
          (operation.performedChildren.flatMap completed).flatMap assignmentTargets ++
            (operation.performedChildren.flatMap completed).flatMap spared) := by
      refine (List.Perm.flatMap_left _ ih).trans ?_
      rw [List.flatMap_assoc, List.flatMap_assoc]
      refine (List.flatMap_append_perm _ _ _).symm.trans ?_
      exact (List.flatMap_append_perm _ _ _).symm.append_right _
    refine operation.nodes_perm_performedChildren.trans ((hparts.append_right _).trans ?_)
    rw [completed_eq]
    simp only [List.flatMap_append, List.flatMap_singleton]
    exact (append_append_perm _ _ ([operation] ++ _) _).trans
      ((append_append_perm _ _ [operation] _).append_right _)

/-- The operations that are given values are the recipients of the steps. -/
theorem mem_valued_iff {operation node : Operation} :
    node ∈ operation.valued ↔ ∃ step ∈ operation.steps, step.recipient = node := by
  induction operation using induction_performed generalizing node with
  | h operation ih =>
    have hown : (∃ step ∈ operation.ownSteps, step.recipient = node) ↔
        node = operation ∨ node ∈ operation.assignmentTargets := by
      obtain ⟨id, form, type?, constant?⟩ := operation
      cases form <;> simp [ownSteps, assignmentTargets, Step.recipient, eq_comm, or_comm]
    have hsteps : (∃ step ∈ operation.steps, step.recipient = node) ↔
        (∃ part ∈ operation.performedChildren, ∃ step ∈ part.steps, step.recipient = node) ∨
          ∃ step ∈ operation.ownSteps, step.recipient = node := by
      simp only [operation.steps_perm.mem_iff, List.mem_append, List.mem_flatMap]
      grind
    have hvalued : node ∈ operation.valued ↔
        (∃ part ∈ operation.performedChildren, node ∈ part.valued) ∨
          node = operation ∨ node ∈ operation.assignmentTargets := by
      unfold valued
      rw [completed_eq]
      simp only [List.mem_append, List.mem_flatMap, List.mem_singleton]
      grind
    rw [hsteps, hown, hvalued]
    exact or_congr_left (exists_congr fun part => and_congr_right fun hpart => ih part hpart)

end Operation
end HeapFlow
