import HeapFlow.Entity.Denote
import Mathlib.Data.List.Flatten
import Mathlib.Data.List.Perm.Basic

/-! # Which operations are evaluated

The evaluation of an operation evaluates its parts, with two exceptions: the target of an assignment
is not evaluated as a whole, and the operand of a name expression is not evaluated at all.
`Operation.evaluated` lists the operations that are given values on the way.  Those among them whose
own values are computed are performed (`Operation.performed`): each of them gives a value to itself,
and an assignment gives one to its target (`Operation.recipients`).

A reference to the object that a creation allocates (`Form.instanceReference`) makes sense within
the initializer of that creation, where the object is known (`Operation.receiversEnclosed`).
-/
namespace HeapFlow

/-- True if the evaluation of the form evaluates all parts, and has nothing to do with the objects
that creations allocate. -/
def Form.isOrdinary {α : Type} : Form α → Bool
  | .instanceReference _ | .simpleAssignment _ _ | .nameOf _ | .objectCreation _ _ _
  | .dynamicObjectCreation _ _ | .arrayCreation _ _ | .typeParameterObjectCreation _
  | .anonymousObjectCreation _ | .delegateCreation _ => false
  | _ => true

namespace Operation

/-! ## Parts -/

section Fold

variable {β : Type} (combine : Operation → Form β → β)

theorem foldOption_eq (part? : Option Operation) :
    foldOption combine part? = part?.map (fold combine) := by
  cases part? <;> rfl

theorem foldList_eq (parts : List Operation) :
    foldList combine parts = parts.map (fold combine) := by
  induction parts with
  | nil => rfl
  | cons part parts ih => rw [foldList, List.map_cons, ih]

theorem foldArguments_eq (arguments : List (Argument Operation)) :
    foldArguments combine arguments =
      arguments.map fun argument => ⟨argument.parameter, argument.passing,
        fold combine argument.value⟩ := by
  induction arguments with
  | nil => rfl
  | cons argument arguments ih =>
    obtain ⟨parameter, passing, value⟩ := argument
    rw [foldArguments, List.map_cons, ih]

theorem target?_foldCallee (callee : Callee Operation) :
    (foldCallee combine callee).target? = callee.target?.map (fold combine) := by
  cases callee <;> rfl

/-- The parts of a folded form are what the parts are folded to. -/
theorem children_foldForm (form : Form Operation) :
    (foldForm combine form).children = form.children.map (fold combine) := by
  cases form <;>
    simp [foldForm, Form.children, foldOption_eq, foldList_eq, foldArguments_eq,
      target?_foldCallee, Option.toList_map, Function.comp_def]

end Fold

theorem sizeOf_lt_of_mem_children {part : Operation} {form : Form Operation}
    (h : part ∈ form.children) : sizeOf part < sizeOf form := by
  have hlist : ∀ {parts : List Operation}, part ∈ parts → sizeOf part < sizeOf parts := fun h =>
    List.sizeOf_lt_of_mem h
  have hoption : ∀ {part? : Option Operation}, part ∈ part?.toList →
      sizeOf part < sizeOf part? := by
    rintro (_ | other) h
    · simp at h
    · obtain rfl := List.mem_singleton.1 h
      simp
  have harguments : ∀ {arguments : List (Argument Operation)}, part ∈ arguments.map (·.value) →
      sizeOf part < sizeOf arguments := by
    intro arguments h
    obtain ⟨⟨parameter, passing, value⟩, hmem, rfl⟩ := List.mem_map.1 h
    have hlt := List.sizeOf_lt_of_mem hmem
    simp only [Argument.mk.sizeOf_spec] at hlt
    show sizeOf value < _
    omega
  have hcallee : ∀ {callee : Callee Operation}, part ∈ callee.target?.toList →
      sizeOf part < sizeOf callee := by
    rintro (_ | _ | target) h
    · simp [Callee.target?] at h
    · simp [Callee.target?] at h
    · obtain rfl := List.mem_singleton.1 h
      simp
  cases form <;> simp only [Form.children, List.mem_append, List.mem_cons, List.not_mem_nil,
    or_false] at h
  all_goals simp
  all_goals grind

theorem sizeOf_lt_of_part {operation part : Operation} (h : part ∈ operation.children) :
    sizeOf part < sizeOf operation := by
  have hlt := sizeOf_lt_of_mem_children h
  obtain ⟨id, form, type?, constant?⟩ := operation
  simp only [Operation.mk.sizeOf_spec] at hlt ⊢
  omega

/-- What holds of an operation if it holds of all its parts holds of all operations. -/
theorem induction_children {P : Operation → Prop}
    (h : ∀ operation : Operation, (∀ part ∈ operation.children, P part) → P operation)
    (operation : Operation) : P operation := by
  refine h operation fun part hpart => ?_
  have := sizeOf_lt_of_part hpart
  exact induction_children h part
termination_by sizeOf operation

theorem nodes_eq (operation : Operation) :
    operation.nodes = operation :: operation.children.flatMap nodes := by
  obtain ⟨id, form, type?, constant?⟩ := operation
  show _ :: (foldForm _ form).children.flatten = _
  rw [children_foldForm, List.flatMap_def]
  rfl

/-! ## Evaluated operations -/

/-- The operations that are evaluated along with an operation. -/
structure Trace where
  id : OperationId
  /-- Those that the evaluation of the parts evaluates. -/
  ofParts : List OperationId
  /-- Those that the evaluation of the operation itself evaluates. -/
  ofWhole : List OperationId

/-- The trace of an operation from the traces of its parts. -/
def Trace.combine (operation : Operation) (form : Form Trace) : Trace :=
  let ofParts := form.children.flatMap (·.ofWhole)
  let below := match form with
    | .simpleAssignment target assigned => target.ofParts ++ assigned.ofWhole ++ [target.id]
    | .nameOf _ => []
    | _ => ofParts
  ⟨operation.id, ofParts, below ++ [operation.id]⟩

/-- The operations that are given values when the parts of the operation are evaluated. -/
def evaluatedParts (operation : Operation) : List OperationId :=
  (operation.fold Trace.combine).ofParts

/-- The operations that are given values when the operation is evaluated. -/
def evaluated (operation : Operation) : List OperationId :=
  (operation.fold Trace.combine).ofWhole

theorem id_fold_combine (operation : Operation) :
    (operation.fold Trace.combine).id = operation.id := by
  obtain ⟨id, form, type?, constant?⟩ := operation
  rfl

theorem evaluatedParts_eq (operation : Operation) :
    operation.evaluatedParts = operation.children.flatMap evaluated := by
  obtain ⟨id, form, type?, constant?⟩ := operation
  show (foldForm _ form).children.flatMap _ = _
  rw [children_foldForm, List.flatMap_map]
  rfl

/-- The operations that are given values before the operation itself. -/
def evaluatedBelow (operation : Operation) : List OperationId :=
  match operation.form with
  | .simpleAssignment target assigned =>
    target.evaluatedParts ++ assigned.evaluated ++ [target.id]
  | .nameOf _ => []
  | _ => operation.evaluatedParts

/-- The operations that are given values before an operation allocates an object. -/
def evaluatedFirst (operation : Operation) : List OperationId :=
  match operation.form with
  | .arrayCreation dimensionSizes _ => dimensionSizes.flatMap evaluated
  | _ => []

theorem evaluated_eq (operation : Operation) :
    operation.evaluated = operation.evaluatedBelow ++ [operation.id] := by
  obtain ⟨id, form, type?, constant?⟩ := operation
  cases form with
  | simpleAssignment target assigned =>
    show _ ++ _ ++ [(target.fold Trace.combine).id] ++ _ = _
    rw [id_fold_combine]
    rfl
  | _ => rfl

theorem evaluatedBelow_eq (operation : Operation) :
    operation.evaluatedBelow = match operation.form with
      | .simpleAssignment target assigned =>
        target.evaluatedParts ++ assigned.evaluated ++ [target.id]
      | .nameOf _ => []
      | _ => operation.children.flatMap evaluated := by
  rw [evaluatedBelow, evaluatedParts_eq]

theorem evaluatedBelow_eq_of_isOrdinary {operation : Operation}
    (h : operation.form.isOrdinary = true) :
    operation.evaluatedBelow = operation.children.flatMap evaluated := by
  rw [evaluatedBelow_eq]
  obtain ⟨id, form, type?, constant?⟩ := operation
  cases form <;> first | rfl | cases h

theorem id_mem_evaluated (operation : Operation) : operation.id ∈ operation.evaluated := by
  rw [evaluated_eq]
  simp

/-- What is evaluated is part of the operation. -/
theorem exists_node_of_mem_evaluated {id : OperationId} (operation : Operation) :
    (id ∈ operation.evaluatedParts → ∃ node ∈ operation.nodes, node.id = id) ∧
      (id ∈ operation.evaluated → ∃ node ∈ operation.nodes, node.id = id) := by
  induction operation using induction_children with
  | h operation ih =>
    have hpart : ∀ part ∈ operation.children, ∀ node ∈ part.nodes, node ∈ operation.nodes := by
      intro part hpart node hnode
      rw [nodes_eq]
      exact List.mem_cons_of_mem _ (List.mem_flatMap.2 ⟨part, hpart, hnode⟩)
    have hparts : id ∈ operation.evaluatedParts → ∃ node ∈ operation.nodes, node.id = id := by
      intro h
      rw [evaluatedParts_eq] at h
      obtain ⟨part, hmem, hid⟩ := List.mem_flatMap.1 h
      obtain ⟨node, hnode, hnodeId⟩ := (ih part hmem).2 hid
      exact ⟨node, hpart part hmem node hnode, hnodeId⟩
    refine ⟨hparts, fun h => ?_⟩
    rw [evaluated_eq] at h
    rcases List.mem_append.1 h with h | h
    · unfold evaluatedBelow at h
      split at h
      · next target assigned hform =>
        have hchildren : operation.children = [target, assigned] := by
          rw [children, hform]
          rfl
        rcases List.mem_append.1 h with h | h
        · rcases List.mem_append.1 h with h | h
          · obtain ⟨node, hnode, hnodeId⟩ := (ih target (by simp [hchildren])).1 h
            exact ⟨node, hpart target (by simp [hchildren]) node hnode, hnodeId⟩
          · obtain ⟨node, hnode, hnodeId⟩ := (ih assigned (by simp [hchildren])).2 h
            exact ⟨node, hpart assigned (by simp [hchildren]) node hnode, hnodeId⟩
        · refine ⟨target, hpart target (by simp [hchildren]) target ?_,
            (List.mem_singleton.1 h).symm⟩
          rw [nodes_eq]
          exact List.mem_cons_self
      · simp at h
      · exact hparts h
    · refine ⟨operation, ?_, (List.mem_singleton.1 h).symm⟩
      rw [nodes_eq]
      exact List.mem_cons_self

/-- The operations that are performed along with an operation: their own values are computed. -/
structure Performance where
  /-- Those that the evaluation of the parts performs. -/
  ofParts : List Operation
  /-- Those that the evaluation of the operation itself performs. -/
  ofWhole : List Operation

/-- What an operation performs, from what its parts perform.  The target of an assignment is not
performed: it is given the assigned value. -/
def Performance.combine (operation : Operation) (form : Form Performance) : Performance :=
  let ofParts := form.children.flatMap (·.ofWhole)
  let below := match form with
    | .simpleAssignment target assigned => target.ofParts ++ assigned.ofWhole
    | .nameOf _ => []
    | _ => ofParts
  ⟨ofParts, operation :: below⟩

/-- The operations that are performed when the parts of the operation are evaluated. -/
def performedParts (operation : Operation) : List Operation :=
  (operation.fold Performance.combine).ofParts

/-- The operations that are performed when the operation is evaluated, each before its parts. -/
def performed (operation : Operation) : List Operation :=
  (operation.fold Performance.combine).ofWhole

/-- The operations that are performed as the first part of the evaluation of the operation. -/
def performedChildren (operation : Operation) : List Operation :=
  match operation.form with
  | .simpleAssignment target assigned => target.children ++ [assigned]
  | .nameOf _ => []
  | form => form.children

/-- The operations that are given values once these are performed: the operation itself, and the
target of an assignment. -/
def recipients (operation : Operation) : List Operation :=
  match operation.form with
  | .simpleAssignment target _ => [operation, target]
  | _ => [operation]

theorem performedParts_eq (operation : Operation) :
    operation.performedParts = operation.children.flatMap performed := by
  obtain ⟨id, form, type?, constant?⟩ := operation
  show (foldForm _ form).children.flatMap _ = _
  rw [children_foldForm, List.flatMap_map]
  rfl

theorem performed_eq (operation : Operation) :
    operation.performed = operation :: operation.performedChildren.flatMap performed := by
  have hparts := operation.performedParts_eq
  obtain ⟨id, form, type?, constant?⟩ := operation
  cases form with
  | simpleAssignment target assigned =>
    show _ :: (target.performedParts ++ assigned.performed) = _
    rw [performedParts_eq, performedChildren, List.flatMap_append, List.flatMap_singleton]
  | nameOf operand => rfl
  | _ => exact congrArg (_ :: ·) hparts

theorem self_mem_performed (operation : Operation) : operation ∈ operation.performed := by
  rw [performed_eq]
  exact List.mem_cons_self

theorem self_mem_recipients (operation : Operation) : operation ∈ operation.recipients := by
  unfold recipients
  split <;> exact List.mem_cons_self

/-- What holds of an operation if it holds of all operations that are performed as a part of it
holds of all operations. -/
theorem induction_performed {P : Operation → Prop}
    (h : ∀ operation : Operation, (∀ part ∈ operation.performedChildren, P part) → P operation)
    (operation : Operation) : P operation := by
  -- The parts of the target of an assignment are not among the parts of the assignment.
  refine (?_ : P operation ∧ ∀ part ∈ operation.children, P part).1
  induction operation using induction_children with
  | h operation ih =>
    refine ⟨h operation fun part hpart => ?_, fun part hpart => (ih part hpart).1⟩
    unfold performedChildren at hpart
    split at hpart
    · next target assigned hform =>
      have hchildren : operation.children = [target, assigned] := by
        rw [children, hform]
        rfl
      rcases List.mem_append.1 hpart with hpart | hpart
      · exact (ih target (by simp [hchildren])).2 part hpart
      · obtain rfl := List.mem_singleton.1 hpart
        exact (ih part (by simp [hchildren])).1
    · cases hpart
    · exact (ih part hpart).1

/-- All operations that are given values are different parts of the operation. -/
theorem flatMap_recipients_sublist (operation : Operation) :
    (operation.performed.flatMap recipients).Sublist operation.nodes := by
  induction operation using induction_performed with
  | h operation ih =>
    have hparts := List.Sublist.flatMap_right operation.performedChildren ih
    rw [performed_eq, List.flatMap_cons, List.flatMap_assoc, nodes_eq]
    obtain ⟨id, form, type?, constant?⟩ := operation
    cases form with
    | simpleAssignment target assigned =>
      have hnodes : [target, assigned].flatMap nodes =
          target :: (target.children ++ [assigned]).flatMap nodes := by
        simp [nodes_eq target]
      exact (List.Sublist.refl _).append hparts |>.trans
        (by simp [recipients, children, Form.children, hnodes, performedChildren])
    | nameOf operand =>
      exact (List.Sublist.refl _).append (List.nil_sublist _)
    | _ => exact (List.Sublist.refl _).append hparts

theorem performed_sublist (operation : Operation) :
    operation.performed.Sublist operation.nodes := by
  refine List.Sublist.trans ?_ operation.flatMap_recipients_sublist
  have hself := List.Sublist.flatMap_right operation.performed
    fun node _ => List.singleton_sublist.2 node.self_mem_recipients
  rwa [List.flatMap_singleton'] at hself

theorem mem_nodes_of_performed {operation node : Operation} (h : node ∈ operation.performed) :
    node ∈ operation.nodes := operation.performed_sublist.subset h

/-- Each operation that is performed along with an operation is performed as a part of one of
them. -/
theorem performed_perm (operation : Operation) :
    operation.performed.Perm (operation :: operation.performed.flatMap performedChildren) := by
  induction operation using induction_performed with
  | h operation ih =>
    have hparts := List.Perm.flatMap_left operation.performedChildren ih
    have hsplit := List.flatMap_append_perm operation.performedChildren (fun part => [part])
      fun part => part.performed.flatMap performedChildren
    rw [List.flatMap_singleton', ← List.flatMap_assoc] at hsplit
    rw [performed_eq, List.flatMap_cons]
    exact (hparts.trans hsplit.symm).cons operation

/-! ## What an operation denotes -/

/-- What a reference selects from an instance: the instance, the place, and the type of the storage
there. -/
def selected? : Operation → Option (Operation × Place × StaticType)
  | ⟨_, .fieldReference (some object) field, _, _⟩ => some (object, .member field, field.type)
  | ⟨_, .propertyReference (some object) property [], _, _⟩ =>
    some (object, .member property, property.type)
  | ⟨_, .arrayElementReference array indices, type?, _⟩ =>
    some (array, .element (indices.map Index.ofOperation), type?.getD .unknown)
  | _ => none

section Selected

variable {operation object : Operation} {place : Place} {type : StaticType}
variable (h : operation.selected? = some (object, place, type))
include h

theorem denoted?_of_selected (self? : Option Entity) (ownerOf : Operation → PointsTo) :
    operation.denoted? self? ownerOf =
      if object.isCopied then
        (object.denoted? self? ownerOf).map fun parent => parent.part place type
      else Entity.ofOwner? place type (ownerOf object) := by
  unfold selected? at h
  split at h
  all_goals cases h
  all_goals rw [denoted?]

theorem consulted_of_selected :
    operation.consulted = if object.isCopied then object.consulted else [object] := by
  unfold selected? at h
  split at h
  all_goals cases h
  all_goals rw [consulted]

theorem mem_children_of_selected : object ∈ operation.children := by
  unfold selected? at h
  split at h
  all_goals cases h
  all_goals simp [children, Form.children]

end Selected

theorem consulted_of_not_selected {operation : Operation} (h : operation.selected? = none) :
    operation.consulted = [] := by
  unfold consulted
  split <;> simp_all [selected?]

theorem denoted?_of_not_selected {operation : Operation} (h : operation.selected? = none)
    (self? : Option Entity) (ownerOf ownerOf' : Operation → PointsTo) :
    operation.denoted? self? ownerOf = operation.denoted? self? ownerOf' := by
  unfold denoted?
  split <;> simp_all [selected?]

/-- The parts of a reference are evaluated when the reference is. -/
theorem mem_evaluated_of_consulted {operation consulted : Operation}
    (hconsulted : consulted ∈ operation.consulted) {id : OperationId}
    (h : id ∈ operation.evaluatedParts) : id ∈ operation.evaluated := by
  rw [evaluated_eq, evaluatedBelow]
  obtain ⟨id, form, type?, constant?⟩ := operation
  cases form <;> simp_all [Operation.consulted]

/-- The operations that decide what an operation denotes are among its parts. -/
theorem exists_child_of_consulted {operation consulted : Operation}
    (h : consulted ∈ operation.consulted) :
    ∃ part ∈ operation.children, if part.isCopied then consulted ∈ part.consulted
      else consulted = part := by
  cases hselected : operation.selected? with
  | none => simp [consulted_of_not_selected hselected] at h
  | some selection =>
    obtain ⟨object, place, type⟩ := selection
    refine ⟨object, mem_children_of_selected hselected, ?_⟩
    rw [consulted_of_selected hselected] at h
    by_cases hcopied : object.isCopied = true
    · rwa [if_pos hcopied] at h ⊢
    · rw [if_neg hcopied] at h ⊢
      exact List.mem_singleton.1 h

/-- What holds of an operation and carries over to parts holds of the operations that decide what
the operation denotes. -/
theorem of_consulted {P : Operation → Prop}
    (hpart : ∀ operation, P operation → ∀ part ∈ operation.children, P part)
    (operation : Operation) :
    P operation → ∀ consulted ∈ operation.consulted, P consulted := by
  induction operation using induction_children with
  | h operation ih =>
    intro h consulted hconsulted
    obtain ⟨part, hmem, hconsulted⟩ := exists_child_of_consulted hconsulted
    split at hconsulted
    · exact ih part hmem (hpart operation h part hmem) consulted hconsulted
    · exact hconsulted ▸ hpart operation h part hmem

/-- The operations that decide what an operation denotes are evaluated before it. -/
theorem mem_evaluatedParts_of_consulted (operation : Operation) :
    ∀ consulted ∈ operation.consulted, ∀ id ∈ consulted.evaluated,
      id ∈ operation.evaluatedParts := by
  induction operation using induction_children with
  | h operation ih =>
    intro consulted hconsulted id hid
    obtain ⟨part, hmem, hconsulted⟩ := exists_child_of_consulted hconsulted
    rw [evaluatedParts_eq]
    refine List.mem_flatMap.2 ⟨part, hmem, ?_⟩
    split at hconsulted
    · exact mem_evaluated_of_consulted hconsulted (ih part hmem consulted hconsulted id hid)
    · exact hconsulted ▸ hid

theorem mem_evaluatedBelow_of_consulted (operation : Operation) :
    ∀ id ∈ operation.consulted.flatMap evaluated, id ∈ operation.evaluatedBelow := by
  intro id hid
  obtain ⟨consulted, hconsulted, hid⟩ := List.mem_flatMap.1 hid
  have hparts := operation.mem_evaluatedParts_of_consulted consulted hconsulted id hid
  obtain ⟨id, form, type?, constant?⟩ := operation
  cases form <;> first | exact hparts | simp [Operation.consulted] at hconsulted

/-- All operations whose values an assignment to the operation looks at are among the known ones.
An assignment to a tuple assigns to its elements. -/
structure AssignableWithin (operation : Operation) (known : List OperationId) : Prop where
  consulted : ∀ consulted ∈ operation.consulted, ∀ id ∈ consulted.evaluated, id ∈ known
  elements : ∀ elements, operation.form = .tuple elements →
    ∀ element ∈ elements, ∀ id ∈ element.evaluated, id ∈ known

theorem assignableWithin_of_evaluatedParts (operation : Operation) {known : List OperationId}
    (h : ∀ id ∈ operation.evaluatedParts, id ∈ known) : operation.AssignableWithin known where
  consulted := fun consulted hmem id hid =>
    h id (operation.mem_evaluatedParts_of_consulted consulted hmem id hid)
  elements := by
    intro elements hform element hmem id hid
    refine h id ?_
    rw [evaluatedParts_eq, children, hform]
    exact List.mem_flatMap.2 ⟨element, hmem, hid⟩

theorem assignableWithin_of_evaluated (operation : Operation) {known : List OperationId}
    (h : ∀ id ∈ operation.evaluated, id ∈ known) : operation.AssignableWithin known where
  consulted := fun consulted hmem id hid => h id (mem_evaluated_of_consulted hmem
    (operation.mem_evaluatedParts_of_consulted consulted hmem id hid))
  elements := by
    intro elements hform element hmem id hid
    refine h id ?_
    rw [evaluated_eq, evaluatedBelow, hform, evaluatedParts_eq, children, hform]
    exact List.mem_append_left _ (List.mem_flatMap.2 ⟨element, hmem, hid⟩)

/-- What an operation denotes depends on the points-to values of those that are consulted. -/
theorem denoted?_congr (self? : Option Entity) {ownerOf ownerOf' : Operation → PointsTo}
    (operation : Operation)
    (h : ∀ consulted ∈ operation.consulted, ownerOf consulted = ownerOf' consulted) :
    operation.denoted? self? ownerOf = operation.denoted? self? ownerOf' := by
  induction operation using induction_children with
  | h operation ih =>
    cases hselected : operation.selected? with
    | none => exact denoted?_of_not_selected hselected self? ownerOf ownerOf'
    | some selection =>
      obtain ⟨object, place, type⟩ := selection
      rw [consulted_of_selected hselected] at h
      rw [denoted?_of_selected hselected, denoted?_of_selected hselected]
      by_cases hcopied : object.isCopied = true
      · rw [if_pos hcopied] at h
        rw [if_pos hcopied, if_pos hcopied, ih object (mem_children_of_selected hselected) h]
      · rw [if_neg hcopied] at h
        rw [if_neg hcopied, if_neg hcopied, h object List.mem_cons_self]

/-- No more than one operation is consulted. -/
theorem consulted_eq_nil_or_singleton (operation : Operation) :
    operation.consulted = [] ∨ ∃ consulted, operation.consulted = [consulted] := by
  induction operation using induction_children with
  | h operation ih =>
    cases hselected : operation.selected? with
    | none => exact .inl (consulted_of_not_selected hselected)
    | some selection =>
      obtain ⟨object, place, type⟩ := selection
      rw [consulted_of_selected hselected]
      by_cases hcopied : object.isCopied = true
      · rw [if_pos hcopied]
        exact ih object (mem_children_of_selected hselected)
      · rw [if_neg hcopied]
        exact .inr ⟨object, rfl⟩

/-! ## References to created objects -/

/-- Whether the references within an operation to created objects make sense, given the creations
whose initializers enclose the operation. -/
structure Receivers where
  ofParts : List OperationId → Bool
  ofWhole : List OperationId → Bool

/-- Whether the references within an operation make sense, from its parts.  The initializer of a
creation may refer to the created object. -/
def Receivers.combine (operation : Operation) (form : Form Receivers) : Receivers :=
  let ofParts creations := form.children.all fun part => part.ofWhole creations
  let ofWhole creations :=
    let inside := operation.id :: creations
    match form with
    | .instanceReference (some receiver) => creations.contains receiver
    | .simpleAssignment target assigned =>
      target.ofParts creations && assigned.ofWhole creations
    | .nameOf _ => true
    | .objectCreation _ arguments initializer? =>
      arguments.all (fun argument => argument.value.ofWhole creations) &&
        initializer?.all fun initializer => initializer.ofWhole inside
    | .dynamicObjectCreation parts initializer? | .arrayCreation parts initializer? =>
      parts.all (fun part => part.ofWhole creations) &&
        initializer?.all fun initializer => initializer.ofWhole inside
    | .typeParameterObjectCreation initializer? =>
      initializer?.all fun initializer => initializer.ofWhole inside
    | .anonymousObjectCreation initializers =>
      initializers.all fun initializer => initializer.ofWhole inside
    | _ => ofParts creations
  ⟨ofParts, ofWhole⟩

/-- True if all references to created objects that the evaluation of the parts of the operation
comes upon are enclosed by the initializer of the creation, or by one of the given ones. -/
def partReceiversEnclosed (operation : Operation) (creations : List OperationId) : Bool :=
  (operation.fold Receivers.combine).ofParts creations

/-- True if all references to created objects that the evaluation of the operation comes upon are
enclosed by the initializer of the creation, or by one of the given ones. -/
def receiversEnclosed (operation : Operation) (creations : List OperationId) : Bool :=
  (operation.fold Receivers.combine).ofWhole creations

theorem partReceiversEnclosed_eq (operation : Operation) (creations : List OperationId) :
    operation.partReceiversEnclosed creations =
      operation.children.all fun part => part.receiversEnclosed creations := by
  obtain ⟨id, form, type?, constant?⟩ := operation
  show (foldForm _ form).children.all _ = _
  rw [children_foldForm, List.all_map]
  rfl

theorem receiversEnclosed_eq (operation : Operation) (creations : List OperationId) :
    operation.receiversEnclosed creations =
      let inside := operation.id :: creations
      match operation.form with
      | .instanceReference (some receiver) => creations.contains receiver
      | .simpleAssignment target assigned =>
        target.partReceiversEnclosed creations && assigned.receiversEnclosed creations
      | .nameOf _ => true
      | .objectCreation _ arguments initializer? =>
        arguments.all (fun argument => argument.value.receiversEnclosed creations) &&
          initializer?.all fun initializer => initializer.receiversEnclosed inside
      | .dynamicObjectCreation parts initializer? | .arrayCreation parts initializer? =>
        parts.all (fun part => part.receiversEnclosed creations) &&
          initializer?.all fun initializer => initializer.receiversEnclosed inside
      | .typeParameterObjectCreation initializer? =>
        initializer?.all fun initializer => initializer.receiversEnclosed inside
      | .anonymousObjectCreation initializers =>
        initializers.all fun initializer => initializer.receiversEnclosed inside
      | _ => operation.partReceiversEnclosed creations := by
  obtain ⟨id, form, type?, constant?⟩ := operation
  cases form with
  | instanceReference receiver? => cases receiver? <;> rfl
  | objectCreation constructor? arguments initializer? =>
    show ((foldArguments _ arguments).all _ && (foldOption _ initializer?).all _) = _
    rw [foldArguments_eq, foldOption_eq, List.all_map, Option.all_map]
    rfl
  | dynamicObjectCreation parts initializer? =>
    show ((foldList _ parts).all _ && (foldOption _ initializer?).all _) = _
    rw [foldList_eq, foldOption_eq, List.all_map, Option.all_map]
    rfl
  | arrayCreation parts initializer? =>
    show ((foldList _ parts).all _ && (foldOption _ initializer?).all _) = _
    rw [foldList_eq, foldOption_eq, List.all_map, Option.all_map]
    rfl
  | typeParameterObjectCreation initializer? =>
    show (foldOption _ initializer?).all _ = _
    rw [foldOption_eq, Option.all_map]
    rfl
  | anonymousObjectCreation initializers =>
    show (foldList _ initializers).all _ = _
    rw [foldList_eq, List.all_map]
    rfl
  | _ => rfl

theorem receiversEnclosed_eq_of_isOrdinary {operation : Operation}
    (h : operation.form.isOrdinary = true) (creations : List OperationId) :
    operation.receiversEnclosed creations =
      operation.children.all fun part => part.receiversEnclosed creations := by
  rw [receiversEnclosed_eq, partReceiversEnclosed_eq]
  obtain ⟨id, form, type?, constant?⟩ := operation
  cases form <;> first | rfl | cases h

end Operation
end HeapFlow
