import HeapFlow.Client.PointsTo
import HeapFlow.Proofs.Interpreter.Recorded
import HeapFlow.Proofs.Solver.Invariant

/-! # What initializers see of the object

A creation allocates its object before its initializer is evaluated.  References of the initializer
to the object are looked up among the values of operations, where everything that is evaluated
within the initializer is recorded too, other creations and their initializers among it.  If all
operations have ids of their own, the value of the creation is still there
(`Analysis.Initializing`), and so the references come to this value, no matter how deep they stand.
In the end it is still recorded of them (`PointsToAnalysis.initializer_sees_object`).
-/
namespace HeapFlow

namespace Form

variable {α : Type}

/-- What stands in the initializer of a creation. -/
def initializers : Form α → List α
  | .objectCreation _ _ initializer? | .dynamicObjectCreation _ initializer?
  | .arrayCreation _ initializer? | .typeParameterObjectCreation initializer? =>
    initializer?.toList
  | .anonymousObjectCreation initializers => initializers
  | _ => []

theorem mem_children_of_initializers {form : Form α} :
    ∀ part ∈ form.initializers, part ∈ form.children := by
  intro part hpart
  cases form with
  | objectCreation | dynamicObjectCreation | arrayCreation => exact List.mem_append_right _ hpart
  | typeParameterObjectCreation | anonymousObjectCreation => exact hpart
  | _ => cases hpart

theorem mem_operands_of_initializers {form : Form α} :
    ∀ part ∈ form.initializers, part ∈ form.operands := by
  intro part hpart
  have hchild := mem_children_of_initializers part hpart
  cases form with
  | simpleAssignment | nameOf => cases hpart
  | _ => exact hchild

/-- True for the initializers of arrays, objects and collections. -/
def isInitializer : Form α → Bool
  | .arrayInitializer _ | .objectInitializer _ => true
  | _ => false

end Form

namespace Analysis

open Operation (Lack)

variable {V D : Type}

/-- The innermost initializer that is evaluated is that of the creation, whose object is known. -/
structure Initializing (creation : OperationId) (object : V) (creations : List OperationId)
    (m : Machine V D) : Prop where
  creations : m.creations = creation :: creations
  object : m.values.get? creation = some object

variable {creation : Operation} {object : V} {m : Machine V D} {outer : List OperationId}

/-- The object stays known while operations other than the creation are evaluated. -/
theorem Initializing.effect (h : Initializing creation.id object outer m) {parts : List Operation}
    {m' : Machine V D} (heffect : Effect (parts.flatMap Operation.steps) m m')
    (hparts : Lack parts creation.id) : Initializing creation.id object outer m' where
  creations := heffect.creations.trans h.creations
  object := (heffect.get?_values hparts).trans h.object

variable [AbstractValue V] [EntityState D V] {A : Analysis V D}

theorem Initializing.inSequence (h : Initializing creation.id object outer m)
    {parts : List Operation} (hparts : Lack parts creation.id) :
    ∀ start ∈ A.inSequence parts m, Initializing creation.id object outer start.2 := by
  induction parts generalizing m with
  | nil => exact fun start hstart => by cases hstart
  | cons part parts ih =>
    intro start hstart
    rcases List.mem_cons.1 hstart with rfl | hstart
    · exact h
    · have hpart : Lack [part] creation.id := fun other hother =>
        hparts other (List.mem_cons.2 (.inl (List.mem_singleton.1 hother)))
      have heffect := A.effect_evaluate part m
      rw [← List.flatMap_singleton Operation.steps part] at heffect
      exact ih (h.effect heffect hpart)
        (fun other hother => hparts other (List.mem_cons_of_mem part hother)) start hstart

section Creation

variable (hobject : ∀ f, A.creationValue f creation = object)
include hobject

/-- The creation comes to the object. -/
theorem outcome_evaluateForm_creation (hcreation : creation.form.isCreation = true)
    (m : Machine V D) : (outcome (A.evaluateForm creation creation.form) m).1 = object := by
  cases hform : creation.form with
  | objectCreation constructor? arguments initializer? =>
    rw [evaluateForm]
    cases constructor? <;> exact hobject _
  | dynamicObjectCreation | arrayCreation | typeParameterObjectCreation | anonymousObjectCreation
  | delegateCreation =>
    rw [evaluateForm]
    exact hobject _
  | _ =>
    rw [hform] at hcreation
    cases hcreation

/-- **The object is known where the evaluation of an initializer starts.** -/
theorem initializing_of_starts (hids : creation.HasUniqueIds) {start : Operation × Machine V D}
    (hstart : start ∈ A.starts creation m) (hmem : start.1 ∈ creation.form.initializers) :
    Initializing creation.id object m.creations start.2 := by
  have hself := hids.lack_self
  have hunique := hids.haveUniqueIds
  -- Parts in front of the initializer are other operations.
  have hbefore : ∀ {parts initializers : List Operation} {n : Machine V D},
      Operation.HaveUniqueIds (parts ++ initializers) → start.1 ∈ initializers →
        start ∉ A.inSequence parts n := fun hunique hmem hstart =>
    hunique.lack (mem_of_mem_inSequence hstart) start.1.self_mem_nodes start.1 hmem _
      start.1.self_mem_nodes rfl
  have hallocated : ∀ {n m' : Machine V D} (parts : List Operation) {initializers : List Operation},
      n.creations = m.creations → Lack (parts ++ initializers) creation.id →
        Effect (parts.flatMap Operation.steps) (outcome (A.allocate creation) n).2 m' →
          start ∈ A.inSequence initializers (m'.entering creation.id) →
            Initializing creation.id object m.creations start.2 := by
    intro n m' parts initializers hcreations hlack heffect hstart
    have hentered : Initializing creation.id object m.creations (m'.entering creation.id) := by
      refine ⟨congrArg (creation.id :: ·) (heffect.creations.trans hcreations), ?_⟩
      refine (heffect.get?_values fun part hpart =>
        hlack part (List.mem_append_left _ hpart)).trans ?_
      rw [← hobject n.toFrame]
      exact Environment.get?_insert_self n.values creation.id _
    exact hentered.inSequence (fun part hpart => hlack part (List.mem_append_right _ hpart))
      start hstart
  unfold starts at hstart
  rw [Operation.children] at hself hunique
  cases hform : creation.form with
  | objectCreation constructor? arguments initializer? =>
    rw [hform] at hstart hmem hself hunique
    have hstart := (List.mem_append.1 hstart).resolve_left (hbefore hunique hmem)
    have hcall := A.effect_callConstructor constructor? arguments
      (outcome (A.allocate creation) m).2
    rw [A.evaluateArguments_eq] at hcall hstart
    have heffect := (A.effect_evaluateList _ _).trans hcall
    rw [List.append_nil] at heffect
    exact hallocated _ rfl hself heffect hstart
  | dynamicObjectCreation arguments initializer? =>
    rw [hform] at hstart hmem hself hunique
    have hstart := (List.mem_append.1 hstart).resolve_left (hbefore hunique hmem)
    have heffect := (A.effect_evaluateList arguments (outcome (A.allocate creation) m).2).trans
      (.ofData _ (A.resetHeap (outcome (A.evaluateList arguments)
        (outcome (A.allocate creation) m).2).2.data))
    rw [List.append_nil] at heffect
    exact hallocated _ rfl hself heffect hstart
  | arrayCreation dimensionSizes initializer? =>
    rw [hform] at hstart hmem hself hunique
    have hstart := (List.mem_append.1 hstart).resolve_left (hbefore hunique hmem)
    exact hallocated [] (A.effect_evaluateList dimensionSizes m).creations
      (fun part hpart => hself part (List.mem_append_right _ hpart)) (.refl _) hstart
  | typeParameterObjectCreation | anonymousObjectCreation =>
    rw [hform] at hstart hself
    exact hallocated [] rfl hself (.refl _) hstart
  | _ =>
    rw [hform] at hmem
    cases hmem

end Creation

/-- A reference to the object of a creation has the value that is known of the creation. -/
theorem outcome_evaluateForm_instanceReference {reference : Operation} {receiver : OperationId}
    (hform : reference.form = .instanceReference (some receiver))
    (hobject : m.values.get? receiver = some object) :
    (outcome (A.evaluateForm reference reference.form) m).1 = object := by
  rw [hform, evaluateForm, outcome_knownValue, hobject]
  rfl

/-- The initializer itself comes to the object. -/
theorem Initializing.outcome_evaluateForm (h : Initializing creation.id object outer m)
    {initializer : Operation} (hform : initializer.form.isInitializer = true)
    (hchildren : Lack initializer.children creation.id) :
    (outcome (A.evaluateForm initializer initializer.form) m).1 = object := by
  have hlist : ∀ elements : List Operation, Lack elements creation.id →
      (outcome (do A.evaluateList elements; A.initializedValue initializer) m).1 = object := by
    intro elements helements
    have hafter := h.effect (A.effect_evaluateList elements m) helements
    show (outcome (A.initializedValue initializer)
      (outcome (A.evaluateList elements) m).2).1 = object
    have hknown : (outcome (A.evaluateList elements) m).2.creationValue? = some object := by
      rw [Frame.creationValue?, hafter.creations]
      exact hafter.object
    rw [outcome_initializedValue, hknown]
    rfl
  rw [Operation.children] at hchildren
  cases hinitializer : initializer.form with
  | arrayInitializer elements | objectInitializer elements =>
    rw [hinitializer] at hchildren
    rw [evaluateForm]
    exact hlist elements hchildren
  | _ =>
    rw [hinitializer] at hform
    cases hform

end Analysis

namespace PointsToAnalysis

open Operation (Lack)

/-- The value of an operation from the value that the evaluation of its form comes to. -/
theorem outcome_evaluate_value (operation : Operation) (m : Machine PointsTo PointsToState) :
    (outcome (pointsToAnalysis.evaluate operation) m).1 =
      if hasNoLocation operation then .noLocation
      else (outcome (pointsToAnalysis.evaluateForm operation operation.form) m).1 := by
  rw [Analysis.evaluate_eq]
  rfl

/-- An operation that comes to the object of a creation has the object as its value, unless it is a
constant or has no location although the creation has one. -/
theorem outcome_evaluate_eq_creationValue {creation operation : Operation}
    {m : Machine PointsTo PointsToState}
    (hvalue : (outcome (pointsToAnalysis.evaluateForm operation operation.form) m).1 =
      creationValue creation)
    (hconstant : operation.isConstant = false)
    (hcopied : operation.isCopied = true → creation.isCopied = true) :
    (outcome (pointsToAnalysis.evaluate operation) m).1 = creationValue creation := by
  rw [outcome_evaluate_value, hvalue, hasNoLocation, hconstant, Bool.false_or]
  split
  · next h => rw [creationValue, if_pos (hcopied h)]
  · rfl

section Creation

variable {creation : Operation} (hids : creation.HasUniqueIds)
  {start : Operation × Machine PointsTo PointsToState} {m : Machine PointsTo PointsToState}
  (hstart : start ∈ pointsToAnalysis.starts creation m)
  (hmem : start.1 ∈ creation.form.initializers)
include hids hstart hmem

/-- The initializer of a creation has the object of the creation as its value. -/
theorem outcome_evaluate_initializer (hform : start.1.form.isInitializer = true)
    (hconstant : start.1.isConstant = false)
    (hcopied : start.1.isCopied = true → creation.isCopied = true) :
    (outcome (pointsToAnalysis.evaluate start.1) start.2).1 = creationValue creation := by
  have hinitializing := Analysis.initializing_of_starts (fun _ => rfl) hids hstart hmem
  have hlack := hids.lack_self start.1 (Form.mem_children_of_initializers start.1 hmem)
  refine outcome_evaluate_eq_creationValue (hinitializing.outcome_evaluateForm hform ?_)
    hconstant hcopied
  exact fun part hpart node hnode => hlack node (Operation.mem_nodes_of_child hpart hnode)

/-- References to the object of a creation have this value wherever the evaluation of the
initializer comes to them. -/
theorem outcome_evaluate_instanceReference {part : Operation × Machine PointsTo PointsToState}
    (hpart : pointsToAnalysis.ComesTo start part)
    (hform : part.1.form = .instanceReference (some creation.id))
    (hconstant : part.1.isConstant = false)
    (hcopied : part.1.isCopied = true → creation.isCopied = true) :
    (outcome (pointsToAnalysis.evaluate part.1) part.2).1 = creationValue creation := by
  have hinitializing := Analysis.initializing_of_starts (fun _ => rfl) hids hstart hmem
  have hlack := hids.lack_self start.1 (Form.mem_children_of_initializers start.1 hmem)
  -- The value of the creation is kept wherever the evaluation goes.
  have hmaintains := (pointsToAnalysis.upholds_unrestricted start.2.routine).maintains.freezing
    creation.id (some (creationValue creation))
  have hkept := (Analysis.holds_comesTo hmaintains hpart
    ⟨trivial, hlack⟩
    (Invariant.holds_freezing_iff.2 ⟨⟨rfl, trivial, trivial⟩, hinitializing.object⟩)).2
  exact outcome_evaluate_eq_creationValue (Analysis.outcome_evaluateForm_instanceReference hform
    (Invariant.holds_freezing_iff.1 hkept).2) hconstant hcopied

end Creation

/-- The operations that come to the object of a creation: its initializer, if that initializes an
array, an object or a collection, and all references to the object that are performed along with the
initializer. -/
inductive SeesObject (creation : Operation) : Operation → Prop
  | initializer {initializer : Operation} (hmem : initializer ∈ creation.form.initializers)
      (hform : initializer.form.isInitializer = true) : SeesObject creation initializer
  | reference {initializer reference : Operation} (hmem : initializer ∈ creation.form.initializers)
      (hperformed : reference ∈ initializer.performed)
      (hform : reference.form = .instanceReference (some creation.id)) :
      SeesObject creation reference

/-- **Initializers see the created object.**  If all operations of a tree have ids of their own, and
a creation that is performed is not a constant, then the creation has the value of the object that
it allocates in the end.  So have its initializer and all references to the object in it, no matter
how deep they stand, apart from constants and from operations of a value type if the creation is not
of one.  Initializers that are entered are left again. -/
theorem initializer_sees_object {operation creation : Operation} (hids : operation.HasUniqueIds)
    (hperformed : creation ∈ operation.performed) (hcreation : creation.form.isCreation = true)
    (hconstant : creation.isConstant = false) (m : Machine PointsTo PointsToState) :
    let after := (outcome (pointsToAnalysis.evaluate operation) m).2
    after.values.get? creation.id = some (creationValue creation) ∧
    (∀ node, SeesObject creation node → node.isConstant = false →
      (node.isCopied = true → creation.isCopied = true) →
        after.values.get? node.id = some (creationValue creation)) ∧
    ∀ n, (outcome (pointsToAnalysis.evaluate creation) n).2.creations = n.creations := by
  obtain ⟨n, hcomes⟩ := Analysis.exists_comesTo_of_performed (A := pointsToAnalysis) hperformed m
  have hunique := Analysis.hasUniqueIds_of_comesTo hcomes hids
  have hrecorded : ∀ {part}, pointsToAnalysis.ComesTo (creation, n) part →
      (outcome (pointsToAnalysis.evaluate part.1) part.2).1 = creationValue creation →
        (outcome (pointsToAnalysis.evaluate operation) m).2.values.get? part.1.id =
          some (creationValue creation) := fun hpart hvalue => by
    rw [← hvalue]
    exact Analysis.get?_values_of_comesTo_self (hcomes.trans hpart) hids
  refine ⟨hrecorded .refl (outcome_evaluate_eq_creationValue
    (Analysis.outcome_evaluateForm_creation (fun _ => rfl) hcreation n) hconstant id),
    fun node hnode hnodeConstant hcopied => ?_,
    fun n => (pointsToAnalysis.effect_evaluate creation n).creations⟩
  cases hnode with
  | initializer hmem hform =>
    obtain ⟨start, hstart⟩ := Analysis.exists_mem_starts (A := pointsToAnalysis)
      (Operation.mem_performedChildren_of_operands
        (Form.mem_operands_of_initializers _ hmem)) n
    exact hrecorded (.single hstart)
      (outcome_evaluate_initializer hunique hstart hmem hform hnodeConstant hcopied)
  | @reference initializer reference hmem hreference hform =>
    obtain ⟨start, hstart⟩ := Analysis.exists_mem_starts (A := pointsToAnalysis)
      (Operation.mem_performedChildren_of_operands
        (Form.mem_operands_of_initializers _ hmem)) n
    obtain ⟨n', hpart⟩ :=
      Analysis.exists_comesTo_of_performed (A := pointsToAnalysis) hreference start
    exact hrecorded (.head hstart hpart)
      (outcome_evaluate_instanceReference hunique hstart hmem hpart hform hnodeConstant hcopied)

/-! ## A reference below another creation -/

/-- A reference to the object of the outer creation. -/
def outerReference : Operation := .ofForm ⟨4⟩ (.instanceReference (some ⟨0⟩))

/-- The initializer of a collection that contains the object of the outer creation. -/
def innerInitializer : Operation := .ofForm ⟨3⟩ (.objectInitializer [outerReference])

/-- The creation of the inner collection. -/
def innerCreation : Operation := .ofForm ⟨2⟩ (.objectCreation none [] (some innerInitializer))

/-- The initializer of a collection that contains the inner collection. -/
def outerInitializer : Operation := .ofForm ⟨1⟩ (.objectInitializer [innerCreation])

/-- The creation of the outer collection. -/
def outerCreation : Operation := .ofForm ⟨0⟩ (.objectCreation none [] (some outerInitializer))

/-- The statement that performs the creation. -/
def outerStatement : Operation := .ofForm ⟨5⟩ (.expressionStatement outerCreation)

/-- The entry of a routine without a self instance. -/
def creationEntry : Machine PointsTo PointsToState :=
  .initial ⟨"", none, [], .void, ⟨[⟨⟨0⟩, [outerStatement], none, []⟩], List.cons_ne_nil _ _⟩⟩

/-- The value of the reference is the outer object, although it stands below another creation. -/
theorem outerReference_sees_object :
    outerStatement.HasUniqueIds ∧ outerCreation ∈ outerStatement.performed ∧
      SeesObject outerCreation outerReference ∧
      (outcome (pointsToAnalysis.evaluate outerStatement) creationEntry).2.values.get?
        outerReference.id = some (.ofLocation (.creation ⟨0⟩ .unknown)) := by
  have hids : outerStatement.HasUniqueIds := by decide
  have hperformed : outerCreation ∈ outerStatement.performed :=
    List.mem_cons_of_mem _ List.mem_cons_self
  have hsees : SeesObject outerCreation outerReference :=
    .reference (List.mem_singleton.2 rfl) (List.mem_cons_of_mem _ (List.mem_cons_of_mem _
      (List.mem_cons_of_mem _ List.mem_cons_self))) rfl
  have hvalue := (initializer_sees_object hids hperformed rfl rfl creationEntry).2.1 _ hsees rfl id
  exact ⟨hids, hperformed, hsees, hvalue⟩

end PointsToAnalysis
end HeapFlow
