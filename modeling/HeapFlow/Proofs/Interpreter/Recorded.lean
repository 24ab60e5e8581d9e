import HeapFlow.Proofs.Interpreter.Encounter

/-! # What an evaluation records

An evaluation records the values of the operations of a tree.  If these have ids of their own, then
nothing that is recorded of a part is lost: in the end, the value of an operation is the one that
the evaluation of a part has come to that it belongs to (`Analysis.get?_values_of_comesTo`).
-/
namespace HeapFlow

/-- True for the forms that evaluate their parts one after the other before anything else. -/
def Form.isSequential {α : Type} : Form α → Bool
  | .simpleAssignment _ _ | .objectCreation _ _ _ | .dynamicObjectCreation _ _
  | .arrayCreation _ _ | .typeParameterObjectCreation _ | .anonymousObjectCreation _
  | .delegateCreation _ | .conditional _ _ _ | .nameOf _ => false
  | _ => true

namespace Analysis

open Operation (HasUniqueIds HaveUniqueIds Lack)

variable {V D : Type} [AbstractValue V] [EntityState D V] {A : Analysis V D}

/-! ## Forms that evaluate their parts first -/

/-- The action evaluates the operations one after the other, and only changes the state apart from
that. -/
def Follows {α : Type} (A : Analysis V D) (parts : List Operation) (action : Interp V D α) : Prop :=
  ∀ m, Effect [] (outcome (A.evaluateList parts) m).2 (outcome action m).2

section Follows

variable {α β : Type} {part : Operation} {parts rest : List Operation}

theorem Follows.of_effects {Q : α → Prop} {action : Interp V D α}
    (h : (effects V D).Accepts [] Q action) : A.Follows [] action := fun m => by
  rw [evaluateList]
  exact (h m).2

theorem Follows.evaluate {next : V → Interp V D β} (h : ∀ value, A.Follows parts (next value)) :
    A.Follows (part :: parts) (A.evaluate part >>= next) := fun m => by
  rw [evaluateList]
  exact h _ _

theorem Follows.discard {next : Unit → Interp V D β} (h : A.Follows parts (next ())) :
    A.Follows (part :: parts) (Functor.discard (A.evaluate part) >>= next) := fun m => by
  rw [evaluateList]
  exact h _

theorem Follows.list {next : Unit → Interp V D β} (h : A.Follows rest (next ())) :
    A.Follows (parts ++ rest) (A.evaluateList parts >>= next) := fun m => by
  rw [evaluateList_append]
  exact h _

theorem Follows.last {next : Unit → Interp V D β} (h : A.Follows [] (next ())) :
    A.Follows parts (A.evaluateList parts >>= next) := by
  have hlist : A.Follows (parts ++ []) (A.evaluateList parts >>= next) := .list h
  rwa [List.append_nil] at hlist

theorem Follows.data {next : D → Interp V D β} (h : ∀ data, A.Follows parts (next data)) :
    A.Follows parts (Analysis.data >>= next) := fun m => h m.data m

omit [AbstractValue V] [EntityState D V] in
theorem effects_returning {action : Interp V D Unit} (h : (effects V D).Runs [] action)
    (value : V) : (effects V D).Accepts [] (fun _ => True) (action >>= fun _ => pure value) :=
  (effects V D).bind h fun _ _ => (effects V D).pure trivial

section Forms

variable (operation : Operation) {form : Form Operation}

/-- References read storage after their parts. -/
theorem follows_reference (hreference : form.isReference = true) :
    A.Follows form.children (A.evaluateForm operation form) := by
  have hrules := A.effects_rules operation
  cases form with
  | localReference | parameterReference | flowCaptureReference =>
    rw [evaluateForm]
    exact .of_effects hrules.read
  | fieldReference instance? field =>
    rw [evaluateForm, evaluateOption_eq]
    exact .last (.of_effects hrules.read)
  | arrayElementReference array indices =>
    rw [evaluateForm]
    exact .discard (.last (.of_effects hrules.read))
  | propertyReference instance? property arguments =>
    rw [evaluateForm, evaluateOption_eq, evaluateArguments_eq]
    refine .list (.last ?_)
    split
    · exact .of_effects hrules.read
    · exact .of_effects (effects_of_data fun _ => rfl)
  | instanceReference receiver? =>
    cases receiver? with
    | none =>
      rw [evaluateForm]
      exact .of_effects hrules.read
    | some receiver =>
      rw [evaluateForm]
      exact .of_effects (hrules.known receiver)
  | _ => cases hreference

/-- Assignments and declarations write to storage after their parts. -/
theorem follows_storing (hform : operation.form = form) (hstoring : form.isStoring = true)
    (hsequential : form.isSequential = true) :
    A.Follows form.children (A.evaluateForm operation form) := by
  have hrules := A.effects_rules operation
  cases form with
  | flowCapture capture captured =>
    rw [evaluateForm_flowCapture]
    exact .evaluate fun value => .of_effects
      (effects_returning (hrules.writeCapture hform trivial) value)
  | variableDeclarator symbol initializer? =>
    cases initializer? with
    | none =>
      rw [evaluateForm]
      exact .of_effects hrules.fallback
    | some initializer =>
      rw [evaluateForm]
      exact .evaluate fun value => .of_effects (effects_of_data fun _ => rfl)
  | compoundAssignment operator target assigned =>
    rw [evaluateForm]
    exact .discard (.discard (.of_effects ((effects V D).bind hrules.fallback fun value _ =>
      effects_returning (A.effects_assignTo target value) value)))
  | declarationPattern symbol? pattern? =>
    cases symbol? with
    | none =>
      rw [evaluateForm]
      exact .of_effects hrules.fallback
    | some symbol =>
      rw [evaluateForm]
      exact .of_effects (effects_of_data fun _ => rfl)
  | returning returned? =>
    cases returned? with
    | none =>
      rw [evaluateForm]
      exact .of_effects hrules.fallback
    | some returned =>
      rw [evaluateForm_returning]
      exact .evaluate fun value => .of_effects
        (effects_returning (hrules.writeResult hform trivial) value)
  | simpleAssignment => cases hsequential
  | _ => cases hstoring

/-- Calls have their effects after their parts. -/
theorem follows_calling (hcalling : form.isCalling = true) :
    A.Follows form.children (A.evaluateForm operation form) := by
  cases form with
  | invocation callee instance? arguments =>
    rw [evaluateForm, evaluateCallee_eq, evaluateOption_eq, evaluateArguments_eq]
    have hcalled : (effects V D).Accepts [] (fun _ => True)
        (A.returnFrom operation (operation.type?.getD callee.returnType)) :=
      effects_of_data fun _ => rfl
    rw [Form.children, List.append_assoc]
    exact .list (.list (.last (.of_effects ((effects V D).bind hcalled fun value _ =>
      effects_returning (A.effects_applyCall arguments _) value))))
  | dynamicInvocation callee arguments =>
    rw [evaluateForm]
    exact .discard (.last (.of_effects (effects_of_data fun _ => rfl)))
  | await awaited =>
    rw [evaluateForm]
    exact .discard (.of_effects (effects_of_data fun _ => rfl))
  | _ => cases hcalling

/-- Where control may leave out the last part, states are joined after it. -/
theorem follows_branching (hbranching : form.isBranching = true)
    (hsequential : form.isSequential = true) :
    A.Follows form.children (A.evaluateForm operation form) := by
  have hrules := A.effects_rules operation
  cases form with
  | coalesce first whenNull =>
    rw [evaluateForm]
    exact .evaluate fun value => .data fun _ => .evaluate fun _ => .of_effects
      (effects_returning (hrules.join trivial) _)
  | binary operator left right =>
    rw [evaluateForm]
    refine .discard (.data fun _ => .discard ?_)
    split
    · exact .of_effects ((effects V D).bind (hrules.join trivial) fun _ _ => hrules.fallback)
    · exact .of_effects hrules.fallback
  | conditional => cases hsequential
  | _ => cases hbranching

/-- Most forms evaluate their parts first, and only change the state after that. -/
theorem follows_evaluateForm (hform : operation.form = form)
    (hsequential : form.isSequential = true) :
    A.Follows form.children (A.evaluateForm operation form) := by
  have hrules := A.effects_rules operation
  cases form with
  | localReference | parameterReference | flowCaptureReference | fieldReference
  | arrayElementReference | propertyReference | instanceReference =>
    exact follows_reference operation rfl
  | flowCapture | variableDeclarator | compoundAssignment | declarationPattern | returning =>
    exact follows_storing operation hform rfl rfl
  | invocation | dynamicInvocation | await => exact follows_calling operation rfl
  | coalesce | binary => exact follows_branching operation rfl rfl
  | literal | defaultValue | sizeOf | typeOf | anonymousFunction =>
    rw [evaluateForm]
    exact .of_effects hrules.fallback
  | arrayInitializer elements | objectInitializer elements =>
    rw [evaluateForm]
    exact .last (.of_effects hrules.initialized)
  | conversion operand kind =>
    rw [evaluateForm]
    exact .evaluate fun value => .of_effects (effects_of_data fun _ => rfl)
  | expressionStatement expression =>
    rw [evaluateForm, Form.children]
    intro m
    rw [evaluateList_singleton]
    exact .refl _
  | isType operand | constantPattern operand | unary _ operand =>
    rw [evaluateForm]
    exact .discard (.of_effects hrules.fallback)
  | isPattern operand pattern =>
    rw [evaluateForm]
    exact .discard (.discard (.of_effects hrules.fallback))
  | interpolatedString fragments | tuple fragments | other fragments =>
    rw [evaluateForm]
    exact .last (.of_effects hrules.fallback)
  | throwing exception? =>
    rw [evaluateForm, evaluateOption_eq]
    exact .last (.of_effects hrules.fallback)
  | _ => cases hsequential

end Forms

end Follows

/-! ## What is recorded of the parts -/

variable {operation : Operation} {m : Machine V D} {id : OperationId}

/-- Settling the value of an operation does not affect others. -/
theorem get?_values_evaluate_of_ne (hid : id ≠ operation.id) :
    (outcome (A.evaluate operation) m).2.values.get? id =
      (outcome (A.evaluateForm operation operation.form) m).2.values.get? id := by
  rw [evaluate_eq]
  exact get?_insert_of_id_ne hid.symm

/-- What is recorded of the parts of most forms is there once the parts have been evaluated. -/
theorem get?_values_evaluate_of_isSequential (hform : operation.form.isSequential = true)
    (hid : id ≠ operation.id) :
    (outcome (A.evaluate operation) m).2.values.get? id =
      (outcome (A.evaluateParts operation) m).2.values.get? id := by
  rw [get?_values_evaluate_of_ne hid, evaluateParts_eq]
  exact (follows_evaluateForm operation rfl hform m).get?_values_of_nil

theorem starts_of_isSequential (hform : operation.form.isSequential = true) :
    A.starts operation m = A.inSequence operation.children m := by
  obtain ⟨id, form, type?, constant?⟩ := operation
  cases form <;> first | rfl | cases hform

theorem values_evaluateInitializer (creation : OperationId) (initializer? : Option Operation)
    (m : Machine V D) :
    (outcome (A.evaluateInitializer creation initializer?) m).2.values =
      (outcome (A.evaluateList initializer?.toList) (m.entering creation)).2.values := by
  cases initializer? with
  | none =>
    rw [evaluateInitializer, Option.toList_none, evaluateList]
    rfl
  | some initializer =>
    rw [evaluateInitializer, Option.toList_some, evaluateList_singleton]
    rfl

section Node

variable {start : Operation × Machine V D} {node : Operation} (hnode : node ∈ start.1.nodes)
include hnode

/-- If operations are evaluated one after the other, with a break that does not matter to the node,
then what is recorded of the node stays. -/
theorem get?_values_inSequence_append {before after : List Operation} {n : Machine V D}
    (hids : HaveUniqueIds (before ++ after))
    (hstart : start ∈ A.inSequence before m ++ A.inSequence after n)
    (hbreak : n.values.get? node.id =
      (outcome (A.evaluateList before) m).2.values.get? node.id) :
    (outcome (A.evaluateList after) n).2.values.get? node.id =
      (outcome (A.evaluate start.1) start.2).2.values.get? node.id := by
  rcases List.mem_append.1 hstart with hstart | hstart
  · rw [get?_values_evaluateList_of_lack (hids.lack (mem_of_mem_inSequence hstart) hnode), hbreak,
      get?_values_inSequence hids.left hstart hnode]
  · exact get?_values_inSequence hids.right hstart hnode

/-- **What the evaluation of a part records stays** while the evaluation of the operation goes on.
Nothing else is given a value than what is evaluated, the operation and the target of an
assignment. -/
theorem get?_values_of_starts (hids : operation.HasUniqueIds)
    (hstart : start ∈ A.starts operation m) :
    (outcome (A.evaluate operation) m).2.values.get? node.id =
      (outcome (A.evaluate start.1) start.2).2.values.get? node.id := by
  have hunique := hids.performedChildren
  have hlack : ∀ {other}, other ∈ operation :: operation.assignmentTargets → node.id ≠ other.id :=
    fun hother => hids.lack_performedChildren hother start.1 (mem_of_mem_starts hstart) node hnode
  have hne := hlack List.mem_cons_self
  rw [get?_values_evaluate_of_ne hne]
  obtain ⟨id, form, type?, constant?⟩ := operation
  have hallocated : ∀ n : Machine V D, (outcome (A.allocate ⟨id, form, type?, constant?⟩)
      n).2.values.get? node.id = n.values.get? node.id := fun n => get?_insert_of_id_ne hne.symm
  cases form with
  | simpleAssignment target assigned =>
    have htarget : target.id ≠ node.id :=
      (hlack (List.mem_cons_of_mem _ (List.mem_singleton.2 rfl))).symm
    refine Eq.trans ?_ (get?_values_inSequence hunique hstart hnode)
    rw [evaluateForm, Operation.performedChildren, evaluateList_append, evaluateList_singleton,
      ← evaluateParts_eq]
    exact (get?_insert_of_id_ne htarget).trans
      (A.effects_assignTo target _ _).2.get?_values_of_nil
  | objectCreation constructor? arguments initializer? =>
    refine Eq.trans ?_ (get?_values_inSequence_append hnode hunique hstart ?_)
    · rw [← values_evaluateInitializer, evaluateForm]
      cases constructor? <;> rfl
    · rw [← evaluateArguments_eq]
      exact (A.effect_callConstructor constructor? arguments _).get?_values_of_nil
  | dynamicObjectCreation arguments initializer? =>
    refine Eq.trans ?_ (get?_values_inSequence_append hnode hunique hstart rfl)
    rw [← values_evaluateInitializer, evaluateForm]
    rfl
  | arrayCreation dimensionSizes initializer? =>
    refine Eq.trans ?_ (get?_values_inSequence_append hnode hunique hstart ?_)
    · rw [← values_evaluateInitializer, evaluateForm]
      rfl
    · exact hallocated _
  | typeParameterObjectCreation initializer? =>
    refine Eq.trans ?_ (get?_values_inSequence hunique hstart hnode)
    show _ = (outcome (A.evaluateList initializer?.toList)
      ((outcome (A.allocate _) m).2.entering id)).2.values.get? node.id
    rw [← values_evaluateInitializer, evaluateForm]
    rfl
  | anonymousObjectCreation initializers =>
    refine Eq.trans ?_ (get?_values_inSequence hunique hstart hnode)
    rw [evaluateForm]
    rfl
  | delegateCreation target =>
    refine Eq.trans ?_ (get?_values_inSequence hunique hstart hnode)
    show _ = (outcome (A.evaluateList [target]) (outcome (A.allocate _) m).2).2.values.get? node.id
    rw [evaluateList_singleton, evaluateForm]
    rfl
  | conditional condition whenTrue whenFalse? =>
    let tested := (outcome (A.evaluate condition) m).2
    let restored : Machine V D :=
      { (outcome (A.evaluate whenTrue) tested).2 with data := tested.data }
    have hparts : start ∈ A.inSequence [condition, whenTrue] m ++
      A.inSequence whenFalse?.toList restored := hstart
    refine Eq.trans ?_ (get?_values_inSequence_append hnode hunique hparts ?_)
    · rw [evaluateForm]
      cases whenFalse? with
      | none =>
        rw [Option.toList_none, evaluateList]
        rfl
      | some whenFalse =>
        rw [Option.toList_some, evaluateList_singleton]
        rfl
    · simp only [evaluateList]
      rfl
  | nameOf => cases hstart
  | _ =>
    rw [starts_of_isSequential rfl] at hstart
    rw [(follows_evaluateForm _ rfl rfl m).get?_values_of_nil]
    exact get?_values_inSequence hunique hstart hnode

end Node

/-- The evaluation comes to every operation that is performed. -/
theorem exists_comesTo_of_performed {operation node : Operation} (h : node ∈ operation.performed)
    (m : Machine V D) : ∃ n, A.ComesTo (operation, m) (node, n) := by
  induction operation using Operation.induction_performed generalizing m with
  | h operation ih =>
    rw [Operation.performed_eq] at h
    rcases List.mem_cons.1 h with rfl | h
    · exact ⟨m, .refl⟩
    · obtain ⟨part, hpart, hnode⟩ := List.mem_flatMap.1 h
      obtain ⟨start, hstart⟩ := exists_mem_starts (A := A) hpart m
      obtain ⟨n, hn⟩ := ih part hpart hnode start
      exact ⟨n, .head hstart hn⟩

theorem mem_nodes_of_comesTo {start part : Operation × Machine V D} (h : A.ComesTo start part)
    {node : Operation} (hnode : node ∈ part.1.nodes) : node ∈ start.1.nodes := by
  induction h using Relation.ReflTransGen.head_induction_on with
  | refl => exact hnode
  | head hstart _ ih => exact Operation.mem_nodes_of_performedChild (mem_of_mem_starts hstart) ih

theorem hasUniqueIds_of_comesTo {start part : Operation × Machine V D} (h : A.ComesTo start part)
    (hids : start.1.HasUniqueIds) : part.1.HasUniqueIds := by
  induction h with
  | refl => exact hids
  | tail _ hpart ih => exact ih.performedChildren.of_mem (mem_of_mem_starts hpart)

/-- **Nothing that is recorded is lost.**  If the operations of a tree have ids of their own, then
the value of one of them in the end is the one that the evaluation of a part has come to that it
belongs to. -/
theorem get?_values_of_comesTo {start part : Operation × Machine V D} (h : A.ComesTo start part)
    (hids : start.1.HasUniqueIds) {node : Operation} (hnode : node ∈ part.1.nodes) :
    (outcome (A.evaluate start.1) start.2).2.values.get? node.id =
      (outcome (A.evaluate part.1) part.2).2.values.get? node.id := by
  induction h using Relation.ReflTransGen.head_induction_on with
  | refl => rfl
  | head hstart hpart ih =>
    exact (get?_values_of_starts (mem_nodes_of_comesTo hpart hnode) hids hstart).trans
      (ih (hids.performedChildren.of_mem (mem_of_mem_starts hstart)))

/-- The value that is recorded of an operation is what the evaluation of the operation comes to. -/
theorem get?_values_of_comesTo_self {start part : Operation × Machine V D}
    (h : A.ComesTo start part) (hids : start.1.HasUniqueIds) :
    (outcome (A.evaluate start.1) start.2).2.values.get? part.1.id =
      some (outcome (A.evaluate part.1) part.2).1 := by
  rw [get?_values_of_comesTo h hids part.1.self_mem_nodes, get?_values_evaluate]


end Analysis
end HeapFlow
