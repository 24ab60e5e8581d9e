import HeapFlow.Proofs.Interpreter.Locality

/-! # Evaluation is contained

The evaluation of an operation is contained if the evaluation of its parts is, form by form; so it
is contained for all operations whose references to created objects are enclosed
(`Analysis.evaluates`).  A block is a sequence of such operations, so the state at its end and the
values of its operations depend on no more of the state at its start than the analysis respects
(`Analysis.contained_evaluateBlock`).
-/
namespace HeapFlow
namespace Analysis

section Operations

variable {V D : Type} [AbstractValue V] [EntityState D V] {A : Analysis V D} {C : Comparison V D}
variable (hA : A.Respects C) {known creations : List OperationId} {operation : Operation}
variable (hoperation : C.operation operation)
include hA hoperation

/-! ## Assignments -/

theorem contained_simpleAssignment {target assigned : Operation}
    (hform : operation.form = .simpleAssignment target assigned)
    (htarget : A.EvaluatesParts C creations target) (hassigned : A.Evaluates C creations assigned) :
    Contained C known creations (target.evaluatedParts ++ (assigned.evaluated ++ [target.id]))
      C.value (A.evaluateForm operation (.simpleAssignment target assigned)) := by
  have hchild : C.operation target :=
    C.part hoperation target (by simp [Operation.children, hform, Form.children])
  rw [evaluateForm]
  refine (htarget known).bind fun _ _ => (hassigned _).bind fun value hvalue => ?_
  -- The target itself has no value yet, but what the assignment looks at is among its parts.
  refine (contained_assignTo hA hchild ?_ hvalue).step fun _ _ => ?_
  · exact target.assignableWithin_of_evaluatedParts fun id hid => by simp [hid]
  exact (contained_cache target.id hvalue).last fun _ _ => contained_pure hvalue

theorem contained_compoundAssignment {operator : BinaryOperator} {target assigned : Operation}
    (hform : operation.form = .compoundAssignment operator target assigned)
    (hbelow : operation.evaluatedBelow = target.evaluated ++ assigned.evaluated)
    (htarget : A.Evaluates C creations target) (hassigned : A.Evaluates C creations assigned) :
    Contained C known creations operation.evaluatedBelow C.value
      (A.evaluateForm operation (.compoundAssignment operator target assigned)) := by
  have hchild : C.operation target :=
    C.part hoperation target (by simp [Operation.children, hform, Form.children])
  rw [evaluateForm, hbelow]
  refine (htarget known).discard.bind fun _ _ => (hassigned _).discard.last fun _ _ => ?_
  refine (contained_fallback hA hoperation (by simp [hbelow])).step fun value hvalue => ?_
  refine (contained_assignTo hA hchild ?_ hvalue).step fun _ _ => contained_pure hvalue
  exact target.assignableWithin_of_evaluated fun id hid => by simp [hid]

/-! ## Alternatives -/

theorem contained_conditional {condition whenTrue : Operation} {whenFalse? : Option Operation}
    (hbelow : operation.evaluatedBelow = condition.evaluated ++
      (whenTrue.evaluated ++ whenFalse?.toList.flatMap Operation.evaluated))
    (hcondition : A.Evaluates C creations condition) (hwhenTrue : A.Evaluates C creations whenTrue)
    (hwhenFalse : ∀ whenFalse ∈ whenFalse?.toList, A.Evaluates C creations whenFalse) :
    Contained C known creations operation.evaluatedBelow C.value
      (A.evaluateForm operation (.conditional condition whenTrue whenFalse?)) := by
  cases whenFalse? with
  | none =>
    rw [evaluateForm, hbelow]
    refine (hcondition known).discard.bind fun _ _ =>
      contained_alternatives hA (hwhenTrue _) fun _ _ => ?_
    exact contained_fallback hA hoperation (by simp [hbelow])
  | some whenFalse =>
    rw [evaluateForm, hbelow]
    refine (hcondition known).discard.bind fun _ _ => ?_
    rw [Option.toList_some, List.flatMap_singleton]
    have halternatives := contained_alternatives hA (hwhenTrue (known ++ condition.evaluated))
      fun valueWhenTrue hvalue => (hwhenFalse whenFalse (by simp) _).last
        fun valueWhenFalse hvalue' => contained_pure (hA.mergeValue hvalue hvalue')
    simpa only [bind_assoc, pure_bind] using halternatives

omit hoperation in
/-- An action that is taken or not. -/
theorem contained_maybe {β : Type} {ids : List OperationId} {R : β → Prop} {action : Interp V D β}
    (h : Contained C known creations ids R action) :
    Contained C known creations ids R (data >>= fun before => action >>= fun b =>
      A.joinData before >>= fun _ => pure b) := by
  have hnothing : Contained C known creations [] (fun _ => True) (pure () : Interp V D Unit) :=
    contained_pure trivial
  have haction : ∀ u : Unit, True → Contained C (known ++ []) creations ids R action := by
    rw [List.append_nil]
    exact fun _ _ => h
  exact contained_alternatives hA hnothing haction

omit hoperation in
theorem contained_coalesce {first whenNull : Operation} (hfirst : A.Evaluates C creations first)
    (hbelow : operation.evaluatedBelow = first.evaluated ++ whenNull.evaluated)
    (hwhenNull : A.Evaluates C creations whenNull) :
    Contained C known creations operation.evaluatedBelow C.value
      (A.evaluateForm operation (.coalesce first whenNull)) := by
  rw [evaluateForm, hbelow]
  refine (hfirst known).bind fun value hvalue => ?_
  have hmaybe := (contained_maybe hA (hwhenNull (known ++ first.evaluated))).last
    fun valueWhenNull hvalue' => contained_pure (hA.mergeValue hvalue hvalue')
  simpa only [bind_assoc, pure_bind] using hmaybe

theorem contained_binary {operator : BinaryOperator} {left right : Operation}
    (hbelow : operation.evaluatedBelow = left.evaluated ++ right.evaluated)
    (hleft : A.Evaluates C creations left) (hright : A.Evaluates C creations right) :
    Contained C known creations operation.evaluatedBelow C.value
      (A.evaluateForm operation (.binary operator left right)) := by
  have hvalue : Contained C (known ++ left.evaluated ++ right.evaluated) creations [] C.value
      (A.fallback operation) := contained_fallback hA hoperation (by simp [hbelow])
  rw [evaluateForm, hbelow]
  refine (hleft known).discard.bind fun _ _ => ?_
  cases operator.isShortCircuit with
  | false => exact (hright _).discard.last fun _ _ => hvalue
  | true =>
    have hmaybe := (contained_maybe hA (hright (known ++ left.evaluated)).discard).last
      fun _ _ => hvalue
    simpa only [bind_assoc, pure_bind, if_true] using hmaybe

/-! ## Creations -/

/-- What a creation evaluates, along with the creation itself, which is given its value before its
initializer is evaluated. -/
theorem contained_objectCreation {constructor? : Option Symbol}
    {arguments : List (Argument Operation)} {initializer? : Option Operation}
    (hform : operation.form = .objectCreation constructor? arguments initializer?)
    (harguments : ∀ argument ∈ arguments, A.Evaluates C creations argument.value)
    (hinitializer : ∀ initializer ∈ initializer?.toList,
      A.Evaluates C (operation.id :: creations) initializer) :
    Contained C known creations
      ([operation.id] ++ ((arguments.flatMap fun argument => argument.value.evaluated) ++
        initializer?.toList.flatMap Operation.evaluated)) C.value
      (A.evaluateForm operation (.objectCreation constructor? arguments initializer?)) := by
  rw [evaluateForm]
  refine (contained_allocate hA hoperation ?_).bind fun value hvalue => ?_
  · simp [Operation.evaluatedFirst, hform]
  refine (contained_evaluateArguments harguments).bind fun _ _ => ?_
  have hinside : Contained C
      (known ++ [operation.id] ++ arguments.flatMap fun argument => argument.value.evaluated)
      creations (initializer?.toList.flatMap Operation.evaluated) (fun _ => True)
      (A.evaluateInitializer operation.id initializer?) :=
    contained_evaluateInitializer hinitializer (by simp)
  cases constructor?.isSome with
  | false => exact hinside.last fun _ _ => contained_pure hvalue
  | true =>
    refine (contained_applyCall hA (fun argument hargument => ⟨?_, fun id hid => ?_⟩) false).step
      fun _ _ => hinside.last fun _ _ => contained_pure hvalue
    · refine C.part hoperation argument.value ?_
      rw [Operation.children, hform]
      exact List.mem_append_left _ (List.mem_map_of_mem hargument)
    · exact List.mem_append_right _ (List.mem_flatMap.2 ⟨argument, hargument, hid⟩)

theorem contained_dynamicObjectCreation {arguments : List Operation}
    {initializer? : Option Operation}
    (hform : operation.form = .dynamicObjectCreation arguments initializer?)
    (harguments : ∀ argument ∈ arguments, A.Evaluates C creations argument)
    (hinitializer : ∀ initializer ∈ initializer?.toList,
      A.Evaluates C (operation.id :: creations) initializer) :
    Contained C known creations
      ([operation.id] ++ (arguments.flatMap Operation.evaluated ++
        initializer?.toList.flatMap Operation.evaluated)) C.value
      (A.evaluateForm operation (.dynamicObjectCreation arguments initializer?)) := by
  rw [evaluateForm]
  refine (contained_allocate hA hoperation ?_).bind fun value hvalue => ?_
  · simp [Operation.evaluatedFirst, hform]
  refine (contained_evaluateList harguments).bind fun _ _ => ?_
  refine (contained_changeData hA.resetHeap).step fun _ _ => ?_
  exact (contained_evaluateInitializer hinitializer (by simp)).last fun _ _ => contained_pure hvalue

theorem contained_arrayCreation {dimensionSizes : List Operation} {initializer? : Option Operation}
    (hform : operation.form = .arrayCreation dimensionSizes initializer?)
    (hsizes : ∀ size ∈ dimensionSizes, A.Evaluates C creations size)
    (hinitializer : ∀ initializer ∈ initializer?.toList,
      A.Evaluates C (operation.id :: creations) initializer) :
    Contained C known creations
      (dimensionSizes.flatMap Operation.evaluated ++ ([operation.id] ++
        initializer?.toList.flatMap Operation.evaluated)) C.value
      (A.evaluateForm operation (.arrayCreation dimensionSizes initializer?)) := by
  rw [evaluateForm]
  refine (contained_evaluateList hsizes).bind fun _ _ => ?_
  refine (contained_allocate hA hoperation ?_).bind fun value hvalue => ?_
  · simp [Operation.evaluatedFirst, hform]
  exact (contained_evaluateInitializer hinitializer (by simp)).last fun _ _ => contained_pure hvalue

theorem contained_typeParameterObjectCreation {initializer? : Option Operation}
    (hform : operation.form = .typeParameterObjectCreation initializer?)
    (hinitializer : ∀ initializer ∈ initializer?.toList,
      A.Evaluates C (operation.id :: creations) initializer) :
    Contained C known creations
      ([operation.id] ++ initializer?.toList.flatMap Operation.evaluated) C.value
      (A.evaluateForm operation (.typeParameterObjectCreation initializer?)) := by
  rw [evaluateForm]
  refine (contained_allocate hA hoperation ?_).bind fun value hvalue => ?_
  · simp [Operation.evaluatedFirst, hform]
  exact (contained_evaluateInitializer hinitializer (by simp)).last fun _ _ => contained_pure hvalue

theorem contained_anonymousObjectCreation {initializers : List Operation}
    (hform : operation.form = .anonymousObjectCreation initializers)
    (hinitializers : ∀ initializer ∈ initializers,
      A.Evaluates C (operation.id :: creations) initializer) :
    Contained C known creations ([operation.id] ++ initializers.flatMap Operation.evaluated) C.value
      (A.evaluateForm operation (.anonymousObjectCreation initializers)) := by
  rw [evaluateForm]
  refine (contained_allocate hA hoperation ?_).bind fun value hvalue => ?_
  · simp [Operation.evaluatedFirst, hform]
  exact (contained_inInitializer (contained_evaluateList hinitializers) (by simp)).last fun _ _ =>
    contained_pure hvalue

theorem contained_delegateCreation {target : Operation}
    (hform : operation.form = .delegateCreation target)
    (htarget : A.Evaluates C creations target) :
    Contained C known creations ([operation.id] ++ target.evaluated) C.value
      (A.evaluateForm operation (.delegateCreation target)) := by
  rw [evaluateForm]
  refine (contained_allocate hA hoperation ?_).bind fun value hvalue => ?_
  · simp [Operation.evaluatedFirst, hform]
  exact (htarget _).discard.last fun _ _ => contained_pure hvalue

/-! ## Calls -/

theorem contained_invocation {callee : Callee Operation} {instance? : Option Operation}
    {arguments : List (Argument Operation)}
    (hform : operation.form = .invocation callee instance? arguments)
    (hbelow : operation.evaluatedBelow = callee.target?.toList.flatMap Operation.evaluated ++
      (instance?.toList.flatMap Operation.evaluated ++
        arguments.flatMap fun argument => argument.value.evaluated))
    (hcallee : ∀ part ∈ callee.target?.toList, A.Evaluates C creations part)
    (hinstance : ∀ part ∈ instance?.toList, A.Evaluates C creations part)
    (harguments : ∀ argument ∈ arguments, A.Evaluates C creations argument.value) :
    Contained C known creations operation.evaluatedBelow C.value
      (A.evaluateForm operation (.invocation callee instance? arguments)) := by
  rw [evaluateForm, hbelow]
  refine (contained_evaluateCallee hcallee).bind fun _ _ =>
    (contained_evaluateOption hinstance).bind fun _ _ =>
      (contained_evaluateArguments harguments).last fun _ _ => ?_
  refine (contained_returnFrom hA hoperation (by simp [hbelow])
    (by simp [Operation.resultType, hform])).step fun value hvalue => ?_
  refine (contained_applyCall hA (fun argument hargument => ⟨?_, fun id hid => ?_⟩) _).step
    fun _ _ => contained_pure hvalue
  · refine C.part hoperation argument.value ?_
    rw [Operation.children, hform]
    exact List.mem_append_right _ (List.mem_map_of_mem hargument)
  · exact List.mem_append_right _ (List.mem_flatMap.2 ⟨argument, hargument, hid⟩)

theorem contained_dynamicInvocation {callee : Operation} {arguments : List Operation}
    (hform : operation.form = .dynamicInvocation callee arguments)
    (hbelow : operation.evaluatedBelow =
      callee.evaluated ++ arguments.flatMap Operation.evaluated)
    (hcallee : A.Evaluates C creations callee)
    (harguments : ∀ argument ∈ arguments, A.Evaluates C creations argument) :
    Contained C known creations operation.evaluatedBelow C.value
      (A.evaluateForm operation (.dynamicInvocation callee arguments)) := by
  rw [evaluateForm, hbelow]
  refine (hcallee known).discard.bind fun _ _ =>
    (contained_evaluateList harguments).last fun _ _ => ?_
  refine (contained_returnFrom hA hoperation (by simp [hbelow])
    (by simp [Operation.resultType, hform])).step fun value hvalue => ?_
  exact (contained_changeData hA.resetHeap).step fun _ _ => contained_pure hvalue

/-! ## References -/

theorem contained_fieldReference {instance? : Option Operation} {field : Symbol}
    (hbelow : operation.evaluatedBelow = instance?.toList.flatMap Operation.evaluated)
    (hinstance : ∀ part ∈ instance?.toList, A.Evaluates C creations part) :
    Contained C known creations operation.evaluatedBelow C.value
      (A.evaluateForm operation (.fieldReference instance? field)) := by
  rw [evaluateForm, hbelow]
  exact (contained_evaluateOption hinstance).last fun _ _ =>
    contained_readReference hA hoperation (by simp [hbelow])

theorem contained_arrayElementReference {array : Operation} {indices : List Operation}
    (hbelow : operation.evaluatedBelow = array.evaluated ++ indices.flatMap Operation.evaluated)
    (harray : A.Evaluates C creations array)
    (hindices : ∀ index ∈ indices, A.Evaluates C creations index) :
    Contained C known creations operation.evaluatedBelow C.value
      (A.evaluateForm operation (.arrayElementReference array indices)) := by
  rw [evaluateForm, hbelow]
  exact (harray known).discard.bind fun _ _ => (contained_evaluateList hindices).last fun _ _ =>
    contained_readReference hA hoperation (by simp [hbelow])

theorem contained_propertyReference {instance? : Option Operation} {property : Symbol}
    {arguments : List (Argument Operation)}
    (hform : operation.form = .propertyReference instance? property arguments)
    (hbelow : operation.evaluatedBelow = instance?.toList.flatMap Operation.evaluated ++
      arguments.flatMap fun argument => argument.value.evaluated)
    (hinstance : ∀ part ∈ instance?.toList, A.Evaluates C creations part)
    (harguments : ∀ argument ∈ arguments, A.Evaluates C creations argument.value) :
    Contained C known creations operation.evaluatedBelow C.value
      (A.evaluateForm operation (.propertyReference instance? property arguments)) := by
  rw [evaluateForm, hbelow]
  refine (contained_evaluateOption hinstance).bind fun _ _ =>
    (contained_evaluateArguments harguments).last fun _ _ => ?_
  split
  · exact contained_readReference hA hoperation (by simp [hbelow])
  · exact contained_returnFrom hA hoperation (by simp [hbelow])
      (by simp [Operation.resultType, hform])

theorem contained_flowCapture {capture : CaptureId} {captured : Operation}
    (hform : operation.form = .flowCapture capture captured)
    (hcaptured : A.Evaluates C creations captured) :
    Contained C known creations captured.evaluated C.value
      (A.evaluateForm operation (.flowCapture capture captured)) := by
  rw [evaluateForm]
  refine (hcaptured known).last fun value hvalue => ?_
  -- A flow capture denotes storage of its own.
  have hconsulted : operation.consulted = [] := by
    obtain ⟨id, form, type?, constant?⟩ := operation
    obtain rfl : form = .flowCapture capture captured := hform
    rfl
  have hwrite : ∀ e? : Option Entity, (∀ e, e? = some e → C.entity e) →
      Contained C (known ++ captured.evaluated) creations [] C.value
        (e?.elim (pure value) fun e => A.writeEntity e value >>= fun _ => pure value) := by
    intro e? he
    cases e? with
    | none => exact contained_pure hvalue
    | some e =>
      exact (contained_writeEntity hA (he e rfl) hvalue).step fun _ _ => contained_pure hvalue
  refine contained_ask (fun f => A.denoted? f operation) (fun f => ?_)
    (fun h => denoted?_agree hA hoperation h (by simp [hconsulted])) hwrite
  cases A.denoted? f operation <;> rfl

/-! ## Declarations -/

theorem contained_variableDeclarator {symbol : Symbol} {initializer? : Option Operation}
    (hform : operation.form = .variableDeclarator symbol initializer?)
    (hbelow : operation.evaluatedBelow = initializer?.toList.flatMap Operation.evaluated)
    (hinitializer : ∀ initializer ∈ initializer?.toList, A.Evaluates C creations initializer) :
    Contained C known creations operation.evaluatedBelow C.value
      (A.evaluateForm operation (.variableDeclarator symbol initializer?)) := by
  have hentity : C.entity (.ofLocal symbol) :=
    hA.declared hoperation (by rw [Operation.declared?, hform])
  rw [hbelow]
  cases initializer? with
  | none =>
    rw [evaluateForm]
    exact contained_fallback hA hoperation (by simp [hbelow])
  | some initializer =>
    rw [evaluateForm, Option.toList_some, List.flatMap_singleton]
    exact (hinitializer initializer (by simp) known).last fun value hvalue =>
      (contained_writeEntity hA hentity hvalue).step fun _ _ => contained_pure hvalue

theorem contained_declarationPattern {symbol? : Option Symbol} {pattern? : Option StaticType}
    (hform : operation.form = .declarationPattern symbol? pattern?)
    (hbelow : operation.evaluatedBelow = []) :
    Contained C known creations operation.evaluatedBelow C.value
      (A.evaluateForm operation (.declarationPattern symbol? pattern?)) := by
  have hvalue : ∀ known, Contained C known creations [] C.value (A.fallback operation) :=
    fun known => contained_fallback hA hoperation (by simp [hbelow])
  rw [hbelow]
  cases symbol? with
  | none =>
    rw [evaluateForm]
    exact hvalue known
  | some symbol =>
    have hentity : C.entity (.ofLocal symbol) :=
      hA.declared hoperation (by rw [Operation.declared?, hform])
    rw [evaluateForm]
    exact (contained_writeEntity hA hentity hA.unknown).step fun _ _ => hvalue known

theorem contained_returning {returned? : Option Operation}
    (hbelow : operation.evaluatedBelow = returned?.toList.flatMap Operation.evaluated)
    (hreturned : ∀ returned ∈ returned?.toList, A.Evaluates C creations returned) :
    Contained C known creations operation.evaluatedBelow C.value
      (A.evaluateForm operation (.returning returned?)) := by
  rw [hbelow]
  cases returned? with
  | none =>
    rw [evaluateForm]
    exact contained_fallback hA hoperation (by simp [hbelow])
  | some returned =>
    rw [evaluateForm, Option.toList_some, List.flatMap_singleton]
    refine (hreturned returned (by simp) known).last fun value hvalue => ?_
    have hwrite : ∀ type : StaticType, type = C.routine.returnType →
        Contained C (known ++ returned.evaluated) creations [] C.value
          (if (!type.isVoid) = true then
            A.writeEntity (.ofResult type) value >>= fun _ => pure value
          else pure value) := by
      rintro type rfl
      split
      · exact (contained_writeEntity hA hA.result hvalue).step fun _ _ => contained_pure hvalue
      · exact contained_pure hvalue
    refine contained_ask (fun f => f.routine.returnType) (fun _ => rfl) (fun h => ?_) hwrite
    rw [h.routine_left, h.routine_right]
    exact ⟨rfl, rfl⟩

/-! ## All forms -/

omit hA hoperation in
theorem evaluatesParts_of_children
    (h : ∀ part ∈ operation.children, A.Evaluates C creations part) :
    A.EvaluatesParts C creations operation := by
  intro known
  rw [Operation.evaluatedParts_eq, A.evaluateParts_eq]
  exact contained_evaluateList h

/-- An ordinary form is evaluated within the initializers that its parts are evaluated within. -/
theorem contained_evaluateForm_of_isOrdinary {form : Form Operation}
    (hform : operation.form = form) (hordinary : form.isOrdinary = true)
    (h : ∀ part ∈ form.children, A.Evaluates C creations part) :
    Contained C known creations operation.evaluatedBelow C.value
      (A.evaluateForm operation form) := by
  have hbelow : operation.evaluatedBelow = form.children.flatMap Operation.evaluated := by
    rw [Operation.evaluatedBelow_eq_of_isOrdinary (hform ▸ hordinary), Operation.children, hform]
  have hvalue : ∀ known ids, operation.evaluatedBelow = ids →
      Contained C (known ++ ids) creations [] C.value (A.fallback operation) := by
    rintro known ids rfl
    exact contained_fallback hA hoperation (List.subset_append_right _ _)
  cases form with
  | simpleAssignment | nameOf | instanceReference | objectCreation | dynamicObjectCreation
  | arrayCreation | typeParameterObjectCreation | anonymousObjectCreation | delegateCreation =>
    cases hordinary
  | localReference | parameterReference | flowCaptureReference =>
    rw [evaluateForm, hbelow]
    exact contained_readReference hA hoperation (by simp [hbelow, Form.children])
  | fieldReference => exact contained_fieldReference hA hoperation hbelow h
  | arrayElementReference array indices =>
    exact contained_arrayElementReference hA hoperation hbelow (h array List.mem_cons_self)
      fun index hindex => h index (List.mem_cons_of_mem array hindex)
  | propertyReference instance? property arguments =>
    rw [Form.children, List.flatMap_append, List.flatMap_map] at hbelow
    exact contained_propertyReference hA hoperation hform hbelow
      (fun part hpart => h part (List.mem_append_left _ hpart)) fun argument hargument =>
        h argument.value (List.mem_append_right _ (List.mem_map_of_mem hargument))
  | flowCapture capture captured =>
    rw [hbelow, Form.children, List.flatMap_singleton]
    exact contained_flowCapture hA hoperation hform (h captured (by simp [Form.children]))
  | variableDeclarator => exact contained_variableDeclarator hA hoperation hform hbelow h
  | returning => exact contained_returning hA hoperation hbelow h
  | declarationPattern => exact contained_declarationPattern hA hoperation hform hbelow
  | compoundAssignment operator target assigned =>
    exact contained_compoundAssignment hA hoperation hform (by simp [hbelow, Form.children])
      (h target (by simp [Form.children])) (h assigned (by simp [Form.children]))
  | conditional condition whenTrue whenFalse? =>
    exact contained_conditional hA hoperation (by simp [hbelow, Form.children])
      (h condition (by simp [Form.children])) (h whenTrue (by simp [Form.children]))
        fun whenFalse hmem => h whenFalse (by simp [Form.children, hmem])
  | coalesce first whenNull =>
    exact contained_coalesce hA (h first (by simp [Form.children]))
      (by simp [hbelow, Form.children]) (h whenNull (by simp [Form.children]))
  | binary operator left right =>
    exact contained_binary hA hoperation (by simp [hbelow, Form.children])
      (h left (by simp [Form.children])) (h right (by simp [Form.children]))
  | invocation callee instance? arguments =>
    refine contained_invocation hA hoperation hform
      (by simp [hbelow, Form.children, List.flatMap_map]) (fun part hpart => ?_)
      (fun part hpart => ?_) fun argument hargument => ?_
    · exact h part (by simp [Form.children, hpart])
    · exact h part (by simp [Form.children, hpart])
    · exact h argument.value (List.mem_append_right _ (List.mem_map_of_mem hargument))
  | dynamicInvocation callee arguments =>
    exact contained_dynamicInvocation hA hoperation hform hbelow (h callee List.mem_cons_self)
      fun argument hargument => h argument (List.mem_cons_of_mem callee hargument)
  | arrayInitializer | objectInitializer =>
    rw [evaluateForm, hbelow]
    refine (contained_evaluateList h).last fun _ _ => contained_initializedValue hA hoperation ?_
    rw [hbelow]
    exact List.subset_append_right _ _
  | conversion operand kind =>
    rw [evaluateForm, hbelow, Form.children, List.flatMap_singleton]
    refine (h operand (by simp [Form.children]) known).last fun value hvalue =>
      contained_conversionValue hA hoperation ?_ kind hvalue
    simp [hbelow, Form.children]
  | expressionStatement expression =>
    rw [evaluateForm, hbelow, Form.children, List.flatMap_singleton]
    exact h expression (by simp [Form.children]) known
  | await operand =>
    rw [evaluateForm, hbelow, Form.children, List.flatMap_singleton]
    exact (h operand (by simp [Form.children]) known).discard.last fun _ _ =>
      (contained_changeData hA.resetHeap).step fun _ _ =>
        hvalue known _ (by simp [hbelow, Form.children])
  | isType operand | constantPattern operand | unary operator operand =>
    rw [evaluateForm, hbelow, Form.children, List.flatMap_singleton]
    exact (h operand (by simp [Form.children]) known).discard.last fun _ _ =>
      hvalue known _ (by simp [hbelow, Form.children])
  | isPattern operand pattern =>
    rw [evaluateForm, hbelow, Form.children, List.flatMap_cons, List.flatMap_singleton]
    refine (h operand (by simp [Form.children]) known).discard.bind fun _ _ =>
      (h pattern (by simp [Form.children]) _).discard.last fun _ _ => ?_
    rw [List.append_assoc]
    exact hvalue known _ (by simp [hbelow, Form.children])
  | interpolatedString | tuple | other =>
    rw [evaluateForm, hbelow]
    exact (contained_evaluateList h).last fun _ _ => hvalue known _ hbelow
  | throwing =>
    rw [evaluateForm, hbelow]
    exact (contained_evaluateOption h).last fun _ _ => hvalue known _ hbelow
  | literal | defaultValue | sizeOf | typeOf | anonymousFunction =>
    rw [evaluateForm, hbelow]
    exact contained_fallback hA hoperation (by simp [hbelow, Form.children])

/-- The value of an operation is settled once its form has been evaluated. -/
theorem evaluates_of_evaluateForm (ids : List OperationId)
    (h : ∀ known, Contained C known creations ids C.value
      (A.evaluateForm operation operation.form))
    (hbelow : operation.evaluatedBelow ⊆ ids) (hids : ids ⊆ operation.evaluated) :
    A.Evaluates C creations operation := by
  intro known
  rw [evaluate_eq]
  refine ((h known).bind fun value hvalue => contained_settle hA hoperation ?_ hvalue).congr
    fun id => ⟨fun hid => ?_, fun hid => ?_⟩
  · exact List.subset_append_of_subset_right _ hbelow
  · rcases List.mem_append.1 hid with hid | hid
    · exact hids hid
    · exact List.mem_singleton.1 hid ▸ operation.id_mem_evaluated
  · rw [Operation.evaluated_eq] at hid
    exact List.mem_append.2 ((List.mem_append.1 hid).imp_left fun hid => hbelow hid)

/-- The evaluation of an operation is contained if that of all its parts is. -/
theorem evaluates_of_children (hreceivers : operation.receiversEnclosed creations = true)
    (ih : ∀ part ∈ operation.children, ∀ creations,
      (part.receiversEnclosed creations = true → A.Evaluates C creations part) ∧
        (part.partReceiversEnclosed creations = true → A.EvaluatesParts C creations part)) :
    A.Evaluates C creations operation := by
  by_cases hordinary : operation.form.isOrdinary = true
  · refine evaluates_of_evaluateForm hA hoperation operation.evaluatedBelow (fun known => ?_)
      (fun _ hid => hid) fun id hid => ?_
    · rw [Operation.receiversEnclosed_eq_of_isOrdinary hordinary, List.all_eq_true] at hreceivers
      exact contained_evaluateForm_of_isOrdinary hA hoperation rfl hordinary
        fun part hpart => (ih part hpart creations).1 (hreceivers part hpart)
    · rw [Operation.evaluated_eq]
      exact List.mem_append_left _ hid
  -- The initializer of a creation is within one more creation.
  have hinside : ∀ {initializer? : Option Operation},
      (initializer?.all fun initializer =>
        initializer.receiversEnclosed (operation.id :: creations)) = true →
      (∀ initializer ∈ initializer?.toList, initializer ∈ operation.children) →
        ∀ initializer ∈ initializer?.toList,
          A.Evaluates C (operation.id :: creations) initializer := by
    intro initializer? h hchildren initializer hmem
    rw [Option.all_eq_true] at h
    exact (ih initializer (hchildren initializer hmem) _).1
      (h initializer (Option.mem_toList.1 hmem))
  have hbelow := operation.evaluatedBelow_eq
  have hevaluated := operation.evaluated_eq
  rw [Operation.receiversEnclosed_eq] at hreceivers
  obtain ⟨id, form, type?, constant?⟩ := operation
  simp only [Operation.children] at hinside ih hbelow
  rw [hbelow] at hevaluated
  cases form with
  | simpleAssignment target assigned =>
    obtain ⟨htarget, hassigned⟩ := Bool.and_eq_true_iff.1 hreceivers
    exact evaluates_of_evaluateForm hA hoperation _ (fun known =>
      contained_simpleAssignment hA hoperation rfl
        ((ih target (by simp [Form.children]) creations).2 htarget)
        ((ih assigned (by simp [Form.children]) creations).1 hassigned))
      (by simp [hbelow]) (by simp [hevaluated])
  | nameOf operand =>
    refine evaluates_of_evaluateForm hA hoperation [] (fun known => ?_) (by simp [hbelow]) (by simp)
    rw [evaluateForm_nameOf]
    exact contained_fallback hA hoperation (by simp [hbelow])
  | instanceReference receiver? =>
    refine evaluates_of_evaluateForm hA hoperation [] (fun known => ?_)
      (by simp [hbelow, Form.children]) (by simp)
    cases receiver? with
    | none =>
      rw [evaluateForm]
      exact contained_readReference hA hoperation (by simp [hbelow, Form.children])
    | some receiver =>
      rw [evaluateForm]
      exact contained_knownValue hA hoperation (by simp [hbelow, Form.children])
        (List.contains_iff_mem.1 hreceivers)
  | objectCreation constructor? arguments initializer? =>
    obtain ⟨harguments, hinitializer⟩ := Bool.and_eq_true_iff.1 hreceivers
    rw [List.all_eq_true] at harguments
    refine evaluates_of_evaluateForm hA hoperation _ (fun known => contained_objectCreation hA
      hoperation rfl (fun argument hargument => ?_)
        (hinside hinitializer fun _ => List.mem_append_right _))
      (by simp [hbelow, Form.children, List.flatMap_map])
      (by simp [hevaluated, Form.children, List.flatMap_map])
    exact (ih argument.value (List.mem_append_left _ (List.mem_map_of_mem hargument)) creations).1
      (harguments argument hargument)
  | dynamicObjectCreation arguments initializer? =>
    obtain ⟨harguments, hinitializer⟩ := Bool.and_eq_true_iff.1 hreceivers
    rw [List.all_eq_true] at harguments
    refine evaluates_of_evaluateForm hA hoperation _ (fun known =>
      contained_dynamicObjectCreation hA hoperation rfl (fun argument hargument => ?_)
        (hinside hinitializer fun _ => List.mem_append_right _))
      (by simp [hbelow, Form.children]) (by simp [hevaluated, Form.children])
    exact (ih argument (List.mem_append_left _ hargument) creations).1
      (harguments argument hargument)
  | arrayCreation sizes initializer? =>
    obtain ⟨hsizes, hinitializer⟩ := Bool.and_eq_true_iff.1 hreceivers
    rw [List.all_eq_true] at hsizes
    refine evaluates_of_evaluateForm hA hoperation _ (fun known => contained_arrayCreation hA
      hoperation rfl (fun size hsize => ?_)
        (hinside hinitializer fun _ => List.mem_append_right _))
      (by simp [hbelow, Form.children]) (by simp [hevaluated, Form.children])
    exact (ih size (List.mem_append_left _ hsize) creations).1 (hsizes size hsize)
  | typeParameterObjectCreation initializer? =>
    exact evaluates_of_evaluateForm hA hoperation _ (fun known =>
      contained_typeParameterObjectCreation hA hoperation rfl
        (hinside hreceivers fun _ hmem => hmem))
      (by simp [hbelow, Form.children]) (by simp [hevaluated, Form.children])
  | anonymousObjectCreation initializers =>
    rw [List.all_eq_true] at hreceivers
    refine evaluates_of_evaluateForm hA hoperation _ (fun known =>
      contained_anonymousObjectCreation hA hoperation rfl fun initializer hmem => ?_)
      (by simp [hbelow, Form.children]) (by simp [hevaluated, Form.children])
    exact (ih initializer hmem _).1 (hreceivers initializer hmem)
  | delegateCreation target =>
    refine evaluates_of_evaluateForm hA hoperation _ (fun known =>
      contained_delegateCreation hA hoperation rfl ?_)
      (by simp [hbelow, Form.children]) (by simp [hevaluated, Form.children])
    rw [Operation.partReceiversEnclosed_eq, List.all_eq_true] at hreceivers
    exact (ih target (by simp [Form.children]) creations).1 (hreceivers target (by
      simp [Operation.children, Form.children]))
  | _ => exact absurd rfl hordinary

/-- **The evaluation of an operation is contained**, and so is the evaluation of its parts, if the
references to created objects are enclosed. -/
theorem evaluates : ∀ creations,
    (operation.receiversEnclosed creations = true → A.Evaluates C creations operation) ∧
      (operation.partReceiversEnclosed creations = true →
        A.EvaluatesParts C creations operation) := by
  -- The creations vary: the initializer of a creation is within one more than the creation.
  induction operation using Operation.induction_children with
  | h operation ih =>
    intro creations
    have hpart : ∀ part ∈ operation.children, C.operation part := C.part hoperation
    refine ⟨fun h => evaluates_of_children hA hoperation h fun part hmem =>
      ih part hmem (hpart part hmem), fun h => ?_⟩
    rw [Operation.partReceiversEnclosed_eq, List.all_eq_true] at h
    exact evaluatesParts_of_children fun part hmem =>
      (ih part hmem (hpart part hmem) creations).1 (h part hmem)

/-! ## Blocks -/

theorem contained_evaluateStatement (h : operation.receiversEnclosed [] = true) :
    Contained C known [] operation.evaluated (fun _ => True) (A.evaluateStatement operation) := by
  have hbefore : Contained C known [] [] (fun _ => True)
      (frame >>= fun f => changeData (V := V) fun _ => A.beforeStatement f) :=
    contained_of_change A.beforeStatement (fun _ => rfl) fun h =>
      hA.beforeStatement (h.mono (List.nil_subset _))
  exact hbefore.step fun _ _ => ((evaluates hA hoperation []).1 h known).discard

end Operations
end Analysis

namespace Block

variable (block : Block)

/-- The operations that are given values when the block is interpreted. -/
def evaluated : List OperationId := block.statements.flatMap Operation.evaluated

/-- True if all references to created objects that the interpretation of the block comes upon are
enclosed by the initializer of the creation. -/
def receiversEnclosed : Bool := block.statements.all fun operation => operation.receiversEnclosed []

end Block

namespace Analysis

variable {V D : Type} [AbstractValue V] [EntityState D V] {A : Analysis V D} {C : Comparison V D}

theorem contained_forM_evaluateStatement (hA : A.Respects C) {known : List OperationId}
    {operations : List Operation} (hoperations : ∀ operation ∈ operations, C.operation operation)
    (h : ∀ operation ∈ operations, operation.receiversEnclosed [] = true) :
    Contained C known [] (operations.flatMap Operation.evaluated) (fun _ => True)
      (operations.forM A.evaluateStatement) := by
  induction operations generalizing known with
  | nil => exact contained_pure trivial
  | cons operation operations ih =>
    rw [List.forM_eq_forM, List.forM_cons, List.flatMap_cons]
    refine (contained_evaluateStatement hA (hoperations operation List.mem_cons_self)
      (h operation List.mem_cons_self)).bind fun _ _ => ?_
    exact ih (fun other hother => hoperations other (List.mem_cons_of_mem operation hother))
      fun other hother => h other (List.mem_cons_of_mem operation hother)

/-- **The interpretation of a block is contained.**  It starts without enclosing creations, and none
of the values from before matters. -/
theorem contained_evaluateBlock (hA : A.Respects C) {block : Block}
    (hoperations : ∀ operation ∈ block.statements, C.operation operation)
    (h : block.receiversEnclosed = true) :
    Contained C [] [] block.evaluated (fun _ => True) (A.evaluateBlock block) := by
  unfold Block.receiversEnclosed at h
  rw [List.all_eq_true] at h
  exact (contained_forM_evaluateStatement hA hoperations h).last fun _ _ =>
    contained_pure trivial

end Analysis
end HeapFlow
