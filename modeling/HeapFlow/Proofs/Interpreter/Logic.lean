import HeapFlow.Proofs.Interpreter.Comparison
import HeapFlow.Proofs.Interpreter.Steps

/-! # Logics of the interpreter

A logic says which actions of the interpreter it accepts, and for what results (`Logic`).  All that
is asked of it is that it accepts what only returns a result, and that what it accepts composes.
Preserving a property of machines is a logic, and so is commuting with a change of machines.  A
logic may also follow the steps in which operations are given values, and accept an action as a list
of these (`TracedLogic`).

The evaluation of an operation consists of the evaluation of its parts and of single steps.  If a
logic accepts the single steps of all operations that are performed (`TracedLogic.Rules`), then it
accepts the evaluation of the operation as the steps of the operation, by induction over its parts
(`TracedLogic.accepts_evaluate`).  This is the only case analysis over the forms of operations: what
a logic has to provide are its rules.  A logic that takes no account of the steps is a special case
(`Logic.traced`).
-/
namespace HeapFlow

namespace Form

variable {α : Type}

/-- True for the forms that allocate the object that they refer to before they are done. -/
def isCreation : Form α → Bool
  | .objectCreation _ _ _ | .dynamicObjectCreation _ _ | .arrayCreation _ _
  | .typeParameterObjectCreation _ | .anonymousObjectCreation _ | .delegateCreation _ => true
  | _ => false

/-- True for the forms that call a routine and return what it returns: a property with arguments is
an indexer. -/
def isCall : Form α → Bool
  | .invocation _ _ _ | .dynamicInvocation _ _ | .propertyReference _ _ (_ :: _) => true
  | _ => false

/-- True for the forms that refer to storage. -/
def isReference : Form α → Bool
  | .localReference _ | .parameterReference _ | .flowCaptureReference _ | .fieldReference _ _
  | .arrayElementReference _ _ | .propertyReference _ _ _ | .instanceReference _ => true
  | _ => false

/-- True for the forms that write to storage. -/
def isStoring : Form α → Bool
  | .flowCapture _ _ | .variableDeclarator _ _ | .simpleAssignment _ _
  | .compoundAssignment _ _ _ | .declarationPattern _ _ | .returning _ => true
  | _ => false

/-- True for the forms that let other code run before they are done. -/
def isCalling : Form α → Bool
  | .invocation _ _ _ | .dynamicInvocation _ _ | .await _ => true
  | _ => false

/-- True for the forms that may leave out one of their parts. -/
def isBranching : Form α → Bool
  | .conditional _ _ _ | .coalesce _ _ | .binary _ _ _ => true
  | _ => false

/-- The values of the arguments that a callee can assign to. -/
def writableValues (arguments : List (Argument α)) : List α :=
  (arguments.filter (·.isWritable)).map (·.value)

/-- The parts whose storage is assigned to: the target of an assignment, and what a callee can write
to. -/
def assignees : Form α → List α
  | .simpleAssignment target _ | .compoundAssignment _ target _ => [target]
  | .objectCreation (some _) arguments _ | .invocation _ _ arguments => writableValues arguments
  | _ => []

/-- The parts that are evaluated as a whole.  The target of an assignment is not, and the operand of
a name expression is not evaluated at all. -/
def operands : Form α → List α
  | .simpleAssignment _ assigned => [assigned]
  | .nameOf _ => []
  | form => form.children

theorem mem_children_of_operands {form : Form α} :
    ∀ part ∈ form.operands, part ∈ form.children := by
  intro part hpart
  cases form with
  | simpleAssignment => exact List.mem_cons_of_mem _ hpart
  | nameOf => cases hpart
  | _ => exact hpart

theorem writableValues_subset (arguments : List (Argument α)) :
    ∀ part ∈ writableValues arguments, part ∈ arguments.map (·.value) := by
  intro part hpart
  obtain ⟨argument, hmem, rfl⟩ := List.mem_map.1 hpart
  exact List.mem_map_of_mem (List.mem_filter.1 hmem).1

theorem mem_children_of_assignees {form : Form α} :
    ∀ part ∈ form.assignees, part ∈ form.children := by
  intro part hpart
  cases form with
  | simpleAssignment | compoundAssignment =>
    obtain rfl := List.mem_singleton.1 hpart
    exact List.mem_cons_self
  | objectCreation constructor? arguments initializer? =>
    cases constructor? with
    | none => cases hpart
    | some constructor =>
      exact List.mem_append_left _ (writableValues_subset arguments part hpart)
  | invocation callee instance? arguments =>
    exact List.mem_append_right _ (writableValues_subset arguments part hpart)
  | _ => cases hpart

end Form

theorem Operation.mem_performedChildren_of_operands {operation part : Operation}
    (hpart : part ∈ operation.form.operands) : part ∈ operation.performedChildren := by
  unfold performedChildren
  split
  · next hform =>
    rw [hform] at hpart
    exact List.mem_append_right _ hpart
  · next hform =>
    rw [hform] at hpart
    cases hpart
  · exact Form.mem_children_of_operands part hpart

variable {V D : Type}

/-! ## Steps of particular forms -/

namespace Analysis

variable [AbstractValue V] [EntityState D V] (A : Analysis V D)

/-- Assigns a value to the slot that an operation denotes. -/
def writeCapture (operation : Operation) (value : V) : Interp V D Unit := do
  match A.denoted? (← frame) operation with
  | some e => A.writeEntity e value
  | none => pure ()

/-- Converts a value. -/
def convert (operation : Operation) (kind : ConversionKind) (value : V) : Interp V D V :=
  return A.conversionValue (← frame) operation kind value

/-- Assigns a value to the slot of the returned value, if the routine returns one. -/
def writeResult (value : V) : Interp V D Unit := do
  let returnType := (← frame).routine.returnType
  if !returnType.isVoid then A.writeEntity (.ofResult returnType) value

theorem evaluateForm_flowCapture (operation captured : Operation) (capture : CaptureId) :
    A.evaluateForm operation (.flowCapture capture captured) =
      (A.evaluate captured >>= fun value => A.writeCapture operation value >>= fun _ =>
        pure value) := by
  rw [evaluateForm]
  refine bind_congr fun value => ?_
  rw [writeCapture, bind_assoc]
  refine bind_congr fun f => ?_
  cases A.denoted? f operation <;> rfl

theorem evaluateForm_conversion (operation operand : Operation) (kind : ConversionKind) :
    A.evaluateForm operation (.conversion operand kind) =
      (A.evaluate operand >>= fun value => A.convert operation kind value) := by
  rw [evaluateForm]
  rfl

theorem evaluateForm_returning (operation returned : Operation) :
    A.evaluateForm operation (.returning (some returned)) =
      (A.evaluate returned >>= fun value => A.writeResult value >>= fun _ => pure value) := by
  rw [evaluateForm]
  refine bind_congr fun value => ?_
  rw [writeResult, bind_assoc]
  refine bind_congr fun f => ?_
  dsimp only
  split <;> rfl

end Analysis

/-! ## What single steps come to -/

namespace Analysis

section Outcomes

variable [AbstractValue V] [EntityState D V] (A : Analysis V D) (operation : Operation)

/-- The state after a value is assigned to the slot that an operation denotes. -/
def dataAfterCapture (value : V) (f : Frame V D) : D :=
  (A.denoted? f operation).elim f.data fun e => A.write e value f.data

/-- The state after a value is returned. -/
def dataAfterReturn (value : V) (f : Frame V D) : D :=
  if f.routine.returnType.isVoid then f.data
  else A.write (.ofResult f.routine.returnType) value f.data

theorem outcome_writeCapture (m : Machine V D) (value : V) :
    outcome (A.writeCapture operation value) m =
      ((), { m with data := A.dataAfterCapture operation value m.toFrame }) := by
  unfold writeCapture dataAfterCapture
  rw [outcome_frame_bind]
  cases A.denoted? m.toFrame operation <;> rfl

theorem outcome_writeResult (m : Machine V D) (value : V) :
    outcome (A.writeResult value) m =
      ((), { m with data := A.dataAfterReturn value m.toFrame }) := by
  unfold writeResult dataAfterReturn
  rw [outcome_frame_bind]
  dsimp only
  cases m.routine.returnType.isVoid <;> rfl

end Outcomes

end Analysis

/-! ## Logics that follow the steps of an evaluation -/

/-- Which actions are accepted, for what results, and as what steps. -/
structure TracedLogic (V D : Type) where
  /-- The action is accepted as the steps, and its results have the property. -/
  Accepts {α : Type} (steps : List Step) (Q : α → Prop) (action : Interp V D α) : Prop
  /-- The values that come up. -/
  value : V → Prop
  /-- The states that come up. -/
  state : D → Prop
  /-- The values that operations are given. -/
  given : OperationId → V → Prop
  value_of_given : ∀ {id v}, given id v → value v
  pure : ∀ {α : Type} {Q : α → Prop} {a : α}, Q a → Accepts [] Q (Pure.pure a)
  bind : ∀ {α β : Type} {s t : List Step} {Q : α → Prop} {R : β → Prop} {action : Interp V D α}
    {next : α → Interp V D β}, Accepts s Q action → (∀ a, Q a → Accepts t R (next a)) →
      Accepts (s ++ t) R (action >>= next)

namespace TracedLogic

variable [AbstractValue V] [EntityState D V] {L : TracedLogic V D} {A : Analysis V D}

/-- An action without a result is accepted. -/
abbrev Runs (L : TracedLogic V D) (steps : List Step) (action : Interp V D Unit) : Prop :=
  L.Accepts steps (fun _ => True) action

/-- The single steps of the evaluation of an operation are accepted, and so is what stands in an
initializer if it is accepted outside of it. -/
structure Rules (L : TracedLogic V D) (A : Analysis V D) (operation : Operation) : Prop where
  unknown : L.value AbstractValue.unknown
  merge : ∀ {v w}, L.value v → L.value w → L.value (AbstractValue.merge v w)
  data : L.Accepts [] L.state Analysis.data
  restore : ∀ {a}, L.state a → L.Runs [] (Analysis.changeData fun _ => a)
  join : ∀ {a}, L.state a → L.Runs [] (A.joinData a)
  resetHeap : L.Runs [] (Analysis.changeData A.resetHeap)
  inside : ∀ {steps action}, L.Runs steps action →
    L.Runs steps (Analysis.enterInitializer operation.id >>= fun _ => action >>= fun _ =>
      Analysis.leaveInitializer)
  fallback : L.Accepts [] L.value (A.fallback operation)
  read : L.Accepts [] L.value (A.readReference operation)
  known : ∀ id, L.Accepts [] L.value (A.knownValue id operation)
  initialized : L.Accepts [] L.value (A.initializedValue operation)
  allocate : operation.form.isCreation = true →
    L.Accepts [.allocates operation] L.value (A.allocate operation)
  returnFrom : operation.form.isCall = true →
    L.Accepts [] L.value (A.returnFrom operation operation.resultType)
  writeCapture : ∀ {capture captured value}, operation.form = .flowCapture capture captured →
    L.value value → L.Runs [] (A.writeCapture operation value)
  declare : ∀ {symbol value}, operation.declared? = some symbol → L.value value →
    L.Runs [] (A.writeEntity (.ofLocal symbol) value)
  convert : ∀ {operand kind value}, operation.form = .conversion operand kind → L.value value →
    L.Accepts [] L.value (A.convert operation kind value)
  writeResult : ∀ {returned value}, operation.form = .returning (some returned) → L.value value →
    L.Runs [] (A.writeResult value)
  assignTo : ∀ {target value}, target ∈ operation.form.assignees → L.value value →
    L.Runs [] (A.assignTo target value)
  /-- The target of an assignment is given the assigned value. -/
  give : ∀ {target assigned value}, operation.form = .simpleAssignment target assigned →
    L.value value → L.Runs [.gives target] (Analysis.cache target.id value)
  call : ∀ {arguments}, (∀ part ∈ Form.writableValues arguments, part ∈ operation.form.assignees) →
    ∀ mayUpdateLocals, L.Runs [] (A.applyCall arguments mayUpdateLocals)
  settle : ∀ {value}, L.value value →
    L.Accepts [.settles operation] (L.given operation.id) (A.settle operation value)

/-- The evaluation of the operation is accepted. -/
def AcceptsAt (L : TracedLogic V D) (A : Analysis V D) (operation : Operation) : Prop :=
  L.Accepts operation.steps (L.given operation.id) (A.evaluate operation)

/-! ## Sequences -/

section Sequences

omit [AbstractValue V] [EntityState D V] in
theorem Accepts.discard {α : Type} {steps : List Step} {Q : α → Prop} {action : Interp V D α}
    (h : L.Accepts steps Q action) : L.Runs steps (discard action) := by
  have hrun : L.Runs (steps ++ []) (action >>= fun _ => Pure.pure ()) :=
    L.bind h fun _ _ => L.pure trivial
  rw [bind_pure_comp, List.append_nil] at hrun
  exact hrun

omit [AbstractValue V] [EntityState D V] in
theorem Accepts.mono {α : Type} {steps : List Step} {Q R : α → Prop} {action : Interp V D α}
    (h : L.Accepts steps Q action) (hQ : ∀ a, Q a → R a) : L.Accepts steps R action := by
  have hbind : L.Accepts (steps ++ []) R (action >>= Pure.pure) :=
    L.bind h fun a ha => L.pure (hQ a ha)
  rwa [bind_pure, List.append_nil] at hbind

omit [AbstractValue V] [EntityState D V] in
theorem Accepts.of_eq {α : Type} {steps steps' : List Step} {Q : α → Prop} {action : Interp V D α}
    (h : L.Accepts steps Q action) (hsteps : steps = steps') : L.Accepts steps' Q action :=
  hsteps ▸ h

theorem AcceptsAt.value {operation : Operation} (h : L.AcceptsAt A operation) :
    L.Accepts operation.steps L.value (A.evaluate operation) := h.mono fun _ => L.value_of_given

theorem runs_evaluateList {parts : List Operation} (h : ∀ part ∈ parts, L.AcceptsAt A part) :
    L.Runs (parts.flatMap Operation.steps) (A.evaluateList parts) := by
  induction parts with
  | nil => exact L.pure trivial
  | cons part parts ih =>
    rw [Analysis.evaluateList, List.flatMap_cons]
    exact L.bind (h part List.mem_cons_self).discard fun _ _ =>
      ih fun other hother => h other (List.mem_cons_of_mem part hother)

theorem runs_evaluateOption {part? : Option Operation}
    (h : ∀ part ∈ part?.toList, L.AcceptsAt A part) :
    L.Runs (part?.toList.flatMap Operation.steps) (A.evaluateOption part?) := by
  rw [A.evaluateOption_eq]
  exact runs_evaluateList h

theorem runs_evaluateArguments {arguments : List (Argument Operation)}
    (h : ∀ part ∈ arguments.map (·.value), L.AcceptsAt A part) :
    L.Runs ((arguments.map (·.value)).flatMap Operation.steps) (A.evaluateArguments arguments) := by
  rw [A.evaluateArguments_eq]
  exact runs_evaluateList h

theorem runs_evaluateCallee {callee : Callee Operation}
    (h : ∀ part ∈ callee.target?.toList, L.AcceptsAt A part) :
    L.Runs (callee.target?.toList.flatMap Operation.steps) (A.evaluateCallee callee) := by
  rw [A.evaluateCallee_eq]
  exact runs_evaluateList h

theorem Rules.runs_evaluateInitializer {operation : Operation} (hrules : L.Rules A operation)
    {initializer? : Option Operation} (h : ∀ part ∈ initializer?.toList, L.AcceptsAt A part) :
    L.Runs (initializer?.toList.flatMap Operation.steps)
      (A.evaluateInitializer operation.id initializer?) := by
  cases initializer? with
  | none => exact L.pure trivial
  | some initializer =>
    have hinitializer := hrules.inside (h initializer (by simp)).discard
    simpa [Analysis.evaluateInitializer] using hinitializer

end Sequences

/-! ## Operations -/

section Operations

variable {operation : Operation}

theorem runs_evaluateParts (h : ∀ part ∈ operation.children, L.AcceptsAt A part) :
    L.Runs operation.partSteps (A.evaluateParts operation) := by
  rw [Operation.partSteps_eq, A.evaluateParts_eq]
  exact runs_evaluateList h

/-! ### Groups of forms

The evaluation of an operation is accepted, up to the step that settles its value, if the evaluation
of its parts is.  What follows the parts differs from group to group. -/

section Forms

variable (hrules : L.Rules A operation) {form : Form Operation} (hform : operation.form = form)
  (h : ∀ part ∈ form.operands, L.AcceptsAt A part)
include hrules hform h

/-- References read what they denote, and a property with arguments is called. -/
theorem Rules.accepts_reference (hreference : form.isReference = true) :
    L.Accepts (operation.stepsBelow form) L.value (A.evaluateForm operation form) := by
  have hreturn : form.isCall = true →
      L.Accepts [] L.value (A.returnFrom operation operation.resultType) :=
    fun h => hrules.returnFrom (hform ▸ h)
  cases form with
  | localReference | parameterReference | flowCaptureReference =>
    rw [Analysis.evaluateForm]
    exact hrules.read
  | fieldReference instance? field =>
    rw [Analysis.evaluateForm]
    exact (L.bind (runs_evaluateOption h) fun _ _ => hrules.read).of_eq (List.append_nil _)
  | arrayElementReference array indices =>
    rw [Analysis.evaluateForm]
    refine (L.bind (h array List.mem_cons_self).discard fun _ _ => L.bind (runs_evaluateList
      fun part hpart => h part (List.mem_cons_of_mem _ hpart)) fun _ _ => hrules.read).of_eq ?_
    simp [Operation.stepsBelow, Form.children]
  | propertyReference instance? property arguments =>
    rw [Analysis.evaluateForm]
    refine (L.bind (t := (arguments.map (·.value)).flatMap Operation.steps ++ [])
      (runs_evaluateOption fun part hpart => h part (List.mem_append_left _ hpart))
      fun _ _ => L.bind (runs_evaluateArguments fun part hpart =>
        h part (List.mem_append_right _ hpart)) fun _ _ => ?_).of_eq ?_
    · have htype : operation.resultType = operation.type?.getD property.type := by
        rw [Operation.resultType, hform]
      rw [← htype]
      cases arguments with
      | nil => exact hrules.read
      | cons argument arguments => exact hreturn rfl
    · simp [Operation.stepsBelow, Form.children]
  | instanceReference receiver? =>
    cases receiver? with
    | none =>
      rw [Analysis.evaluateForm]
      exact hrules.read
    | some receiver =>
      rw [Analysis.evaluateForm]
      exact hrules.known receiver
  | _ => cases hreference

/-- Assignments and declarations write the value of a part to storage. -/
theorem Rules.accepts_storing (hstoring : form.isStoring = true)
    (htarget : ∀ target assigned, form = .simpleAssignment target assigned →
      L.Runs target.partSteps (A.evaluateParts target)) :
    L.Accepts (operation.stepsBelow form) L.value (A.evaluateForm operation form) := by
  have hassign : ∀ {target value}, target ∈ form.assignees → L.value value →
      L.Runs [] (A.assignTo target value) := fun h => hrules.assignTo (hform ▸ h)
  cases form with
  | flowCapture capture captured =>
    rw [Analysis.evaluateForm_flowCapture]
    refine (L.bind (h captured List.mem_cons_self).value fun value hvalue =>
      L.bind (hrules.writeCapture hform hvalue) fun _ _ => L.pure hvalue).of_eq ?_
    simp [Operation.stepsBelow, Form.children]
  | variableDeclarator symbol initializer? =>
    cases initializer? with
    | none =>
      rw [Analysis.evaluateForm]
      exact hrules.fallback
    | some initializer =>
      have hdeclared : operation.declared? = some symbol := by rw [Operation.declared?, hform]
      rw [Analysis.evaluateForm]
      refine (L.bind (h initializer List.mem_cons_self).value fun value hvalue =>
        L.bind (hrules.declare hdeclared hvalue) fun _ _ => L.pure hvalue).of_eq ?_
      simp [Operation.stepsBelow, Form.children]
  | simpleAssignment target assigned =>
    rw [Analysis.evaluateForm]
    refine (L.bind (htarget target assigned rfl) fun _ _ =>
      L.bind (h assigned List.mem_cons_self).value fun value hvalue =>
        L.bind (hassign List.mem_cons_self hvalue) fun _ _ =>
          L.bind (hrules.give hform hvalue) fun _ _ => L.pure hvalue).of_eq ?_
    simp [Operation.stepsBelow]
  | compoundAssignment operator target assigned =>
    rw [Analysis.evaluateForm]
    refine (L.bind (h target List.mem_cons_self).discard fun _ _ =>
      L.bind (h assigned (by simp [Form.operands, Form.children])).discard fun _ _ =>
        L.bind hrules.fallback fun value hvalue =>
          L.bind (hassign List.mem_cons_self hvalue) fun _ _ => L.pure hvalue).of_eq ?_
    simp [Operation.stepsBelow, Form.children]
  | declarationPattern symbol? pattern? =>
    cases symbol? with
    | none =>
      rw [Analysis.evaluateForm]
      exact hrules.fallback
    | some symbol =>
      have hdeclared : operation.declared? = some symbol := by rw [Operation.declared?, hform]
      rw [Analysis.evaluateForm]
      exact L.bind (hrules.declare hdeclared hrules.unknown) fun _ _ => hrules.fallback
  | returning returned? =>
    cases returned? with
    | none =>
      rw [Analysis.evaluateForm]
      exact hrules.fallback
    | some returned =>
      rw [Analysis.evaluateForm_returning]
      refine (L.bind (h returned List.mem_cons_self).value fun value hvalue =>
        L.bind (hrules.writeResult hform hvalue) fun _ _ => L.pure hvalue).of_eq ?_
      simp [Operation.stepsBelow, Form.children]
  | _ => cases hstoring

/-- Creations allocate their object before what depends on it is evaluated. -/
theorem Rules.accepts_creation (hcreation : form.isCreation = true) :
    L.Accepts (operation.stepsBelow form) L.value (A.evaluateForm operation form) := by
  have hallocate : form.isCreation = true →
      L.Accepts [.allocates operation] L.value (A.allocate operation) :=
    fun h => hrules.allocate (hform ▸ h)
  have hcall : ∀ {arguments}, (∀ part ∈ Form.writableValues arguments, part ∈ form.assignees) →
      ∀ mayUpdateLocals, L.Runs [] (A.applyCall arguments mayUpdateLocals) :=
    fun h => hrules.call (hform ▸ h)
  cases form with
  | objectCreation constructor? arguments initializer? =>
    have hinitializer : L.Runs (initializer?.toList.flatMap Operation.steps)
        (A.evaluateInitializer operation.id initializer?) :=
      hrules.runs_evaluateInitializer fun part hpart => h part (List.mem_append_right _ hpart)
    rw [Analysis.evaluateForm]
    refine (L.bind (t := (arguments.map (·.value)).flatMap Operation.steps ++
        (initializer?.toList.flatMap Operation.steps ++ [])) (hallocate rfl)
      fun value hvalue => L.bind (runs_evaluateArguments fun part hpart =>
        h part (List.mem_append_left _ hpart)) fun _ _ => ?_).of_eq ?_
    · cases constructor? with
      | none => exact L.bind hinitializer fun _ _ => L.pure hvalue
      | some constructor =>
        exact (L.bind (hcall (fun _ hpart => hpart) false) fun _ _ =>
          L.bind hinitializer fun _ _ => L.pure hvalue).of_eq (List.nil_append _)
    · simp [Operation.stepsBelow, Form.children]
  | dynamicObjectCreation arguments initializer? =>
    rw [Analysis.evaluateForm]
    refine (L.bind (hallocate rfl) fun value hvalue => L.bind (runs_evaluateList fun part hpart =>
      h part (List.mem_append_left _ hpart)) fun _ _ => L.bind hrules.resetHeap fun _ _ =>
        L.bind (hrules.runs_evaluateInitializer fun part hpart =>
          h part (List.mem_append_right _ hpart)) fun _ _ => L.pure hvalue).of_eq ?_
    simp [Operation.stepsBelow, Form.children]
  | arrayCreation dimensionSizes initializer? =>
    rw [Analysis.evaluateForm]
    refine (L.bind (runs_evaluateList fun part hpart => h part (List.mem_append_left _ hpart))
      fun _ _ => L.bind (hallocate rfl) fun value hvalue =>
        L.bind (hrules.runs_evaluateInitializer fun part hpart =>
          h part (List.mem_append_right _ hpart)) fun _ _ => L.pure hvalue).of_eq ?_
    simp [Operation.stepsBelow]
  | typeParameterObjectCreation initializer? =>
    rw [Analysis.evaluateForm]
    refine (L.bind (hallocate rfl) fun value hvalue =>
      L.bind (hrules.runs_evaluateInitializer h) fun _ _ => L.pure hvalue).of_eq ?_
    simp [Operation.stepsBelow, Form.children]
  | anonymousObjectCreation initializers =>
    have hinside : L.Runs (initializers.flatMap Operation.steps)
        (Analysis.enterInitializer operation.id >>= fun _ =>
          A.evaluateList initializers >>= fun _ => Analysis.leaveInitializer) :=
      hrules.inside (runs_evaluateList h)
    rw [Analysis.evaluateForm]
    refine (L.bind (t := initializers.flatMap Operation.steps) (hallocate rfl)
      fun value hvalue => ?_).of_eq List.singleton_append
    have hbound := L.bind hinside fun _ _ => L.pure hvalue
    simpa only [bind_assoc, List.append_nil] using hbound
  | delegateCreation target =>
    rw [Analysis.evaluateForm]
    refine (L.bind (hallocate rfl) fun value hvalue =>
      L.bind (h target List.mem_cons_self).discard fun _ _ => L.pure hvalue).of_eq ?_
    simp [Operation.stepsBelow, Form.children]
  | _ => cases hcreation

/-- Calls evaluate all parts, and forget what the callee may have changed. -/
theorem Rules.accepts_calling (hcalling : form.isCalling = true) :
    L.Accepts (operation.stepsBelow form) L.value (A.evaluateForm operation form) := by
  have hreturn : form.isCall = true →
      L.Accepts [] L.value (A.returnFrom operation operation.resultType) :=
    fun h => hrules.returnFrom (hform ▸ h)
  have hcall : ∀ {arguments}, (∀ part ∈ Form.writableValues arguments, part ∈ form.assignees) →
      ∀ mayUpdateLocals, L.Runs [] (A.applyCall arguments mayUpdateLocals) :=
    fun h => hrules.call (hform ▸ h)
  cases form with
  | invocation callee instance? arguments =>
    have htype : operation.resultType = operation.type?.getD callee.returnType := by
      rw [Operation.resultType, hform]
    rw [Analysis.evaluateForm, ← htype]
    refine (L.bind (runs_evaluateCallee fun part hpart => h part ?_) fun _ _ =>
      L.bind (runs_evaluateOption fun part hpart => h part ?_) fun _ _ =>
        L.bind (runs_evaluateArguments fun part hpart => h part ?_) fun _ _ =>
          L.bind (hreturn rfl) fun value hvalue =>
            L.bind (hcall (fun _ hpart => hpart) _) fun _ _ => L.pure hvalue).of_eq ?_
    · exact List.mem_append_left _ (List.mem_append_left _ hpart)
    · exact List.mem_append_left _ (List.mem_append_right _ hpart)
    · exact List.mem_append_right _ hpart
    · simp [Operation.stepsBelow, Form.children]
  | dynamicInvocation callee arguments =>
    have htype : operation.resultType = operation.type?.getD (.typeParameter "dynamic") := by
      rw [Operation.resultType, hform]
    rw [Analysis.evaluateForm, ← htype]
    refine (L.bind (h callee List.mem_cons_self).discard fun _ _ => L.bind (runs_evaluateList
      fun part hpart => h part (List.mem_cons_of_mem _ hpart)) fun _ _ =>
        L.bind (hreturn rfl) fun value hvalue =>
          L.bind hrules.resetHeap fun _ _ => L.pure hvalue).of_eq ?_
    simp [Operation.stepsBelow, Form.children]
  | await awaited =>
    rw [Analysis.evaluateForm]
    refine (L.bind (h awaited List.mem_cons_self).discard fun _ _ =>
      L.bind hrules.resetHeap fun _ _ => hrules.fallback).of_eq ?_
    simp [Operation.stepsBelow, Form.children]
  | _ => cases hcalling

/-- Where control may leave out a part, the states at the ends of both paths are joined. -/
theorem Rules.accepts_branching (hbranching : form.isBranching = true) :
    L.Accepts (operation.stepsBelow form) L.value (A.evaluateForm operation form) := by
  cases form with
  | conditional condition whenTrue whenFalse? =>
    have hjoin : ∀ {after w}, L.state after → L.value w → L.Accepts [] L.value
        (A.joinData after >>= fun _ => Pure.pure w) := fun hafter hw =>
      L.bind (hrules.join hafter) fun _ _ => L.pure hw
    rw [Analysis.evaluateForm]
    refine (L.bind (h condition List.mem_cons_self).discard fun _ _ => L.bind hrules.data
      fun before hbefore => L.bind (h whenTrue (by simp [Form.operands, Form.children])).value
        fun v hv => L.bind hrules.data fun afterTrue hafterTrue =>
          L.bind (t := whenFalse?.toList.flatMap Operation.steps) (hrules.restore hbefore)
            fun _ _ => ?_).of_eq ?_
    · cases whenFalse? with
      | none => exact L.bind hrules.fallback fun w => hjoin hafterTrue
      | some whenFalse =>
        have hwhenFalse := (h whenFalse (by simp [Form.operands, Form.children])).value
        refine (L.bind hwhenFalse fun w hw => L.bind (L.pure (hrules.merge hv hw))
          fun w => hjoin hafterTrue).of_eq ?_
        simp
    · simp [Operation.stepsBelow, Form.children]
  | coalesce first whenNull =>
    rw [Analysis.evaluateForm]
    refine (L.bind (h first List.mem_cons_self).value fun v hv => L.bind hrules.data
      fun afterFirst hafterFirst =>
        L.bind (h whenNull (by simp [Form.operands, Form.children])).value fun w hw =>
          L.bind (hrules.join hafterFirst) fun _ _ => L.pure (hrules.merge hv hw)).of_eq ?_
    simp [Operation.stepsBelow, Form.children]
  | binary operator left right =>
    rw [Analysis.evaluateForm]
    refine (L.bind (h left List.mem_cons_self).discard fun _ _ => L.bind hrules.data
      fun afterLeft hafterLeft => L.bind (t := [])
        (h right (by simp [Form.operands, Form.children])).discard fun _ _ => ?_).of_eq ?_
    · split
      · exact L.bind (hrules.join hafterLeft) fun _ _ => hrules.fallback
      · exact hrules.fallback
    · simp [Operation.stepsBelow, Form.children]
  | _ => cases hbranching

/-- The evaluation of an operation is accepted, up to the step that settles its value, if the
evaluation of its parts is. -/
theorem Rules.accepts_evaluateForm
    (htarget : ∀ target assigned, form = .simpleAssignment target assigned →
      L.Runs target.partSteps (A.evaluateParts target)) :
    L.Accepts (operation.stepsBelow form) L.value (A.evaluateForm operation form) := by
  cases form with
  | localReference | parameterReference | flowCaptureReference | fieldReference
  | arrayElementReference | propertyReference | instanceReference =>
    exact hrules.accepts_reference hform h rfl
  | flowCapture | variableDeclarator | simpleAssignment | compoundAssignment | declarationPattern
  | returning => exact hrules.accepts_storing hform h rfl htarget
  | objectCreation | dynamicObjectCreation | arrayCreation | typeParameterObjectCreation
  | anonymousObjectCreation | delegateCreation => exact hrules.accepts_creation hform h rfl
  | invocation | dynamicInvocation | await => exact hrules.accepts_calling hform h rfl
  | conditional | coalesce | binary => exact hrules.accepts_branching hform h rfl
  | literal | defaultValue | sizeOf | typeOf | nameOf | anonymousFunction =>
    rw [Analysis.evaluateForm]
    exact hrules.fallback
  | arrayInitializer elements | objectInitializer elements =>
    rw [Analysis.evaluateForm]
    exact (L.bind (runs_evaluateList h) fun _ _ => hrules.initialized).of_eq (List.append_nil _)
  | conversion operand kind =>
    rw [Analysis.evaluateForm_conversion]
    refine (L.bind (h operand List.mem_cons_self).value fun value hvalue =>
      hrules.convert hform hvalue).of_eq ?_
    simp [Operation.stepsBelow, Form.children]
  | expressionStatement expression =>
    rw [Analysis.evaluateForm]
    exact (h expression List.mem_cons_self).value.of_eq (by simp [Operation.stepsBelow,
      Form.children])
  | isType operand | constantPattern operand | unary _ operand =>
    rw [Analysis.evaluateForm]
    refine (L.bind (h operand List.mem_cons_self).discard fun _ _ => hrules.fallback).of_eq ?_
    simp [Operation.stepsBelow, Form.children]
  | isPattern operand pattern =>
    rw [Analysis.evaluateForm]
    refine (L.bind (h operand List.mem_cons_self).discard fun _ _ =>
      L.bind (h pattern (by simp [Form.operands, Form.children])).discard fun _ _ =>
        hrules.fallback).of_eq ?_
    simp [Operation.stepsBelow, Form.children]
  | interpolatedString fragments | tuple fragments | other fragments =>
    rw [Analysis.evaluateForm]
    exact (L.bind (runs_evaluateList h) fun _ _ => hrules.fallback).of_eq (List.append_nil _)
  | throwing exception? =>
    rw [Analysis.evaluateForm]
    exact (L.bind (runs_evaluateOption h) fun _ _ => hrules.fallback).of_eq (List.append_nil _)

end Forms

/-- **The evaluation of an operation is accepted** if operations of some kind are, or follow the
rules and perform only operations of that kind. -/
theorem accepts_evaluate_of (allowed : Operation → Prop)
    (h : ∀ {o}, allowed o → L.AcceptsAt A o ∨
      L.Rules A o ∧ ∀ part ∈ o.performedChildren, allowed part)
    (operation : Operation) (hoperation : allowed operation) : L.AcceptsAt A operation := by
  induction operation using Operation.induction_performed with
  | h operation ih =>
    rcases h hoperation with haccepts | ⟨hrules, hallowed⟩
    · exact haccepts
    · have hparts : ∀ part ∈ operation.performedChildren, L.AcceptsAt A part :=
        fun part hpart => ih part hpart (hallowed part hpart)
      rw [AcceptsAt, Analysis.evaluate_eq, Operation.steps_eq]
      refine L.bind (hrules.accepts_evaluateForm rfl (fun part hpart => hparts part
        (Operation.mem_performedChildren_of_operands hpart)) fun target assigned hform => ?_)
          fun value hvalue => hrules.settle hvalue
      refine runs_evaluateParts fun part hpart => hparts part ?_
      rw [Operation.performedChildren, hform]
      exact List.mem_append_left _ hpart

/-- The evaluation of an operation is accepted if all operations that are performed along with it
are accepted as a whole or follow the rules. -/
theorem accepts_evaluate (h : ∀ node ∈ operation.performed, L.AcceptsAt A node ∨ L.Rules A node) :
    L.AcceptsAt A operation := by
  refine accepts_evaluate_of (fun o => ∀ node ∈ o.performed, L.AcceptsAt A node ∨ L.Rules A node)
    (fun {o} ho => ?_) operation h
  refine (ho o o.self_mem_performed).imp_right fun hrules => ⟨hrules, fun part hpart node hnode =>
    ho node ?_⟩
  rw [Operation.performed_eq]
  exact List.mem_cons_of_mem _ (List.mem_flatMap.2 ⟨part, hpart, hnode⟩)

/-! ## Blocks -/

/-- The step before a statement is accepted. -/
def AcceptsStart (L : TracedLogic V D) (A : Analysis V D) : Prop :=
  L.Runs [] (Analysis.frame >>= fun f => Analysis.changeData fun _ => A.beforeStatement f)

theorem runs_evaluateStatement (hstart : L.AcceptsStart A) (h : L.AcceptsAt A operation) :
    L.Runs operation.steps (A.evaluateStatement operation) := by
  have hrun : L.Runs operation.steps ((Analysis.frame >>= fun f => Analysis.changeData fun _ =>
      A.beforeStatement f) >>= fun _ => discard (A.evaluate operation)) :=
    L.bind hstart fun _ _ => h.discard
  rwa [bind_assoc] at hrun

theorem runs_forM_evaluateStatement (hstart : L.AcceptsStart A) {operations : List Operation}
    (h : ∀ operation ∈ operations, L.AcceptsAt A operation) :
    L.Runs (operations.flatMap Operation.steps) (operations.forM A.evaluateStatement) := by
  induction operations with
  | nil => exact L.pure trivial
  | cons operation operations ih =>
    rw [List.forM_eq_forM, List.forM_cons, List.flatMap_cons]
    exact L.bind (runs_evaluateStatement hstart (h operation List.mem_cons_self)) fun _ _ =>
      ih fun other hother => h other (List.mem_cons_of_mem operation hother)

/-- **The interpretation of a block is accepted.** -/
theorem accepts_evaluateBlock (hstart : L.AcceptsStart A) {block : Block}
    (h : ∀ operation ∈ block.statements, L.AcceptsAt A operation) :
    L.Accepts (block.statements.flatMap Operation.steps) (fun _ => True) (A.evaluateBlock block) :=
  (L.bind (runs_forM_evaluateStatement hstart h) fun _ _ => L.pure trivial).of_eq
    (List.append_nil _)

end Operations

end TracedLogic

/-! ## Logics -/

/-- Which actions are accepted, and for what results. -/
structure Logic (V D : Type) where
  /-- The action is accepted, and its results have the property. -/
  Accepts {α : Type} (Q : α → Prop) (action : Interp V D α) : Prop
  /-- The values that come up. -/
  value : V → Prop
  /-- The states that come up. -/
  state : D → Prop
  /-- The values that operations are given. -/
  given : OperationId → V → Prop
  value_of_given : ∀ {id v}, given id v → value v
  pure : ∀ {α : Type} {Q : α → Prop} {a : α}, Q a → Accepts Q (Pure.pure a)
  bind : ∀ {α β : Type} {Q : α → Prop} {R : β → Prop} {action : Interp V D α}
    {next : α → Interp V D β}, Accepts Q action → (∀ a, Q a → Accepts R (next a)) →
      Accepts R (action >>= next)

namespace Logic

variable [AbstractValue V] [EntityState D V] {L : Logic V D} {A : Analysis V D}

/-- An action without a result is accepted. -/
abbrev Runs (L : Logic V D) (action : Interp V D Unit) : Prop := L.Accepts (fun _ => True) action

/-- The single steps of the evaluation of an operation are accepted. -/
structure Rules (L : Logic V D) (A : Analysis V D) (operation : Operation) : Prop where
  unknown : L.value AbstractValue.unknown
  merge : ∀ {v w}, L.value v → L.value w → L.value (AbstractValue.merge v w)
  data : L.Accepts L.state Analysis.data
  restore : ∀ {a}, L.state a → L.Runs (Analysis.changeData fun _ => a)
  join : ∀ {a}, L.state a → L.Runs (A.joinData a)
  resetHeap : L.Runs (Analysis.changeData A.resetHeap)
  enter : ∀ creation, L.Runs (Analysis.enterInitializer creation)
  leave : L.Runs Analysis.leaveInitializer
  fallback : L.Accepts L.value (A.fallback operation)
  read : L.Accepts L.value (A.readReference operation)
  known : ∀ id, L.Accepts L.value (A.knownValue id operation)
  initialized : L.Accepts L.value (A.initializedValue operation)
  allocate : operation.form.isCreation = true → L.Accepts L.value (A.allocate operation)
  returnFrom : operation.form.isCall = true →
    L.Accepts L.value (A.returnFrom operation operation.resultType)
  writeCapture : ∀ {capture captured value}, operation.form = .flowCapture capture captured →
    L.value value → L.Runs (A.writeCapture operation value)
  declare : ∀ {symbol value}, operation.declared? = some symbol → L.value value →
    L.Runs (A.writeEntity (.ofLocal symbol) value)
  convert : ∀ {operand kind value}, operation.form = .conversion operand kind → L.value value →
    L.Accepts L.value (A.convert operation kind value)
  writeResult : ∀ {returned value}, operation.form = .returning (some returned) → L.value value →
    L.Runs (A.writeResult value)
  assignTo : ∀ {target value}, target ∈ operation.form.assignees → L.value value →
    L.Runs (A.assignTo target value)
  /-- The target of an assignment is given the assigned value. -/
  give : ∀ {target assigned value}, operation.form = .simpleAssignment target assigned →
    L.value value → L.Runs (Analysis.cache target.id value)
  call : ∀ {arguments}, (∀ part ∈ Form.writableValues arguments, part ∈ operation.form.assignees) →
    ∀ mayUpdateLocals, L.Runs (A.applyCall arguments mayUpdateLocals)
  settle : ∀ {value}, L.value value → L.Accepts (L.given operation.id) (A.settle operation value)

/-- The evaluation of the operation is accepted. -/
def AcceptsAt (L : Logic V D) (A : Analysis V D) (operation : Operation) : Prop :=
  L.Accepts (L.given operation.id) (A.evaluate operation)

/-! ## Evaluation -/

/-- The logic, which takes no account of the steps, as one that follows them. -/
def traced (L : Logic V D) : TracedLogic V D where
  Accepts _ Q action := L.Accepts Q action
  value := L.value
  state := L.state
  given := L.given
  value_of_given := L.value_of_given
  pure := L.pure
  bind := L.bind

theorem Rules.traced {operation : Operation} (h : L.Rules A operation) :
    L.traced.Rules A operation where
  unknown := h.unknown
  merge := h.merge
  data := h.data
  restore := h.restore
  join := h.join
  resetHeap := h.resetHeap
  inside hrun := L.bind (h.enter _) fun _ _ => L.bind hrun fun _ _ => h.leave
  fallback := h.fallback
  read := h.read
  known := h.known
  initialized := h.initialized
  allocate := h.allocate
  returnFrom := h.returnFrom
  writeCapture := h.writeCapture
  declare := h.declare
  convert := h.convert
  writeResult := h.writeResult
  assignTo := h.assignTo
  give := h.give
  call := h.call
  settle := h.settle

theorem runs_evaluateOption {part? : Option Operation}
    (h : ∀ part ∈ part?.toList, L.AcceptsAt A part) : L.Runs (A.evaluateOption part?) :=
  TracedLogic.runs_evaluateOption (L := L.traced) h

theorem runs_evaluateArguments {arguments : List (Argument Operation)}
    (h : ∀ part ∈ arguments.map (·.value), L.AcceptsAt A part) :
    L.Runs (A.evaluateArguments arguments) :=
  TracedLogic.runs_evaluateArguments (L := L.traced) h

theorem runs_evaluateCallee {callee : Callee Operation}
    (h : ∀ part ∈ callee.target?.toList, L.AcceptsAt A part) :
    L.Runs (A.evaluateCallee callee) := TracedLogic.runs_evaluateCallee (L := L.traced) h

section Operations

variable {operation : Operation}

/-- **The evaluation of an operation is accepted** if operations of some kind are, or follow the
rules and perform only operations of that kind. -/
theorem accepts_evaluate_of (allowed : Operation → Prop)
    (h : ∀ {o}, allowed o → L.AcceptsAt A o ∨
      L.Rules A o ∧ ∀ part ∈ o.performedChildren, allowed part)
    (operation : Operation) (hoperation : allowed operation) : L.AcceptsAt A operation :=
  TracedLogic.accepts_evaluate_of (L := L.traced) allowed
    (fun ho => (h ho).imp_right fun ⟨hrules, hparts⟩ => ⟨hrules.traced, hparts⟩) operation
      hoperation

/-- The evaluation of an operation is accepted if all operations that are performed along with it
are accepted as a whole or follow the rules. -/
theorem accepts_evaluate (h : ∀ node ∈ operation.performed, L.AcceptsAt A node ∨ L.Rules A node) :
    L.AcceptsAt A operation :=
  TracedLogic.accepts_evaluate (L := L.traced) fun node hnode =>
    (h node hnode).imp_right Rules.traced

/-! ## Blocks -/

/-- The step before a statement is accepted. -/
def AcceptsStart (L : Logic V D) (A : Analysis V D) : Prop :=
  L.Runs (Analysis.frame >>= fun f => Analysis.changeData fun _ => A.beforeStatement f)

omit [AbstractValue V] [EntityState D V] in
theorem runs_forM {α : Type} {action : α → Interp V D Unit} {items : List α}
    (h : ∀ item ∈ items, L.Runs (action item)) : L.Runs (items.forM action) := by
  induction items with
  | nil => exact L.pure trivial
  | cons item items ih =>
    rw [List.forM_eq_forM, List.forM_cons]
    exact L.bind (h item List.mem_cons_self) fun _ _ =>
      ih fun other hother => h other (List.mem_cons_of_mem item hother)

theorem runs_forM_evaluateStatement (hstart : L.AcceptsStart A) {operations : List Operation}
    (h : ∀ operation ∈ operations, L.AcceptsAt A operation) :
    L.Runs (operations.forM A.evaluateStatement) :=
  TracedLogic.runs_forM_evaluateStatement (L := L.traced) hstart h

/-- **The interpretation of a block is accepted.** -/
theorem accepts_evaluateBlock (hstart : L.AcceptsStart A) {block : Block}
    (h : ∀ operation ∈ block.statements, L.AcceptsAt A operation) :
    L.Accepts (fun _ => True) (A.evaluateBlock block) :=
  TracedLogic.accepts_evaluateBlock (L := L.traced) hstart h

end Operations

end Logic
end HeapFlow
