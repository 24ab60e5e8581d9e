import HeapFlow.Proofs.Interpreter.Logic

/-! # Invariants of the interpreter

An invariant says which states, which values and which tables of values come up while some
operations are evaluated (`Invariant`).  An action preserves it if it leads from machines that
satisfy the invariant to machines that satisfy it again, and comes to a result of some kind
(`Preserves`).  Such actions compose (`Preserves.bind`).

An analysis maintains an invariant if each of its decisions does (`Analysis.Maintains`): what it
comes up with on a frame that satisfies the invariant is a value or a state of the invariant.  Then
the evaluation of every operation preserves the invariant (`Analysis.preserves_evaluate`), and so
does the interpretation of a block (`Analysis.preserves_evaluateBlock`).  Nothing is asked of the
operations: their ids may repeat, and references to created objects may be out of place.

An invariant of some operations only is one that the analysis maintains at each of them
(`Analysis.MaintainsAt`): the single steps of these operations preserve it
(`Analysis.rules_of_maintainsAt`).  A property of states can so be paired with a property of the
table of values, if the operations are given values that keep it (`TableInvariant`).
-/
namespace HeapFlow

variable {V D : Type}

/-- What holds of the states and values that come up while some operations are evaluated. -/
structure Invariant (V D : Type) where
  routine : Routine
  /-- The states that come up. -/
  state : D → Prop
  /-- The values that come up. -/
  value : V → Prop
  /-- The tables of the values of operations that come up. -/
  values : Environment OperationId V → Prop
  /-- The values that operations are given. -/
  given : OperationId → V → Prop
  /-- The entities that are assigned to. -/
  entity : Entity → Prop
  /-- The operations that are evaluated. -/
  operation : Operation → Prop
  part : ∀ {o}, operation o → ∀ part ∈ o.children, operation part
  value_of_given : ∀ {id v}, given id v → value v
  value_of_values : ∀ {table id v}, values table → table.get? id = some v → value v
  insert : ∀ {table id v}, values table → given id v → values (table.insert id v)

/-- The frame satisfies the invariant. -/
structure Invariant.Holds (I : Invariant V D) (f : Frame V D) : Prop where
  routine : f.routine = I.routine
  state : I.state f.data
  values : I.values f.values

/-- The action leads from machines that satisfy the invariant to machines that satisfy it, and to a
result with the property. -/
def Preserves {α : Type} (I : Invariant V D) (Q : α → Prop) (action : Interp V D α) : Prop :=
  ∀ m : Machine V D, I.Holds m.toFrame →
    Q (outcome action m).1 ∧ I.Holds (outcome action m).2.toFrame

/-! ## Combining actions -/

section Combinators

variable {α β : Type} {I : Invariant V D} {Q : α → Prop} {R : β → Prop}

theorem preserves_pure {a : α} (ha : Q a) : Preserves I Q (pure a) := fun _ hm => ⟨ha, hm⟩

theorem Preserves.bind {action : Interp V D α} {next : α → Interp V D β}
    (h : Preserves I Q action) (hnext : ∀ a, Q a → Preserves I R (next a)) :
    Preserves I R (action >>= next) := by
  intro m hm
  obtain ⟨ha, hm'⟩ := h m hm
  exact hnext _ ha _ hm'

/-- What is done with the frame may make use of the invariant. -/
theorem preserves_frame : Preserves I (fun f => I.Holds f) (Analysis.frame (V := V)) :=
  fun _ hm => ⟨hm, hm⟩

theorem preserves_data : Preserves I I.state (Analysis.data (V := V)) :=
  fun _ hm => ⟨hm.state, hm⟩

theorem preserves_changeFrame {change : Frame V D → Frame V D}
    (h : ∀ f, I.Holds f → I.Holds (change f)) :
    Preserves I (fun _ => True) (Analysis.changeFrame change) := fun _ hm => ⟨trivial, h _ hm⟩

theorem Invariant.Holds.withData {f : Frame V D} (h : I.Holds f) {data : D} (hdata : I.state data) :
    I.Holds { f with data } := ⟨h.routine, hdata, h.values⟩

theorem preserves_changeData {change : D → D} (h : ∀ a, I.state a → I.state (change a)) :
    Preserves I (fun _ => True) (Analysis.changeData (V := V) change) :=
  preserves_changeFrame fun _ hf => hf.withData (h _ hf.state)

theorem preserves_cache {id : OperationId} {value : V} (h : I.given id value) :
    Preserves I (fun _ => True) (Analysis.cache (D := D) id value) :=
  preserves_changeFrame fun _ hf => ⟨hf.routine, hf.state, I.insert hf.values h⟩

end Combinators

/-- The logic of the actions that preserve the invariant. -/
def Invariant.logic (I : Invariant V D) : Logic V D where
  Accepts Q action := Preserves I Q action
  value := I.value
  state := I.state
  given := I.given
  value_of_given := I.value_of_given
  pure := preserves_pure
  bind := Preserves.bind

/-- The invariant allows to evaluate all operations below one that it allows to evaluate. -/
theorem Invariant.operation_of_nodes (I : Invariant V D) {operation : Operation}
    (h : I.operation operation) : ∀ node ∈ operation.nodes, I.operation node := by
  induction operation using Operation.induction_children with
  | h operation ih =>
    intro node hnode
    rw [Operation.nodes_eq] at hnode
    rcases List.mem_cons.1 hnode with rfl | hnode
    · exact h
    · obtain ⟨part, hpart, hnode⟩ := List.mem_flatMap.1 hnode
      exact ih part hpart (I.part h part hpart) node hnode

namespace Analysis

variable [AbstractValue V] [EntityState D V]

/-- The decisions of the analysis stay within the invariant. -/
structure Maintains (A : Analysis V D) (I : Invariant V D) : Prop where
  unknown : I.value AbstractValue.unknown
  mergeValue : ∀ {v w}, I.value v → I.value w → I.value (AbstractValue.merge v w)
  defaultValue : ∀ {operation f}, I.operation operation → I.Holds f →
    I.value (A.defaultValue f operation)
  creationValue : ∀ {operation f}, I.operation operation → operation.form.isCreation = true →
    I.Holds f → I.given operation.id (A.creationValue f operation)
  invocationValue : ∀ {operation f}, I.operation operation → operation.form.isCall = true →
    I.Holds f → I.value (A.invocationValue f operation operation.resultType).1 ∧
      I.state (A.invocationValue f operation operation.resultType).2
  conversionValue : ∀ {operation operand kind f value}, I.operation operation →
    operation.form = .conversion operand kind → I.Holds f → I.value value →
      I.value (A.conversionValue f operation kind value)
  finalValue : ∀ {operation f value}, I.operation operation → I.Holds f → I.value value →
    I.given operation.id (A.finalValue f operation value)
  /-- The target of an assignment is given the assigned value. -/
  assigned : ∀ {operation target assigned value}, I.operation operation →
    operation.form = .simpleAssignment target assigned → I.value value → I.given target.id value
  beforeStatement : ∀ {f}, I.Holds f → I.state (A.beforeStatement f)
  denoted : ∀ {operation f e}, I.operation operation → I.Holds f →
    A.denoted? f operation = some e → I.entity e ∧ I.value (A.read f.data e)
  declared : ∀ {operation symbol}, I.operation operation → operation.declared? = some symbol →
    I.entity (.ofLocal symbol)
  result : ∀ {operation returned}, I.operation operation →
    operation.form = .returning (some returned) → I.entity (.ofResult I.routine.returnType)
  write : ∀ {e value a}, I.entity e → I.value value → I.state a → I.state (A.write e value a)
  reset : ∀ {condition a}, I.state a → I.state (A.resetEntities condition a)
  merge : ∀ {a b}, I.state a → I.state b → I.state (A.mergeData a b)

/-- The decisions of the analysis about one operation stay within the invariant. -/
structure MaintainsAt (A : Analysis V D) (I : Invariant V D) (operation : Operation) : Prop where
  unknown : I.value AbstractValue.unknown
  mergeValue : ∀ {v w}, I.value v → I.value w → I.value (AbstractValue.merge v w)
  defaultValue : ∀ {f}, I.Holds f → I.value (A.defaultValue f operation)
  creationValue : ∀ {f}, operation.form.isCreation = true → I.Holds f →
    I.given operation.id (A.creationValue f operation)
  invocationValue : ∀ {f}, operation.form.isCall = true → I.Holds f →
    I.value (A.invocationValue f operation operation.resultType).1 ∧
      I.state (A.invocationValue f operation operation.resultType).2
  conversionValue : ∀ {operand kind f value}, operation.form = .conversion operand kind →
    I.Holds f → I.value value → I.value (A.conversionValue f operation kind value)
  finalValue : ∀ {f value}, I.Holds f → I.value value →
    I.given operation.id (A.finalValue f operation value)
  assigned : ∀ {target assigned value}, operation.form = .simpleAssignment target assigned →
    I.value value → I.given target.id value
  read : ∀ {f e}, I.Holds f → A.denoted? f operation = some e → I.value (A.read f.data e)
  writeCapture : ∀ {capture captured f e value}, operation.form = .flowCapture capture captured →
    I.Holds f → A.denoted? f operation = some e → I.value value → I.state (A.write e value f.data)
  declare : ∀ {symbol value a}, operation.declared? = some symbol → I.value value → I.state a →
    I.state (A.write (.ofLocal symbol) value a)
  writeResult : ∀ {returned value a}, operation.form = .returning (some returned) →
    I.value value → I.state a → I.state (A.write (.ofResult I.routine.returnType) value a)
  assign : ∀ {target f value}, target ∈ operation.form.assignees → I.value value → I.Holds f →
    I.Holds (A.assign target value f)
  reset : ∀ {condition a}, I.state a → I.state (A.resetEntities condition a)
  merge : ∀ {a b}, I.state a → I.state b → I.state (A.mergeData a b)

variable {A : Analysis V D} {I : Invariant V D}

/-! ## Assignments -/

theorem holds_assignUnknown {targets : List Operation}
    (h : ∀ target ∈ targets, ∀ f, I.Holds f → I.Holds (A.assign target AbstractValue.unknown f)) :
    ∀ f, I.Holds f → I.Holds (A.assignUnknown targets f) := by
  induction targets with
  | nil => exact fun _ hf => hf
  | cons target targets ih =>
    intro f hf
    exact ih (fun other hother => h other (List.mem_cons_of_mem target hother)) _
      (h target List.mem_cons_self f hf)

section Assign

variable {P : Operation → Prop} (hunknown : I.value AbstractValue.unknown)
  (helements : ∀ {o elements}, P o → o.form = .tuple elements →
    ∀ element ∈ elements, P element)
  (hwrite : ∀ {o f e value}, P o → I.Holds f → A.denoted? f o = some e → I.value value →
    I.state (A.write e value f.data))
  (hreset : ∀ {condition a}, I.state a → I.state (A.resetEntities condition a))
include hreset

theorem state_forgetMembers (target : Operation) {a : D} (ha : I.state a) :
    I.state (A.forgetMembers target a) := by
  obtain ⟨id, form, type?, constant?⟩ := target
  cases form <;> first | exact ha | exact hreset ha

include hunknown helements hwrite

/-- An assignment preserves the invariant if writing to what the target denotes does. -/
theorem holds_assign (target : Operation) (htarget : P target) {value : V}
    (hvalue : I.value value) {f : Frame V D} (hf : I.Holds f) :
    I.Holds (A.assign target value f) := by
  -- The induction is for tuples, whose elements are assigned one after the other.
  induction target using Operation.induction_children generalizing value f with
  | h target ih =>
    obtain ⟨id, form, type?, constant?⟩ := target
    have hforget : I.Holds
        { f with data := A.forgetMembers ⟨id, form, type?, constant?⟩ f.data } :=
      hf.withData (state_forgetMembers hreset _ hf.state)
    unfold assign
    cases he : A.denoted? f ⟨id, form, type?, constant?⟩ with
    | some e => exact hf.withData (hwrite htarget hf he hvalue)
    | none =>
      cases form with
      | tuple elements =>
        refine holds_assignUnknown (fun element hmem f hf => ?_) f hf
        have hchild : element ∈ Operation.children ⟨id, .tuple elements, type?, constant?⟩ := hmem
        exact ih element hchild (helements htarget rfl element hmem) hunknown hf
      | propertyReference instance? property arguments =>
        cases arguments with
        | nil => exact hforget
        | cons argument arguments => exact hf.withData (hreset hf.state)
      | _ => exact hforget

end Assign

/-- An analysis that maintains an invariant does so at all operations that the invariant allows. -/
theorem Maintains.maintainsAt (hA : A.Maintains I) {operation : Operation}
    (hoperation : I.operation operation) : A.MaintainsAt I operation where
  unknown := hA.unknown
  mergeValue := hA.mergeValue
  defaultValue := hA.defaultValue hoperation
  creationValue := hA.creationValue hoperation
  invocationValue := hA.invocationValue hoperation
  conversionValue := hA.conversionValue hoperation
  finalValue := hA.finalValue hoperation
  assigned := hA.assigned hoperation
  read hf he := (hA.denoted hoperation hf he).2
  writeCapture _ hf he hvalue := hA.write (hA.denoted hoperation hf he).1 hvalue hf.state
  declare hdeclared := hA.write (hA.declared hoperation hdeclared)
  writeResult hform := hA.write (hA.result hoperation hform)
  assign {target f value} hmem hvalue hf := by
    have hpart : ∀ {o elements}, I.operation o → o.form = .tuple elements →
        ∀ element ∈ elements, I.operation element := by
      intro o elements ho hform element hmem
      exact I.part ho element (by rwa [Operation.children, hform])
    exact holds_assign hA.unknown hpart
      (fun ho hf he hvalue => hA.write (hA.denoted ho hf he).1 hvalue hf.state) hA.reset target
      (I.part hoperation target (Form.mem_children_of_assignees target hmem)) hvalue hf
  reset := hA.reset
  merge := hA.merge

/-! ## Single steps -/

section Steps

variable {operation : Operation} (hA : A.MaintainsAt I operation)
include hA

theorem preserves_joinData {other : D} (h : I.state other) :
    Preserves (V := V) I (fun _ => True) (A.joinData other) :=
  preserves_changeData fun _ ha => hA.merge h ha

theorem preserves_resetHeap :
    Preserves (V := V) I (fun _ => True) (changeData A.resetHeap) :=
  preserves_changeData fun _ ha => hA.reset ha

theorem preserves_fallback : Preserves I I.value (A.fallback operation) :=
  preserves_frame.bind fun _ hf => preserves_pure (hA.defaultValue hf)

theorem preserves_readReference : Preserves I I.value (A.readReference operation) := by
  refine preserves_frame.bind fun f hf => ?_
  cases he : A.denoted? f operation with
  | none => exact preserves_pure (hA.defaultValue hf)
  | some e => exact preserves_pure (hA.read hf he)

theorem preserves_knownValue (id : OperationId) :
    Preserves I I.value (A.knownValue id operation) := by
  refine preserves_frame.bind fun f hf => ?_
  cases hvalue : f.values.get? id with
  | none => exact preserves_pure (hA.defaultValue hf)
  | some value => exact preserves_pure (I.value_of_values hf.values hvalue)

theorem preserves_initializedValue : Preserves I I.value (A.initializedValue operation) := by
  refine preserves_frame.bind fun f hf => ?_
  cases hvalue : f.creationValue? with
  | none => exact preserves_pure (hA.defaultValue hf)
  | some value =>
    obtain ⟨id, -, hid⟩ := Option.bind_eq_some_iff.1 hvalue
    exact preserves_pure (I.value_of_values hf.values hid)

theorem preserves_allocate (hform : operation.form.isCreation = true) :
    Preserves I I.value (A.allocate operation) := by
  refine preserves_frame.bind fun f hf => ?_
  have hgiven := hA.creationValue hform hf
  exact (preserves_cache hgiven).bind fun _ _ => preserves_pure (I.value_of_given hgiven)

theorem preserves_returnFrom (hform : operation.form.isCall = true) :
    Preserves I I.value (A.returnFrom operation operation.resultType) := by
  refine preserves_frame.bind fun f hf => ?_
  obtain ⟨hvalue, hstate⟩ := hA.invocationValue hform hf
  exact (preserves_changeData fun _ _ => hstate).bind fun _ _ => preserves_pure hvalue

theorem preserves_settle {value : V} (hvalue : I.value value) :
    Preserves I (I.given operation.id) (A.settle operation value) := by
  refine preserves_frame.bind fun f hf => ?_
  have hgiven := hA.finalValue hf hvalue
  have hvisited : Preserves (V := V) (D := D) I (fun _ => True)
      (modify fun machine => { machine with visited := operation.id :: machine.visited }) :=
    fun _ hm => ⟨trivial, hm⟩
  exact hvisited.bind fun _ _ => (preserves_cache hgiven).bind fun _ _ => preserves_pure hgiven

theorem preserves_applyCall {arguments : List (Argument Operation)}
    (h : ∀ part ∈ Form.writableValues arguments, part ∈ operation.form.assignees)
    (mayUpdateLocals : Bool) :
    Preserves I (fun _ => True) (A.applyCall arguments mayUpdateLocals) := by
  have hforget : Preserves (V := V) I (fun _ => True)
      (changeData (if mayUpdateLocals then A.resetAll else A.resetHeap)) := by
    refine preserves_changeData fun a ha => ?_
    cases mayUpdateLocals
    · exact hA.reset ha
    · exact hA.reset ha
  exact hforget.bind fun _ _ => preserves_changeFrame (holds_assignUnknown fun target hmem f hf =>
    hA.assign (h target hmem) hA.unknown hf)

omit hA [AbstractValue V] [EntityState D V] in
variable (I) in
/-- Which initializers are being evaluated does not matter to an invariant. -/
theorem preserves_changeCreations (change : List OperationId → List OperationId) :
    Preserves (V := V) (D := D) I (fun _ => True)
      (changeFrame fun f => { f with creations := change f.creations }) :=
  preserves_changeFrame fun _ hf => ⟨hf.routine, hf.state, hf.values⟩

theorem preserves_writeCapture {capture : CaptureId} {captured : Operation}
    (hform : operation.form = .flowCapture capture captured) {value : V} (hvalue : I.value value) :
    Preserves I (fun _ => True) (A.writeCapture operation value) := by
  intro m hm
  rw [outcome_writeCapture]
  refine ⟨trivial, hm.withData ?_⟩
  unfold dataAfterCapture
  cases he : A.denoted? m.toFrame operation with
  | none => exact hm.state
  | some e => exact hA.writeCapture hform hm he hvalue

theorem preserves_writeResult {returned : Operation}
    (hform : operation.form = .returning (some returned)) {value : V} (hvalue : I.value value) :
    Preserves I (fun _ => True) (A.writeResult value) := by
  intro m hm
  rw [outcome_writeResult]
  refine ⟨trivial, hm.withData ?_⟩
  unfold dataAfterReturn
  split
  · exact hm.state
  · rw [hm.routine]
    exact hA.writeResult hform hvalue hm.state

/-- The single steps of the evaluation of an operation preserve the invariant. -/
theorem rules_of_maintainsAt : I.logic.Rules A operation where
  unknown := hA.unknown
  merge := hA.mergeValue
  data := preserves_data
  restore ha := preserves_changeData fun _ _ => ha
  join ha := preserves_joinData hA ha
  resetHeap := preserves_resetHeap hA
  enter creation := preserves_changeCreations I (creation :: ·)
  leave := preserves_changeCreations I List.tail
  fallback := preserves_fallback hA
  read := preserves_readReference hA
  known id := preserves_knownValue hA id
  initialized := preserves_initializedValue hA
  allocate hform := preserves_allocate hA hform
  returnFrom hform := preserves_returnFrom hA hform
  writeCapture hform hvalue := preserves_writeCapture hA hform hvalue
  declare hdeclared hvalue := preserves_changeData fun _ ha => hA.declare hdeclared hvalue ha
  convert hform hvalue := preserves_frame.bind fun _ hf =>
    preserves_pure (hA.conversionValue hform hf hvalue)
  writeResult hform hvalue := preserves_writeResult hA hform hvalue
  assignTo hmem hvalue := preserves_changeFrame fun _ hf => hA.assign hmem hvalue hf
  give hform hvalue := preserves_cache (hA.assigned hform hvalue)
  call h mayUpdateLocals := preserves_applyCall hA h mayUpdateLocals
  settle hvalue := preserves_settle hA hvalue

end Steps

/-! ## Evaluation -/

section Maintained

variable (hA : A.Maintains I)
include hA

/-- **The evaluation of an operation preserves the invariant.** -/
theorem preserves_evaluate {operation : Operation} (hoperation : I.operation operation) :
    Preserves I (I.given operation.id) (A.evaluate operation) :=
  Logic.accepts_evaluate fun node hnode => .inr (rules_of_maintainsAt (hA.maintainsAt
    (I.operation_of_nodes hoperation node (Operation.mem_nodes_of_performed hnode))))

/-! ## Blocks -/

theorem preserves_beforeStatement : I.logic.AcceptsStart A :=
  preserves_frame.bind fun _ hf => preserves_changeData fun _ _ => hA.beforeStatement hf

theorem preserves_forM_evaluateStatement {operations : List Operation}
    (h : ∀ operation ∈ operations, I.operation operation) :
    Preserves I (fun _ => True) (operations.forM A.evaluateStatement) :=
  Logic.runs_forM_evaluateStatement (preserves_beforeStatement hA) fun operation hmem =>
    preserves_evaluate hA (h operation hmem)

/-- **The interpretation of a block preserves the invariant.** -/
theorem preserves_evaluateBlock {block : Block}
    (h : ∀ operation ∈ block.statements, I.operation operation) :
    Preserves I (fun _ => True) (A.evaluateBlock block) :=
  Logic.accepts_evaluateBlock (preserves_beforeStatement hA) fun operation hmem =>
    preserves_evaluate hA (h operation hmem)

end Maintained

/-- The value that an operation comes to is one that the analysis has settled on. -/
theorem exists_finalValue_evaluate (operation : Operation) (m : Machine V D) :
    ∃ f v, (outcome (A.evaluate operation) m).1 = A.finalValue f operation v := by
  rw [evaluate_eq]
  exact ⟨_, _, rfl⟩

/-- An operation that has been evaluated has the value that it has come to. -/
theorem get?_values_evaluate (operation : Operation) (m : Machine V D) :
    (outcome (A.evaluate operation) m).2.values.get? operation.id =
      some (outcome (A.evaluate operation) m).1 := by
  rw [evaluate_eq]
  exact Environment.get?_insert_self _ _ _

end Analysis

/-! ## Narrower invariants -/

theorem Operation.nodes_part {P : Operation → Prop} {o : Operation} (h : ∀ node ∈ o.nodes, P node)
    {part : Operation} (hpart : part ∈ o.children) : ∀ node ∈ part.nodes, P node := by
  intro node hnode
  refine h node ?_
  rw [Operation.nodes_eq]
  exact List.mem_cons_of_mem _ (List.mem_flatMap.2 ⟨part, hpart, hnode⟩)

theorem Operation.self_mem_nodes (o : Operation) : o ∈ o.nodes := by
  rw [Operation.nodes_eq]
  exact List.mem_cons_self

theorem get?_insert_of_id_ne {values : Environment OperationId V} {id other : OperationId} {v : V}
    (h : other ≠ id) : (values.insert other v).get? id = values.get? id := by
  have hother : Key.same other id = false := decide_eq_false h
  rw [Environment.get?_insert, hother, if_neg Bool.false_ne_true]

/-- A property of the table of values that is kept when operations are given values of some kind. -/
structure TableInvariant (V : Type) where
  table : Environment OperationId V → Prop
  given : OperationId → V → Prop
  insert : ∀ {values id v}, table values → given id v → table (values.insert id v)

namespace TableInvariant

/-- The operations have only values with a property. -/
def ofValues (Q : OperationId → V → Prop) : TableInvariant V where
  table values := ∀ id v, values.get? id = some v → Q id v
  given := Q
  insert {values id v} htable hgiven other w hw := by
    rw [Environment.get?_insert] at hw
    split at hw
    · next hsame =>
      obtain rfl : id = other := of_decide_eq_true hsame
      exact Option.some.inj hw ▸ hgiven
    · exact htable other w hw

/-- The operations of the ids have the same value, as neither of them is given one. -/
def ofSame (V : Type) (id id' : OperationId) : TableInvariant V where
  table values := values.get? id = values.get? id'
  given other _ := other ≠ id ∧ other ≠ id'
  insert {values other v} htable hgiven := by
    rw [get?_insert_of_id_ne hgiven.1, get?_insert_of_id_ne hgiven.2]
    exact htable

end TableInvariant

namespace Invariant

/-- The invariant of what keeps a property of states, whatever values come up and whatever is
evaluated. -/
def ofState (routine : Routine) (property : D → Prop) : Invariant V D where
  routine
  state := property
  value _ := True
  values _ := True
  given _ _ := True
  entity _ := True
  operation _ := True
  part _ _ _ := trivial
  value_of_given _ := trivial
  value_of_values _ _ := trivial
  insert _ _ := trivial

/-- The invariant of what keeps a property of states and a property of the table of values. -/
def ofTable (routine : Routine) (property : D → Prop) (T : TableInvariant V) : Invariant V D where
  routine
  state := property
  value _ := True
  values := T.table
  given := T.given
  entity _ := True
  operation _ := True
  part _ _ _ := trivial
  value_of_given _ := trivial
  value_of_values _ _ := trivial
  insert := T.insert

variable (I : Invariant V D)

/-- The invariant of what does not evaluate the operation of the given id, so that the operation
keeps its value. -/
def freezing (id : OperationId) (value? : Option V) : Invariant V D where
  routine := I.routine
  state := I.state
  value := I.value
  values table := I.values table ∧ table.get? id = value?
  given other value := I.given other value ∧ other ≠ id
  entity := I.entity
  operation o := I.operation o ∧ ∀ node ∈ o.nodes, node.id ≠ id
  part h part hpart := ⟨I.part h.1 part hpart, Operation.nodes_part h.2 hpart⟩
  value_of_given h := I.value_of_given h.1
  value_of_values h := I.value_of_values h.1
  insert {table other value} h hgiven := by
    refine ⟨I.insert h.1 hgiven.1, ?_⟩
    rw [get?_insert_of_id_ne hgiven.2, h.2]

/-- The invariant of what keeps a property of states, as it evaluates only operations of some kind
and writes only to entities of some kind. -/
def keeping (property : D → Prop) (writable : Entity → Prop) (allowed : Operation → Prop) :
    Invariant V D where
  routine := I.routine
  state a := I.state a ∧ property a
  value := I.value
  values := I.values
  given := I.given
  entity e := I.entity e ∧ writable e
  operation o := I.operation o ∧ ∀ node ∈ o.nodes, allowed node
  part h part hpart := ⟨I.part h.1 part hpart, Operation.nodes_part h.2 hpart⟩
  value_of_given := I.value_of_given
  value_of_values := I.value_of_values
  insert := I.insert

variable {I} {f : Frame V D}

theorem holds_freezing_iff {id : OperationId} {value? : Option V} :
    (I.freezing id value?).Holds f ↔ I.Holds f ∧ f.values.get? id = value? :=
  ⟨fun h => ⟨⟨h.routine, h.state, h.values.1⟩, h.values.2⟩,
    fun h => ⟨h.1.routine, h.1.state, h.1.values, h.2⟩⟩

theorem holds_keeping_iff {property : D → Prop} {writable : Entity → Prop}
    {allowed : Operation → Prop} :
    (I.keeping property writable allowed).Holds f ↔ I.Holds f ∧ property f.data :=
  ⟨fun h => ⟨⟨h.routine, h.state.1, h.values⟩, h.state.2⟩,
    fun h => ⟨h.1.routine, ⟨h.1.state, h.2⟩, h.1.values⟩⟩

end Invariant

namespace Analysis

variable [AbstractValue V] [EntityState D V] {A : Analysis V D} {I : Invariant V D}

/-- A property of states that is kept by all changes of states. -/
theorem maintains_ofState {routine : Routine} {property : D → Prop}
    (hinvocation : ∀ {operation f type}, property f.data →
      property (A.invocationValue f operation type).2)
    (hbeforeStatement : ∀ {f}, property f.data → property (A.beforeStatement f))
    (hwrite : ∀ {e value a}, property a → property (A.write e value a))
    (hreset : ∀ {condition a}, property a → property (A.resetEntities condition a))
    (hmerge : ∀ {a b}, property a → property b → property (A.mergeData a b)) :
    A.Maintains (.ofState routine property) where
  unknown := trivial
  mergeValue _ _ := trivial
  defaultValue _ _ := trivial
  creationValue _ _ _ := trivial
  invocationValue _ _ hf := ⟨trivial, hinvocation hf.state⟩
  conversionValue _ _ _ _ := trivial
  finalValue _ _ _ := trivial
  assigned _ _ _ := trivial
  beforeStatement hf := hbeforeStatement hf.state
  denoted _ _ _ := ⟨trivial, trivial⟩
  declared _ _ := trivial
  result _ _ := trivial
  write _ _ := hwrite
  reset := hreset
  merge := hmerge

/-- Assignments one after the other change the state if each of them does. -/
theorem exists_data_assignUnknown (A : Analysis V D) {targets : List Operation}
    (h : ∀ target ∈ targets, ∀ f : Frame V D,
      ∃ data, A.assign target AbstractValue.unknown f = { f with data }) (f : Frame V D) :
    ∃ data, A.assignUnknown targets f = { f with data } := by
  induction targets generalizing f with
  | nil => exact ⟨f.data, rfl⟩
  | cons target targets ih =>
    obtain ⟨data, hdata⟩ := h target List.mem_cons_self f
    obtain ⟨data', hdata'⟩ := ih (fun other hother => h other (List.mem_cons_of_mem target hother))
      { f with data }
    rw [assignUnknown, hdata]
    exact ⟨data', hdata'⟩

/-- An assignment changes nothing but the state. -/
theorem exists_data_assign (A : Analysis V D) (target : Operation) (value : V) (f : Frame V D) :
    ∃ data, A.assign target value f = { f with data } := by
  -- The induction is for tuples, whose elements are assigned one after the other.
  induction target using Operation.induction_children generalizing value f with
  | h target ih =>
    obtain ⟨id, form, type?, constant?⟩ := target
    unfold assign
    cases A.denoted? f ⟨id, form, type?, constant?⟩ with
    | some e => exact ⟨_, rfl⟩
    | none =>
      cases form with
      | tuple elements =>
        exact A.exists_data_assignUnknown (fun element hmem f => ih element hmem _ f) f
      | propertyReference instance? property arguments => cases arguments <;> exact ⟨_, rfl⟩
      | _ => exact ⟨_, rfl⟩

/-- An assignment keeps the values of all operations. -/
theorem values_assign (A : Analysis V D) (target : Operation) (value : V) (f : Frame V D) :
    (A.assign target value f).values = f.values := by
  obtain ⟨data, hdata⟩ := A.exists_data_assign target value f
  rw [hdata]

/-- After an assignment its target has the value of the operation that is assigned. -/
theorem values_evaluate_simpleAssignment {operation target assigned : Operation}
    (hform : operation.form = .simpleAssignment target assigned) (m : Machine V D) :
    ∃ (before : Environment OperationId V) (value settled : V),
      before.get? assigned.id = some value ∧ (outcome (A.evaluate operation) m).2.values =
        (before.insert target.id value).insert operation.id settled := by
  let parts := (outcome (A.evaluateParts target) m).2
  let result := outcome (A.evaluate assigned) parts
  refine ⟨result.2.values, result.1, (outcome (A.evaluate operation) m).1,
    get?_values_evaluate assigned parts, ?_⟩
  rw [evaluate_eq, hform, evaluateForm, ← values_assign A target result.1 result.2.toFrame]
  rfl

/-- What is kept of the table of values, no matter what value the operation and the target of the
assignment are given, is kept along with a property of states. -/
theorem MaintainsAt.ofTable {routine : Routine} {property : D → Prop} {operation : Operation}
    (h : A.MaintainsAt (.ofState routine property) operation) {T : TableInvariant V}
    (hgiven : ∀ recipient ∈ operation.recipients, ∀ v, T.given recipient.id v) :
    A.MaintainsAt (.ofTable routine property T) operation where
  unknown := trivial
  mergeValue _ _ := trivial
  defaultValue _ := trivial
  creationValue _ _ := hgiven operation operation.self_mem_recipients _
  invocationValue hform hf :=
    ⟨trivial, (h.invocationValue hform ⟨hf.routine, hf.state, trivial⟩).2⟩
  conversionValue _ _ _ := trivial
  finalValue _ _ := hgiven operation operation.self_mem_recipients _
  assigned {target assigned value} hform _ :=
    hgiven target (by simp [Operation.recipients, hform]) value
  read _ _ := trivial
  writeCapture hform hf he _ :=
    h.writeCapture hform ⟨hf.routine, hf.state, trivial⟩ he trivial
  declare hdeclared _ := h.declare hdeclared trivial
  writeResult hform _ := h.writeResult hform trivial
  assign {target f value} hmem _ hf := by
    have hassigned : (Invariant.ofState routine property).Holds (A.assign target value f) :=
      h.assign hmem trivial ⟨hf.routine, hf.state, trivial⟩
    refine ⟨hassigned.routine, hassigned.state, ?_⟩
    rw [A.values_assign]
    exact hf.values
  reset := h.reset
  merge := h.merge

/-- If an operation comes to values with a property, then these are what it is given in the end. -/
theorem preserves_evaluate_ofValue {routine : Routine} {property : D → Prop} {Q : V → Prop}
    {operation : Operation}
    (h : Preserves (.ofState routine property) Q (A.evaluate operation)) :
    (Invariant.ofTable routine property
      (.ofValues fun id v => id = operation.id → Q v)).logic.AcceptsAt A operation := by
  intro m hm
  obtain ⟨hvalue, hholds⟩ := h m ⟨hm.routine, hm.state, trivial⟩
  refine ⟨fun _ => hvalue, hholds.routine, hholds.state, ?_⟩
  rintro id v hv rfl
  rw [get?_values_evaluate] at hv
  exact Option.some.inj hv ▸ hvalue

/-- After an assignment its target has the value of the operation that is assigned. -/
theorem preserves_evaluate_ofSame {routine : Routine} {property : D → Prop}
    {operation target assigned : Operation}
    (hform : operation.form = .simpleAssignment target assigned)
    (hid : operation.id ≠ target.id ∧ operation.id ≠ assigned.id) (hne : target.id ≠ assigned.id)
    (h : Preserves (.ofState routine property) (fun _ => True) (A.evaluate operation)) :
    (Invariant.ofTable routine property
      (.ofSame V target.id assigned.id)).logic.AcceptsAt A operation := by
  intro m hm
  have hholds := (h m ⟨hm.routine, hm.state, trivial⟩).2
  obtain ⟨before, value, settled, hassigned, hvalues⟩ :=
    values_evaluate_simpleAssignment (A := A) hform m
  refine ⟨hid, hholds.routine, hholds.state, ?_⟩
  show (outcome (A.evaluate operation) m).2.values.get? target.id =
    (outcome (A.evaluate operation) m).2.values.get? assigned.id
  rw [hvalues, get?_insert_of_id_ne hid.1, get?_insert_of_id_ne hid.2,
    Environment.get?_insert_self, get?_insert_of_id_ne hne, hassigned]

/-- The operation of an id keeps its value while no operation of the id is evaluated. -/
theorem Maintains.freezing (hA : A.Maintains I) (id : OperationId) (value? : Option V) :
    A.Maintains (I.freezing id value?) where
  unknown := hA.unknown
  mergeValue := hA.mergeValue
  defaultValue h hf := hA.defaultValue h.1 (Invariant.holds_freezing_iff.1 hf).1
  creationValue h hform hf := ⟨hA.creationValue h.1 hform (Invariant.holds_freezing_iff.1 hf).1,
    h.2 _ (Operation.self_mem_nodes _)⟩
  invocationValue h hform hf :=
    hA.invocationValue h.1 hform (Invariant.holds_freezing_iff.1 hf).1
  conversionValue h hform hf hvalue :=
    hA.conversionValue h.1 hform (Invariant.holds_freezing_iff.1 hf).1 hvalue
  finalValue h hf hvalue := ⟨hA.finalValue h.1 (Invariant.holds_freezing_iff.1 hf).1 hvalue,
    h.2 _ (Operation.self_mem_nodes _)⟩
  assigned {operation target assigned value} h hform hvalue := by
    have htarget : target ∈ operation.children := by
      simp [Operation.children, hform, Form.children]
    exact ⟨hA.assigned h.1 hform hvalue,
      Operation.nodes_part h.2 htarget target target.self_mem_nodes⟩
  beforeStatement hf := hA.beforeStatement (Invariant.holds_freezing_iff.1 hf).1
  denoted h hf := hA.denoted h.1 (Invariant.holds_freezing_iff.1 hf).1
  declared h := hA.declared h.1
  result h := hA.result h.1
  write := hA.write
  reset := hA.reset
  merge := hA.merge

/-- A property of states that is kept by all that the interpreter does, if it writes only to
writable entities and evaluates only operations that are allowed. -/
structure Keeps (A : Analysis V D) (I : Invariant V D) (property : D → Prop)
    (writable : Entity → Prop) (allowed : Operation → Prop) : Prop where
  invocation : ∀ {operation f}, I.Holds f → property f.data →
    property (A.invocationValue f operation operation.resultType).2
  beforeStatement : ∀ {f}, I.Holds f → property f.data → property (A.beforeStatement f)
  denoted : ∀ {operation f e}, I.Holds f → A.denoted? f operation = some e → writable e
  declared : ∀ symbol, writable (.ofLocal symbol)
  returning : ∀ {operation returned}, allowed operation →
    operation.form ≠ .returning (some returned)
  write : ∀ {e value a}, writable e → I.entity e → I.state a → property a →
    property (A.write e value a)
  reset : ∀ {condition a}, I.state a → property a → property (A.resetEntities condition a)
  merge : ∀ {a b}, I.state a → I.state b → property a → property b → property (A.mergeData a b)

theorem Maintains.keeping (hA : A.Maintains I) {property : D → Prop} {writable : Entity → Prop}
    {allowed : Operation → Prop} (hkeeps : A.Keeps I property writable allowed) :
    A.Maintains (I.keeping property writable allowed) where
  unknown := hA.unknown
  mergeValue := hA.mergeValue
  defaultValue h hf := hA.defaultValue h.1 (Invariant.holds_keeping_iff.1 hf).1
  creationValue h hform hf := hA.creationValue h.1 hform (Invariant.holds_keeping_iff.1 hf).1
  invocationValue h hform hf := by
    obtain ⟨hf, hproperty⟩ := Invariant.holds_keeping_iff.1 hf
    obtain ⟨hvalue, hstate⟩ := hA.invocationValue h.1 hform hf
    exact ⟨hvalue, hstate, hkeeps.invocation hf hproperty⟩
  conversionValue h hform hf hvalue :=
    hA.conversionValue h.1 hform (Invariant.holds_keeping_iff.1 hf).1 hvalue
  finalValue h hf hvalue := hA.finalValue h.1 (Invariant.holds_keeping_iff.1 hf).1 hvalue
  assigned h hform hvalue := hA.assigned h.1 hform hvalue
  beforeStatement hf := by
    obtain ⟨hf, hproperty⟩ := Invariant.holds_keeping_iff.1 hf
    exact ⟨hA.beforeStatement hf, hkeeps.beforeStatement hf hproperty⟩
  denoted h hf he := by
    obtain ⟨hf, -⟩ := Invariant.holds_keeping_iff.1 hf
    obtain ⟨hentity, hvalue⟩ := hA.denoted h.1 hf he
    exact ⟨⟨hentity, hkeeps.denoted hf he⟩, hvalue⟩
  declared h hdeclared := ⟨hA.declared h.1 hdeclared, hkeeps.declared _⟩
  result {operation returned} h hform :=
    absurd hform (hkeeps.returning (h.2 operation operation.self_mem_nodes))
  write he hvalue ha := ⟨hA.write he.1 hvalue ha.1, hkeeps.write he.2 he.1 ha.1 ha.2⟩
  reset ha := ⟨hA.reset ha.1, hkeeps.reset ha.1 ha.2⟩
  merge ha hb := ⟨hA.merge ha.1 hb.1, hkeeps.merge ha.1 hb.1 ha.2 hb.2⟩

end Analysis
end HeapFlow
