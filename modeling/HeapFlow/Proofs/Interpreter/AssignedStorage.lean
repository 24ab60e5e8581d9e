import HeapFlow.Client.PointsTo
import HeapFlow.Proofs.Interpreter.Recorded

/-! # Which storage an assignment writes

What a reference denotes depends on what its receiver refers to.  The receiver is the first part of
the reference that is evaluated, so that its value is known from the machine that the evaluation of
the reference starts from: `Analysis.entityFrom?` is the entity that the reference then denotes.

The storage is written later, after the assigned operation or further arguments have been evaluated,
and it is determined anew at that point.  But if operations have ids of their own, then the values
that matter are still the same (`Analysis.Current`), and so it is the entity of
`Analysis.entityFrom?` that is written (`Analysis.assignments_write_targets`).
-/
namespace HeapFlow

open Operation (HasUniqueIds HaveUniqueIds Lack)

namespace Operation

/-- What is consulted about a reference stands below the reference. -/
theorem exists_part_of_consulted {operation consulted : Operation}
    (h : consulted ∈ operation.consulted) :
    ∃ part ∈ operation.children, consulted ∈ part.nodes := by
  induction operation using induction_children with
  | h operation ih =>
    obtain ⟨part, hpart, hconsulted⟩ := exists_child_of_consulted h
    refine ⟨part, hpart, ?_⟩
    split at hconsulted
    · obtain ⟨below, hbelow, hnode⟩ := ih part hpart hconsulted
      exact mem_nodes_of_child hbelow hnode
    · exact hconsulted ▸ part.self_mem_nodes

end Operation

namespace Analysis

variable {V D : Type}

/-- What an operation refers to depends on the value of the operation at most. -/
def RefersByValue (A : Analysis V D) : Prop :=
  ∀ (f g : Frame V D) (operation : Operation),
    f.values.get? operation.id = g.values.get? operation.id →
      A.pointsTo f operation = A.pointsTo g operation

variable [AbstractValue V] [EntityState D V]

section Definitions

variable (A : Analysis V D)

/-- The entity that a reference denotes if its evaluation starts from the machine: its receiver, the
first part to be evaluated, refers to what it then comes to. -/
def entityFrom? (reference : Operation) (m : Machine V D) : Option Entity :=
  reference.denoted? m.routine.self? fun receiver =>
    A.pointsTo (outcome (A.evaluate receiver) m).2.toFrame receiver

/-- Forgets what an assignment may have updated whose target denotes no entity. -/
def forgetTarget (target : Operation) : D → D :=
  match target.form with
  | .propertyReference _ _ (_ :: _) => A.resetHeap
  | _ => A.forgetMembers target

/-- Writes a value to the storage that a reference denotes whose evaluation starts from the
machine. -/
def writeFrom (reference : Operation × Machine V D) (value : V) (data : D) : D :=
  match A.entityFrom? reference.1 reference.2 with
  | some e => A.write e value data
  | none => A.forgetTarget reference.1 data

/-- Writes a value to the storage of each of the references in turn. -/
def writeAllFrom (references : List (Operation × Machine V D)) (value : V) (data : D) : D :=
  references.foldl (fun data reference => A.writeFrom reference value data) data

mutual

/-- The references that are assigned to when an operation is, each with the machine that its
evaluation starts from, if that of the operation starts from the given one.  They are the elements
of a tuple, and in turn the elements of these, or else the operation itself. -/
def targetsFrom : Operation → Machine V D → List (Operation × Machine V D)
  | ⟨id, form, type?, constant?⟩, m =>
    match form with
    | .tuple elements => targetsInSequence elements m
    | _ => [(⟨id, form, type?, constant?⟩, m)]

/-- The references that are assigned to when each of the operations is. -/
def targetsInSequence : List Operation → Machine V D → List (Operation × Machine V D)
  | [], _ => []
  | operation :: operations, m =>
    targetsFrom operation m ++ targetsInSequence operations (outcome (A.evaluate operation) m).2

end

/-- The arguments that a callee can assign to, each with the machine that its evaluation starts
from, if that of all arguments starts from the given one. -/
def writableFrom (arguments : List (Argument Operation)) (m : Machine V D) :
    List (Operation × Machine V D) :=
  ((arguments.zip (A.inSequence (arguments.map (·.value)) m)).filter (·.1.isWritable)).map (·.2)

/-- What the references are assigned when the target is assigned the value.  The parts of the value
of a tuple are not known. -/
def assignedPart (target : Operation) (value : V) : V :=
  match target.form with
  | .tuple _ => AbstractValue.unknown
  | _ => value

/-- The frame knows the value that the receiver of the reference comes to. -/
structure Current (f : Frame V D) (reference : Operation × Machine V D) : Prop where
  routine : f.routine = reference.2.routine
  receiver : ∀ receiver ∈ reference.1.consulted, f.values.get? receiver.id =
    (outcome (A.evaluate receiver) reference.2).2.values.get? receiver.id

end Definitions

variable {A : Analysis V D} {f : Frame V D} {m : Machine V D}

/-! ## Targets -/

theorem targetsFrom_of_tuple {target : Operation} {elements : List Operation}
    (h : target.form = .tuple elements) :
    A.targetsFrom target m = A.targetsInSequence elements m := by
  obtain ⟨id, form, type?, constant?⟩ := target
  obtain rfl : form = .tuple elements := h
  rw [targetsFrom]

theorem targetsFrom_of_not_tuple {target : Operation}
    (h : ∀ elements, target.form ≠ .tuple elements) : A.targetsFrom target m = [(target, m)] := by
  obtain ⟨id, form, type?, constant?⟩ := target
  cases form with
  | tuple elements => exact absurd rfl (h elements)
  | _ => rfl

theorem targetsInSequence_eq (operations : List Operation) (m : Machine V D) :
    A.targetsInSequence operations m =
      (A.inSequence operations m).flatMap fun start => A.targetsFrom start.1 start.2 := by
  induction operations generalizing m with
  | nil => rfl
  | cons operation operations ih => rw [targetsInSequence, inSequence, List.flatMap_cons, ih]

omit [EntityState D V] in
theorem assignedPart_of_tuple {target : Operation} {elements : List Operation}
    (h : target.form = .tuple elements) (value : V) :
    assignedPart target value = AbstractValue.unknown := by
  rw [assignedPart, h]

theorem assignedPart_of_not_tuple {target : Operation}
    (h : ∀ elements, target.form ≠ .tuple elements) (value : V) :
    assignedPart target value = value := by
  unfold assignedPart
  split
  · next elements hform => exact absurd hform (h elements)
  · rfl

theorem assignedPart_unknown (target : Operation) :
    assignedPart target (AbstractValue.unknown : V) = AbstractValue.unknown := by
  unfold assignedPart
  split <;> rfl

theorem map_fst_writableFrom (arguments : List (Argument Operation)) (m : Machine V D) :
    (A.writableFrom arguments m).map (·.1) = Form.writableValues arguments := by
  induction arguments generalizing m with
  | nil => rfl
  | cons argument arguments ih =>
    have hrest := ih (outcome (A.evaluate argument.value) m).2
    simp only [writableFrom, Form.writableValues, List.map_cons, inSequence, List.zip_cons_cons,
      List.filter_cons] at hrest ⊢
    split
    · simp only [List.map_cons, hrest]
    · exact hrest

theorem mem_inSequence_of_writableFrom {arguments : List (Argument Operation)}
    {start : Operation × Machine V D} (h : start ∈ A.writableFrom arguments m) :
    start ∈ A.inSequence (arguments.map (·.value)) m := by
  obtain ⟨pair, hpair, rfl⟩ := List.mem_map.1 h
  exact (List.of_mem_zip (List.mem_of_mem_filter hpair)).2

/-- What is consulted about the references that are assigned to stands below the target. -/
theorem exists_part_of_targetsFrom {target : Operation} :
    ∀ {m : Machine V D}, ∀ reference ∈ A.targetsFrom target m,
      ∀ receiver ∈ reference.1.consulted, ∃ part ∈ target.children, receiver ∈ part.nodes := by
  induction target using Operation.induction_children with
  | h target ih =>
    intro m reference hreference receiver hreceiver
    by_cases htuple : ∃ elements, target.form = .tuple elements
    · obtain ⟨elements, hform⟩ := htuple
      rw [targetsFrom_of_tuple hform, targetsInSequence_eq] at hreference
      obtain ⟨start, hstart, hreference⟩ := List.mem_flatMap.1 hreference
      have hchild : start.1 ∈ target.children := by
        rw [Operation.children, hform]
        exact mem_of_mem_inSequence hstart
      obtain ⟨part, hpart, hnode⟩ := ih start.1 hchild reference hreference receiver hreceiver
      exact ⟨start.1, hchild, Operation.mem_nodes_of_child hpart hnode⟩
    · rw [targetsFrom_of_not_tuple (not_exists.1 htuple)] at hreference
      obtain rfl := List.mem_singleton.1 hreference
      exact Operation.exists_part_of_consulted hreceiver

/-! ## What is known of receivers -/

/-- The values that matter to the references may change hands. -/
theorem Current.of_values {target : Operation} {reference : Operation × Machine V D}
    (hreference : reference ∈ A.targetsFrom target m) (h : A.Current f reference) {g : Frame V D}
    (hroutine : g.routine = f.routine)
    (hvalues : ∀ part ∈ target.children, ∀ node ∈ part.nodes,
      g.values.get? node.id = f.values.get? node.id) : A.Current g reference where
  routine := hroutine.trans h.routine
  receiver receiver hreceiver := by
    obtain ⟨part, hpart, hnode⟩ :=
      exists_part_of_targetsFrom reference hreference receiver hreceiver
    exact (hvalues part hpart receiver hnode).trans (h.receiver receiver hreceiver)

/-- References to members evaluate their receivers and indices first. -/
theorem isSequential_of_consulted {target : Operation} (h : target.consulted ≠ []) :
    target.form.isSequential = true := by
  obtain ⟨id, form, type?, constant?⟩ := target
  cases form with
  | fieldReference | arrayElementReference | propertyReference => rfl
  | _ => exact absurd rfl h

/-- Reading what is assigned to leaves the values below it as they are. -/
theorem get?_values_evaluate_of_target {target : Operation} (hids : target.HasUniqueIds)
    (h : target.form.isSequential = true) (m : Machine V D) {part : Operation}
    (hpart : part ∈ target.children) {node : Operation} (hnode : node ∈ part.nodes) :
    (outcome (A.evaluate target) m).2.values.get? node.id =
      (outcome (A.evaluateParts target) m).2.values.get? node.id :=
  get?_values_evaluate_of_isSequential h (hids.lack_self part hpart node hnode)

/-- The receiver of a reference is the first of its parts that is evaluated. -/
theorem exists_rest_of_selected {target object : Operation} {place : Place} {type : StaticType}
    (h : target.selected? = some (object, place, type)) (m : Machine V D) :
    ∃ rest, target.children = object :: rest ∧ Effect (rest.flatMap Operation.steps)
      (outcome (A.evaluate object) m).2 (outcome (A.evaluateParts target) m).2 := by
  obtain ⟨rest, hrest⟩ : ∃ rest, target.children = object :: rest := by
    unfold Operation.selected? at h
    split at h <;> cases h <;> exact ⟨_, rfl⟩
  refine ⟨rest, hrest, ?_⟩
  rw [evaluateParts_eq, hrest, evaluateList]
  exact A.effect_evaluateList rest _

/-- **The receiver keeps the value that it comes to**, while further parts of the reference are
evaluated. -/
theorem get?_values_receiver {reference : Operation} (hids : reference.HasUniqueIds) :
    ∀ {m : Machine V D}, ∀ receiver ∈ reference.consulted,
      (outcome (A.evaluateParts reference) m).2.values.get? receiver.id =
        (outcome (A.evaluate receiver) m).2.values.get? receiver.id := by
  induction reference using Operation.induction_children with
  | h reference ih =>
    intro m receiver hreceiver
    cases hselected : reference.selected? with
    | none => simp [Operation.consulted_of_not_selected hselected] at hreceiver
    | some selection =>
      obtain ⟨object, place, type⟩ := selection
      obtain ⟨rest, hchildren, hrest⟩ := exists_rest_of_selected (A := A) hselected m
      have hunique := hids.haveUniqueIds
      have hobject := Operation.mem_children_of_selected hselected
      rw [hchildren] at hunique
      rw [Operation.consulted_of_selected hselected] at hreceiver
      by_cases hcopied : object.isCopied = true
      · rw [if_pos hcopied] at hreceiver
        obtain ⟨part, hpart, hnode⟩ := Operation.exists_part_of_consulted hreceiver
        rw [hrest.get?_values (hunique.lack_tail (Operation.mem_nodes_of_child hpart hnode)),
          get?_values_evaluate_of_target hunique.head
            (isSequential_of_consulted (List.ne_nil_of_mem hreceiver)) m hpart hnode,
          ih object hobject hunique.head receiver hreceiver]
      · rw [if_neg hcopied] at hreceiver
        obtain rfl := List.mem_singleton.1 hreceiver
        exact hrest.get?_values (hunique.lack_tail receiver.self_mem_nodes)

/-- What is known of the references once each of several operations has been evaluated is known
after all of them. -/
theorem current_evaluateList {operations : List Operation} (hids : HaveUniqueIds operations)
    (h : ∀ operation ∈ operations, ∀ {m : Machine V D}, ∀ reference ∈ A.targetsFrom operation m,
      A.Current (outcome (A.evaluate operation) m).2.toFrame reference)
    (m : Machine V D) : ∀ start ∈ A.inSequence operations m,
      ∀ reference ∈ A.targetsFrom start.1 start.2,
        A.Current (outcome (A.evaluateList operations) m).2.toFrame reference := by
  intro start hstart reference hreference
  refine (h start.1 (mem_of_mem_inSequence hstart) reference hreference).of_values hreference ?_
    fun part hpart node hnode =>
      get?_values_inSequence hids hstart (Operation.mem_nodes_of_child hpart hnode)
  exact (A.effect_evaluateList operations m).routine.trans
    ((A.effect_evaluate start.1 start.2).routine.trans (routine_of_mem_inSequence hstart)).symm

/-- Once the parts of a target have been evaluated, the receivers have the values that they have
come to. -/
theorem current_evaluateParts {target : Operation} (hids : target.HasUniqueIds) :
    ∀ {m : Machine V D}, ∀ reference ∈ A.targetsFrom target m,
      A.Current (outcome (A.evaluateParts target) m).2.toFrame reference ∧
        A.Current (outcome (A.evaluate target) m).2.toFrame reference := by
  induction target using Operation.induction_children with
  | h target ih =>
    intro m reference hreference
    have hroutine := (A.effect_evaluateParts target m).routine
    have hevaluate : target.form.isSequential = true →
        A.Current (outcome (A.evaluateParts target) m).2.toFrame reference →
          A.Current (outcome (A.evaluate target) m).2.toFrame reference := fun htarget h =>
      h.of_values hreference ((A.effect_evaluate target m).routine.trans hroutine.symm)
        fun part hpart node hnode => get?_values_evaluate_of_target hids htarget m hpart hnode
    by_cases htuple : ∃ elements, target.form = .tuple elements
    · obtain ⟨elements, hform⟩ := htuple
      have hparts : A.Current (outcome (A.evaluateParts target) m).2.toFrame reference := by
        have hchildren : target.children = elements := by
          rw [Operation.children, hform]
          rfl
        rw [targetsFrom_of_tuple hform, targetsInSequence_eq] at hreference
        obtain ⟨start, hstart, hreference⟩ := List.mem_flatMap.1 hreference
        rw [evaluateParts_eq, hchildren]
        exact current_evaluateList (hchildren ▸ hids.haveUniqueIds) (fun element helement m' =>
          fun reference hreference => (ih element (hchildren ▸ helement)
            (hids.of_child (hchildren ▸ helement)) reference hreference).2) m start hstart reference
              hreference
      exact ⟨hparts, hevaluate (by rw [hform]; rfl) hparts⟩
    · rw [targetsFrom_of_not_tuple (not_exists.1 htuple)] at hreference
      obtain rfl := List.mem_singleton.1 hreference
      have hparts : A.Current (outcome (A.evaluateParts target) m).2.toFrame (target, m) :=
        ⟨hroutine, get?_values_receiver hids⟩
      refine ⟨hparts, ?_⟩
      by_cases hconsulted : target.consulted = []
      · refine ⟨(A.effect_evaluate target m).routine, fun receiver hreceiver => ?_⟩
        rw [hconsulted] at hreceiver
        cases hreceiver
      · exact hevaluate (isSequential_of_consulted hconsulted) hparts

/-! ## What is written -/

theorem denoted?_of_current (hA : A.RefersByValue) {reference : Operation × Machine V D}
    (h : A.Current f reference) :
    A.denoted? f reference.1 = A.entityFrom? reference.1 reference.2 := by
  rw [denoted?, entityFrom?, h.routine]
  exact Operation.denoted?_congr _ _ fun receiver hreceiver =>
    hA _ _ receiver (h.receiver receiver hreceiver)

/-- Assigning to several operations writes to each of the references. -/
theorem data_assignUnknown {starts : List (Operation × Machine V D)}
    (h : ∀ start ∈ starts, ∀ f, (∀ reference ∈ A.targetsFrom start.1 start.2,
      A.Current f reference) → (A.assign start.1 AbstractValue.unknown f).data =
        A.writeAllFrom (A.targetsFrom start.1 start.2) AbstractValue.unknown f.data)
    (f : Frame V D) (hcurrent : ∀ start ∈ starts, ∀ reference ∈ A.targetsFrom start.1 start.2,
      A.Current f reference) :
    (A.assignUnknown (starts.map (·.1)) f).data =
      A.writeAllFrom (starts.flatMap fun start => A.targetsFrom start.1 start.2)
        AbstractValue.unknown f.data := by
  induction starts generalizing f with
  | nil => rfl
  | cons start starts ih =>
    obtain ⟨data, hdata⟩ := A.exists_data_assign start.1 AbstractValue.unknown f
    have hhead := h start List.mem_cons_self f (hcurrent start List.mem_cons_self)
    rw [hdata] at hhead
    rw [List.map_cons, assignUnknown, hdata, List.flatMap_cons, writeAllFrom, List.foldl_append]
    refine (ih (fun other hother => h other (List.mem_cons_of_mem start hother)) { f with data }
      fun other hother reference hreference => ?_).trans ?_
    · have hother := hcurrent other (List.mem_cons_of_mem start hother) reference hreference
      exact ⟨hother.routine, hother.receiver⟩
    · exact congrArg (A.writeAllFrom _ AbstractValue.unknown) hhead

/-- **An assignment writes to the references that are assigned to**, if the values of their
receivers are known.  The parts of the value of a tuple are not. -/
theorem data_assign (hA : A.RefersByValue) (target : Operation) (value : V) (f : Frame V D)
    (h : ∀ reference ∈ A.targetsFrom target m, A.Current f reference) :
    (A.assign target value f).data = A.writeAllFrom (A.targetsFrom target m)
      (assignedPart target value) f.data := by
  induction target using Operation.induction_children generalizing value f m with
  | h target ih =>
    by_cases htuple : ∃ elements, target.form = .tuple elements
    · obtain ⟨elements, hform⟩ := htuple
      rw [assignedPart_of_tuple hform]
      rw [targetsFrom_of_tuple hform, targetsInSequence_eq] at h ⊢
      obtain ⟨id, form, type?, constant?⟩ := target
      obtain rfl : form = .tuple elements := hform
      have hassign : A.assign ⟨id, .tuple elements, type?, constant?⟩ value f =
          A.assignUnknown elements f := by
        rw [assign]
        rfl
      have helements : ∀ start ∈ A.inSequence elements m, ∀ f,
          (∀ reference ∈ A.targetsFrom start.1 start.2, A.Current f reference) →
            (A.assign start.1 AbstractValue.unknown f).data =
              A.writeAllFrom (A.targetsFrom start.1 start.2) AbstractValue.unknown f.data := by
        intro start hstart f hcurrent
        rw [ih start.1 (mem_of_mem_inSequence hstart) AbstractValue.unknown f hcurrent,
          assignedPart_unknown]
      have hunknown := data_assignUnknown helements f fun start hstart reference hreference =>
        h reference (List.mem_flatMap.2 ⟨start, hstart, hreference⟩)
      rwa [A.map_fst_inSequence, ← hassign] at hunknown
    · have hnot := not_exists.1 htuple
      have hdenoted := denoted?_of_current hA (h (target, m)
        (by rw [targetsFrom_of_not_tuple hnot]; exact List.mem_singleton.2 rfl))
      rw [assignedPart_of_not_tuple hnot, targetsFrom_of_not_tuple hnot]
      show _ = A.writeFrom (target, m) value f.data
      unfold writeFrom
      rw [← hdenoted]
      obtain ⟨id, form, type?, constant?⟩ := target
      unfold assign
      cases A.denoted? f ⟨id, form, type?, constant?⟩ with
      | some e => rfl
      | none =>
        cases form with
        | tuple elements => exact absurd rfl (hnot elements)
        | propertyReference instance? property arguments => cases arguments <;> rfl
        | _ => rfl

theorem data_evaluate (operation : Operation) (m : Machine V D) :
    (outcome (A.evaluate operation) m).2.data =
      (outcome (A.evaluateForm operation operation.form) m).2.data := by
  rw [evaluate_eq]
  rfl

/-- The value of an assignment is computed without a change to what its target consults. -/
theorem current_evaluate_assigned {target assigned : Operation}
    (hids : HaveUniqueIds [target, assigned]) {reference : Operation × Machine V D}
    (hreference : reference ∈ A.targetsFrom target m) {n : Machine V D}
    (h : A.Current n.toFrame reference) :
    A.Current (outcome (A.evaluate assigned) n).2.toFrame reference :=
  h.of_values hreference (A.effect_evaluate assigned n).routine fun _ hpart _ hnode =>
    get?_values_evaluate_of_lack (hids.lack_tail (Operation.mem_nodes_of_child hpart hnode)) n

/-- **The right-hand side of an assignment cannot redirect the target.**  The evaluation of an
operation changes the values of operations of its tree only.  So if all operations of an assignment
have ids of their own, then what is written is the storage that the target denotes if its receiver
refers to what it has come to at the start, whatever the assigned operation does.  That is also what
the target denotes right before the assigned operation is evaluated.  The same holds of the storage
that a callee can write to: further arguments do not matter, and it is what an argument denotes
right after it has been evaluated. -/
theorem assignments_write_targets (A : Analysis V D) (hA : A.RefersByValue) :
    (∀ (operation : Operation) (m : Machine V D) (id : OperationId),
      (∀ node ∈ operation.nodes, node.id ≠ id) →
        (outcome (A.evaluate operation) m).2.values.get? id = m.values.get? id) ∧
    ∀ operation : Operation, operation.HasUniqueIds → ∀ m : Machine V D,
      (∀ target assigned, operation.form = .simpleAssignment target assigned →
        let located := (outcome (A.evaluateParts target) m).2
        let computed := outcome (A.evaluate assigned) located
        (outcome (A.evaluate operation) m).2.data = A.writeAllFrom (A.targetsFrom target m)
          (assignedPart target computed.1) computed.2.data ∧
        ∀ reference ∈ A.targetsFrom target m,
          A.denoted? located.toFrame reference.1 = A.entityFrom? reference.1 reference.2) ∧
      (∀ operator target assigned,
        operation.form = .compoundAssignment operator target assigned →
          let located := (outcome (A.evaluate target) m).2
          let computed := (outcome (A.evaluate assigned) located).2
          (outcome (A.evaluate operation) m).2.data = A.writeAllFrom (A.targetsFrom target m)
            (assignedPart target (A.defaultValue computed.toFrame operation)) computed.data ∧
          ∀ reference ∈ A.targetsFrom target m,
            A.denoted? located.toFrame reference.1 = A.entityFrom? reference.1 reference.2) ∧
      ∀ callee instance? arguments, operation.form = .invocation callee instance? arguments →
        let start := (outcome (do
          A.evaluateCallee callee
          A.evaluateOption instance?) m).2
        let called := (outcome (A.evaluateArguments arguments) start).2
        let returned := (A.invocationValue called.toFrame operation operation.resultType).2
        (outcome (A.evaluate operation) m).2.data = A.writeAllFrom
          ((A.writableFrom arguments start).flatMap fun argument =>
            A.targetsFrom argument.1 argument.2) AbstractValue.unknown
          ((if callee.mayUpdateLocals then A.resetAll else A.resetHeap) returned) ∧
        ∀ argument ∈ A.writableFrom arguments start,
          ∀ reference ∈ A.targetsFrom argument.1 argument.2,
            A.denoted? (outcome (A.evaluate argument.1) argument.2).2.toFrame reference.1 =
              A.entityFrom? reference.1 reference.2 := by
  refine ⟨fun operation m id hid => get?_values_evaluate_of_lack
    (Operation.lack_singleton.2 hid) m, fun operation hids m => ⟨?_, ?_, ?_⟩⟩
  · intro target assigned hform located computed
    have hunique : HaveUniqueIds [target, assigned] := by
      have hchildren := hids.haveUniqueIds
      rwa [Operation.children, hform] at hchildren
    have hlocated := fun reference hreference =>
      (current_evaluateParts hunique.head (A := A) (m := m) reference hreference).1
    refine ⟨?_, fun reference hreference => denoted?_of_current hA (hlocated reference hreference)⟩
    rw [data_evaluate, hform, evaluateForm]
    exact data_assign hA target computed.1 computed.2.toFrame fun reference hreference =>
      current_evaluate_assigned hunique hreference (hlocated reference hreference)
  · intro operator target assigned hform located computed
    have hunique : HaveUniqueIds [target, assigned] := by
      have hchildren := hids.haveUniqueIds
      rwa [Operation.children, hform] at hchildren
    have hlocated := fun reference hreference =>
      (current_evaluateParts hunique.head (A := A) (m := m) reference hreference).2
    refine ⟨?_, fun reference hreference => denoted?_of_current hA (hlocated reference hreference)⟩
    rw [data_evaluate, hform, evaluateForm]
    exact data_assign hA target _ computed.toFrame fun reference hreference =>
      current_evaluate_assigned hunique hreference (hlocated reference hreference)
  · intro callee instance? arguments hform start called returned
    have hunique : HaveUniqueIds (arguments.map (·.value)) := by
      have hchildren := hids.haveUniqueIds
      rw [Operation.children, hform] at hchildren
      exact hchildren.right
    have hargument : ∀ argument ∈ arguments.map (·.value), ∀ {m : Machine V D},
        ∀ reference ∈ A.targetsFrom argument m,
          A.Current (outcome (A.evaluate argument) m).2.toFrame reference :=
      fun argument hmem m reference hreference =>
        (current_evaluateParts (hunique.of_mem hmem) reference hreference).2
    have hcalled := current_evaluateList hunique hargument start
    rw [← A.evaluateArguments_eq] at hcalled
    refine ⟨?_, fun argument hmem reference hreference => denoted?_of_current hA (hargument
      argument.1 (mem_of_mem_inSequence (mem_inSequence_of_writableFrom hmem)) reference
        hreference)⟩
    have htype : operation.resultType = operation.type?.getD callee.returnType := by
      rw [Operation.resultType, hform]
    let reset := (if callee.mayUpdateLocals then A.resetAll else A.resetHeap) returned
    have hdata : (outcome (A.evaluate operation) m).2.data =
        (A.assignUnknown (Form.writableValues arguments)
          { called.toFrame with data := reset }).data := by
      rw [data_evaluate, hform, evaluateForm, ← htype]
      rfl
    rw [hdata, ← map_fst_writableFrom (A := A) arguments start]
    refine data_assignUnknown (fun argument hargument f hcurrent => ?_) _
      fun argument hargument reference hreference => ?_
    · rw [data_assign hA argument.1 _ f hcurrent, assignedPart_unknown]
    · have hknown := hcalled argument (mem_inSequence_of_writableFrom hargument) reference
        hreference
      exact ⟨hknown.routine, hknown.receiver⟩

end Analysis

/-! ## Analyses of which this holds -/

theorem pointsToAnalysis_refersByValue : pointsToAnalysis.RefersByValue := fun _ _ _ h =>
  congrArg (Option.getD · PointsTo.unknown) h

/-- A local variable. -/
def redirectedVariable : Symbol := .localVariable ⟨0⟩ "x" (.reference "A")

/-- The field `f` of the variable. -/
def redirectedField : Operation :=
  .ofForm ⟨1⟩ (.fieldReference (some (.ofForm ⟨0⟩ (.localReference redirectedVariable)))
    (.field ⟨1⟩ "f" (.reference "A")))

/-- The assignment of a new object to the variable. -/
def redirection : Operation :=
  .ofForm ⟨4⟩ (.simpleAssignment (.ofForm ⟨2⟩ (.localReference redirectedVariable))
    (.ofForm ⟨3⟩ (.objectCreation none [] none)))

/-- The assignment `x.f = (x = new A())`. -/
def redirectingAssignment : Operation :=
  .ofForm ⟨5⟩ (.simpleAssignment redirectedField redirection)

/-- A routine whose body is the assignment. -/
def redirectingRoutine : Routine :=
  ⟨"", none, [], .void, ⟨[⟨⟨0⟩, [redirectingAssignment], none, []⟩], List.cons_ne_nil _ _⟩⟩

/-- A machine in which the variable refers to the object of another creation. -/
def beforeRedirection : Machine PointsTo PointsToState :=
  let object : PointsTo := .ofLocation (.creation ⟨6⟩ (.reference "A"))
  ⟨⟨redirectingRoutine, Environment.empty.insert (.ofLocal redirectedVariable) object, .empty, []⟩,
    []⟩

/-- The field of the object is written that the variable referred to before. -/
theorem redirectingAssignment_writes_field :
    redirectingAssignment.HasUniqueIds ∧
      (pointsToAnalysis.entityFrom? redirectedField beforeRedirection).map (·.owner) =
        some (.ofLocation (.creation ⟨6⟩ (.reference "A"))) ∧
      (outcome (pointsToAnalysis.evaluate redirectingAssignment) beforeRedirection).2.data =
        pointsToAnalysis.writeAllFrom [(redirectedField, beforeRedirection)]
          (.ofLocation (.creation ⟨3⟩ .unknown))
          (outcome (pointsToAnalysis.evaluate redirection)
            (outcome (pointsToAnalysis.evaluateParts redirectedField)
              beforeRedirection).2).2.data := by
  have hids : redirectingAssignment.HasUniqueIds := by decide
  have hwrites := (((pointsToAnalysis.assignments_write_targets
    pointsToAnalysis_refersByValue).2 _ hids beforeRedirection).1 _ _ rfl).1
  exact ⟨hids, by decide, hwrites⟩

end HeapFlow
