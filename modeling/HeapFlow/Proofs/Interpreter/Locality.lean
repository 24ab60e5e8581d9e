import HeapFlow.Proofs.Entity.Identity
import HeapFlow.Proofs.Interpreter.Comparison

/-! # What an analysis has to respect

Evaluation respects a comparison if the decisions of the analysis do (`Analysis.Respects`): they
depend on what the frames that are compared have in common, and the states that they change stay the
same for the purpose of the comparison.  From this follows that every single step of the interpreter
is contained, and that sequences of operations are if the operations are.

Local analyses (`Analysis.Local`) look at the state, and at the values of the operations that have
been evaluated as parts of an operation or that are enclosing creations.  They respect the exact
comparison (`Analysis.Local.respects`): their evaluations are functions of the state.
-/
namespace HeapFlow

variable {V D : Type}

/-! ## Local analyses -/

/-- Two frames that have the same state, and the same values of the listed operations and of the
enclosing creations. -/
structure Frame.EqOn (ids : List OperationId) (f g : Frame V D) : Prop where
  routine : f.routine = g.routine
  data : f.data = g.data
  creations : f.creations = g.creations
  values : ∀ id, id ∈ ids ∨ id ∈ f.creations → f.values.get? id = g.values.get? id

/-- The decisions of the analysis about an operation depend on the routine and the state, and on the
values of the enclosing creations and of the operations that have been evaluated as parts of the
operation. -/
structure Analysis.Local (A : Analysis V D) : Prop where
  defaultValue : ∀ operation {f g : Frame V D}, f.EqOn operation.evaluatedBelow g →
    A.defaultValue f operation = A.defaultValue g operation
  creationValue : ∀ operation {f g : Frame V D}, f.EqOn operation.evaluatedFirst g →
    A.creationValue f operation = A.creationValue g operation
  invocationValue : ∀ operation type {f g : Frame V D}, f.EqOn operation.evaluatedBelow g →
    A.invocationValue f operation type = A.invocationValue g operation type
  conversionValue : ∀ operation kind value {f g : Frame V D}, f.EqOn operation.evaluatedBelow g →
    A.conversionValue f operation kind value = A.conversionValue g operation kind value
  finalValue : ∀ operation value {f g : Frame V D}, f.EqOn operation.evaluatedBelow g →
    A.finalValue f operation value = A.finalValue g operation value
  beforeStatement : ∀ {f g : Frame V D}, f.EqOn [] g → A.beforeStatement f = A.beforeStatement g
  pointsTo : ∀ operation {f g : Frame V D}, f.EqOn operation.evaluated g →
    A.pointsTo f operation = A.pointsTo g operation

/-! ## Respecting a comparison -/

variable [AbstractValue V] [EntityState D V]

/-- The decisions of the analysis respect the comparison. -/
structure Analysis.Respects (A : Analysis V D) (C : Comparison V D) : Prop where
  unknown : C.value AbstractValue.unknown
  mergeValue : ∀ {v w}, C.value v → C.value w → C.value (AbstractValue.merge v w)
  defaultValue : ∀ {operation}, C.operation operation →
    C.Decides operation.evaluatedBelow fun f => A.defaultValue f operation
  creationValue : ∀ {operation}, C.operation operation →
    C.Decides operation.evaluatedFirst fun f => A.creationValue f operation
  invocationValue : ∀ {operation}, C.operation operation →
    C.Decides operation.evaluatedBelow fun f =>
      (A.invocationValue f operation operation.resultType).1
  invocationData : ∀ {operation}, C.operation operation → ∀ {exact creations f g},
    Agree C exact operation.evaluatedBelow creations f g →
      C.same (A.invocationValue f operation operation.resultType).2
          (A.invocationValue g operation operation.resultType).2 ∧
        C.below f.data (A.invocationValue f operation operation.resultType).2 ∧
          (exact → (A.invocationValue f operation operation.resultType).2 =
            (A.invocationValue g operation operation.resultType).2)
  conversionValue : ∀ {operation}, C.operation operation → ∀ kind {value}, C.value value →
    C.Decides operation.evaluatedBelow fun f => A.conversionValue f operation kind value
  finalValue : ∀ {operation}, C.operation operation → ∀ {value}, C.value value →
    C.Decides operation.evaluatedBelow fun f => A.finalValue f operation value
  beforeStatement : ∀ {exact f g}, Agree C exact [] [] f g →
    C.same (A.beforeStatement f) (A.beforeStatement g) ∧ C.below f.data (A.beforeStatement f) ∧
      (exact → A.beforeStatement f = A.beforeStatement g)
  pointsTo : ∀ {operation}, C.operation operation → ∀ {exact creations f g},
    Agree C exact operation.evaluated creations f g →
      A.pointsTo f operation = A.pointsTo g operation
  denoted : ∀ {operation}, C.operation operation → ∀ {exact creations f g},
    Agree C exact (operation.consulted.flatMap Operation.evaluated) creations f g →
      ∀ {e}, A.denoted? f operation = some e → C.entity e
  declared : ∀ {operation}, C.operation operation → ∀ {symbol},
    operation.declared? = some symbol → C.entity (.ofLocal symbol)
  result : C.entity (.ofResult C.routine.returnType)
  read : ∀ {e}, C.entity e → ∀ {a b}, C.same a b → A.read a e = A.read b e ∧ C.value (A.read a e)
  write : ∀ {e}, C.entity e → ∀ {value}, C.value value → C.Keeps (A.write e value)
  forget : ∀ {condition : Entity → Bool},
    (∀ {e other : Entity}, e.same other = true → condition e = condition other) →
      C.Keeps (A.resetEntities condition)
  below_merge_left : ∀ a b, C.below a (A.mergeData a b)
  below_merge_right : ∀ a b, C.below b (A.mergeData a b)
  merge_self : ∀ {a b}, C.same a a → C.same b b → C.same (A.mergeData a b) (A.mergeData a b)
  /-- A merge that adds nothing to one of the states. -/
  merge : ∀ {a a' b b'}, C.same a a' → C.same b b' →
    C.below (A.mergeData a b) a ∨ C.below (A.mergeData a b) b →
      C.same (A.mergeData a b) (A.mergeData a' b')

omit [AbstractValue V] [EntityState D V] in
theorem Agree.eqOn {routine : Routine} {exact : Prop} {ids creations : List OperationId}
    {f g : Frame V D} (h : Agree (.exact routine) exact ids creations f g) : f.EqOn ids g where
  routine := h.routine_left.trans h.routine_right.symm
  data := h.data
  creations := h.creations_left.trans h.creations_right.symm
  values id hid := h.values id (by rwa [h.creations_left] at hid)

/-- The evaluations of a local analysis are functions of the state. -/
theorem Analysis.Local.respects {A : Analysis V D} (hA : A.Local) (routine : Routine) :
    A.Respects (.exact routine) where
  unknown := trivial
  mergeValue _ _ := trivial
  defaultValue _ _ _ _ _ h := ⟨hA.defaultValue _ h.eqOn, trivial⟩
  creationValue _ _ _ _ _ h := ⟨hA.creationValue _ h.eqOn, trivial⟩
  invocationValue _ _ _ _ _ h := ⟨congrArg Prod.fst (hA.invocationValue _ _ h.eqOn), trivial⟩
  invocationData _ _ _ _ _ h :=
    have heq := congrArg Prod.snd (hA.invocationValue _ _ h.eqOn)
    ⟨heq, trivial, fun _ => heq⟩
  conversionValue _ _ _ _ _ _ _ _ h := ⟨hA.conversionValue _ _ _ h.eqOn, trivial⟩
  finalValue _ _ _ _ _ _ _ h := ⟨hA.finalValue _ _ h.eqOn, trivial⟩
  beforeStatement h :=
    have heq := hA.beforeStatement h.eqOn
    ⟨heq, trivial, fun _ => heq⟩
  pointsTo _ _ _ _ _ h := hA.pointsTo _ h.eqOn
  denoted _ _ _ _ _ _ _ _ := trivial
  declared _ _ _ := trivial
  result := trivial
  read {e} _ _ _ h := ⟨congrArg (A.read · e) h, trivial⟩
  write _ _ _ := ⟨fun h => congrArg _ h, fun _ => trivial⟩
  forget _ := ⟨fun h => congrArg _ h, fun _ => trivial⟩
  below_merge_left _ _ := trivial
  below_merge_right _ _ := trivial
  merge_self _ _ := rfl
  merge := by
    rintro a _ b _ rfl rfl -
    rfl

namespace Analysis

variable {A : Analysis V D} {C : Comparison V D} {known creations : List OperationId}

/-! ## Single steps -/

section Steps

variable (hA : A.Respects C)
include hA

theorem Respects.resetAll : C.Keeps A.resetAll := hA.forget fun _ => rfl

theorem Respects.resetHeap : C.Keeps A.resetHeap := hA.forget Entity.isHeapMember_congr

theorem Respects.forgetMembers (target : Operation) : C.Keeps (A.forgetMembers target) := by
  unfold Analysis.forgetMembers
  split
  · exact hA.forget (Entity.isMember_congr _)
  · exact hA.forget (Entity.isMember_congr _)
  · exact hA.forget Entity.isElement_congr
  · exact ⟨fun h => h, C.below_refl⟩

variable {operation : Operation} (hoperation : C.operation operation)
include hoperation

theorem contained_fallback (hbelow : operation.evaluatedBelow ⊆ known) :
    Contained C known creations [] C.value (A.fallback operation) :=
  contained_of_reader (fun f => A.defaultValue f operation) (fun _ => rfl) fun h =>
    hA.defaultValue hoperation (h.mono hbelow)

/-- A receiver is the creation whose initializer encloses it. -/
theorem contained_knownValue (hbelow : operation.evaluatedBelow ⊆ known) {id : OperationId}
    (hid : id ∈ creations) :
    Contained C known creations [] C.value (A.knownValue id operation) := by
  refine contained_of_reader (fun f => (f.values.get? id).getD (A.defaultValue f operation))
    (fun m => A.outcome_knownValue operation m id) fun {exact f g} h => ?_
  obtain ⟨hdefault, hvalid⟩ : A.defaultValue f operation = A.defaultValue g operation ∧
      C.value (A.defaultValue f operation) := hA.defaultValue hoperation (h.mono hbelow)
  rw [← h.values id (.inr hid), ← hdefault]
  refine ⟨rfl, ?_⟩
  cases hvalue : f.values.get? id with
  | none => exact hvalid
  | some value => exact h.valid id (.inr hid) value hvalue

theorem contained_initializedValue (hbelow : operation.evaluatedBelow ⊆ known) :
    Contained C known creations [] C.value (A.initializedValue operation) := by
  refine contained_of_reader (fun f => f.creationValue?.getD (A.defaultValue f operation))
    (A.outcome_initializedValue operation) fun {exact f g} h => ?_
  obtain ⟨hdefault, hvalid⟩ : A.defaultValue f operation = A.defaultValue g operation ∧
      C.value (A.defaultValue f operation) := hA.defaultValue hoperation (h.mono hbelow)
  have hcreation : f.creationValue? = g.creationValue? ∧
      ∀ value, f.creationValue? = some value → C.value value := by
    unfold Frame.creationValue?
    rw [h.creations_left, h.creations_right]
    cases creations with
    | nil => exact ⟨rfl, by simp⟩
    | cons creation creations =>
      exact ⟨h.values creation (.inr List.mem_cons_self),
        h.valid creation (.inr List.mem_cons_self)⟩
  rw [← hcreation.1, ← hdefault]
  refine ⟨rfl, ?_⟩
  cases hvalue : f.creationValue? with
  | none => exact hvalid
  | some value => exact hcreation.2 value hvalue

theorem contained_allocate (hfirst : operation.evaluatedFirst ⊆ known) :
    Contained C known creations [operation.id] C.value (A.allocate operation) := by
  have hvalue : Contained C known creations [] C.value
      (frame >>= fun f => pure (A.creationValue f operation)) :=
    contained_of_reader (fun f => A.creationValue f operation) (fun _ => rfl) fun h =>
      hA.creationValue hoperation (h.mono hfirst)
  exact hvalue.bind fun _ hvalue => (contained_cache operation.id hvalue).bind fun _ _ =>
    contained_pure hvalue

theorem contained_conversionValue (hbelow : operation.evaluatedBelow ⊆ known)
    (kind : ConversionKind) {value : V} (hvalue : C.value value) :
    Contained C known creations [] C.value
      (frame >>= fun f => pure (A.conversionValue f operation kind value)) :=
  contained_of_reader (fun f => A.conversionValue f operation kind value) (fun _ => rfl) fun h =>
    hA.conversionValue hoperation kind hvalue (h.mono hbelow)

theorem contained_returnFrom (hbelow : operation.evaluatedBelow ⊆ known) {type : StaticType}
    (htype : operation.resultType = type) :
    Contained C known creations [] C.value (A.returnFrom operation type) := by
  subst htype
  have houtcome : ∀ k : Machine V D, outcome (A.returnFrom operation operation.resultType) k =
      ((A.invocationValue k.toFrame operation operation.resultType).1,
        { k with data := (A.invocationValue k.toFrame operation operation.resultType).2 }) :=
    fun _ => rfl
  refine ⟨fun {exact m n} h _ => ?_, fun {m} hm => ?_, fun {m} hm id _ => ?_⟩
  · obtain ⟨hvalue, hvalid⟩ := hA.invocationValue hoperation (h.mono hbelow)
    obtain ⟨hsame, -, heq⟩ := hA.invocationData hoperation (h.mono hbelow)
    rw [houtcome, houtcome, List.append_nil]
    exact ⟨hvalue, hvalid, h.routine_left, h.routine_right, hsame, heq, h.creations_left,
      h.creations_right, h.values, h.valid⟩
  · rw [houtcome]
    exact (hA.invocationData hoperation (hm.mono hbelow)).2.1
  · rw [houtcome]

theorem contained_settle (hbelow : operation.evaluatedBelow ⊆ known) {value : V}
    (hvalue : C.value value) :
    Contained C known creations [operation.id] C.value (A.settle operation value) := by
  have hfinal : Contained C known creations [] C.value
      (frame >>= fun f => pure (A.finalValue f operation value)) :=
    contained_of_reader (fun f => A.finalValue f operation value) (fun _ => rfl) fun h =>
      hA.finalValue hoperation hvalue (h.mono hbelow)
  have hvisited : ∀ known, Contained (V := V) (D := D) C known creations [] (fun _ => True)
      (modify fun machine => { machine with visited := operation.id :: machine.visited }) := by
    intro known
    refine ⟨fun {exact m n} h _ => ⟨rfl, trivial, ?_⟩, fun _ => C.below_refl _, fun _ _ _ => rfl⟩
    rw [List.append_nil]
    exact h
  exact hfinal.bind fun value hvalue => (hvisited _).bind fun _ _ =>
    (contained_cache operation.id hvalue).bind fun _ _ => contained_pure hvalue

/-! ## Reading and writing -/

omit [AbstractValue V] [EntityState D V] hA in
theorem operation_of_consulted :
    ∀ consulted ∈ operation.consulted, C.operation consulted :=
  operation.of_consulted (fun _ => C.part) hoperation

/-- What an operation denotes is decided by the values of the operations that it consults. -/
theorem denoted?_agree {exact : Prop} {f g : Frame V D} (h : Agree C exact known creations f g)
    (hconsulted : operation.consulted.flatMap Operation.evaluated ⊆ known) :
    A.denoted? f operation = A.denoted? g operation ∧
      ∀ e, A.denoted? f operation = some e → C.entity e := by
  refine ⟨?_, fun e he => hA.denoted hoperation (h.mono hconsulted) he⟩
  unfold denoted?
  rw [h.routine_left, h.routine_right]
  refine operation.denoted?_congr _ fun consulted hmem => ?_
  refine hA.pointsTo (operation_of_consulted hoperation consulted hmem) (h.mono fun id hid => ?_)
  exact hconsulted (List.mem_flatMap.2 ⟨consulted, hmem, hid⟩)

theorem contained_readReference (hbelow : operation.evaluatedBelow ⊆ known) :
    Contained C known creations [] C.value (A.readReference operation) := by
  refine contained_of_reader (A.referenceValue operation) (A.outcome_readReference operation)
    fun {exact f g} h => ?_
  obtain ⟨hdenoted, htracked⟩ := denoted?_agree hA hoperation h fun id hid =>
    hbelow (operation.mem_evaluatedBelow_of_consulted id hid)
  rw [referenceValue, referenceValue, ← hdenoted]
  cases he : A.denoted? f operation with
  | none => exact hA.defaultValue hoperation (h.mono hbelow)
  | some e => exact hA.read (htracked e he) h.data

omit hoperation

theorem contained_writeEntity {e : Entity} (he : C.entity e) {value : V} (hvalue : C.value value) :
    Contained C known creations [] (fun _ => True) (A.writeEntity e value) :=
  contained_changeData (hA.write he hvalue)

end Steps

/-! ## Assignments -/

theorem changesState_assignUnknown {targets : List Operation}
    (h : ∀ target ∈ targets,
      C.ChangesState known creations (A.assign target AbstractValue.unknown)) :
    C.ChangesState known creations (A.assignUnknown targets) := by
  induction targets with
  | nil => exact Comparison.changesState_id
  | cons target targets ih =>
    exact (h target List.mem_cons_self).comp
      (ih fun other hother => h other (List.mem_cons_of_mem target hother))

section Assignments

variable (hA : A.Respects C)
include hA

/-- An assignment changes the state, and the change depends on what was evaluated before. -/
theorem changesState_assign (target : Operation) (htarget : C.operation target)
    (hknown : target.AssignableWithin known) {value : V} (hvalue : C.value value) :
    C.ChangesState known creations (A.assign target value) := by
  -- The induction is for tuples, whose elements are assigned one after the other.
  induction target using Operation.induction_children generalizing value with
  | h target ih =>
    refine ⟨fun {exact f g} h => ?_⟩
    obtain ⟨hdenoted, htracked⟩ := denoted?_agree hA htarget h fun id hid => by
      obtain ⟨consulted, hconsulted, hid⟩ := List.mem_flatMap.1 hid
      exact hknown.consulted consulted hconsulted id hid
    obtain ⟨id, form, type?, constant?⟩ := target
    unfold assign
    rw [← hdenoted]
    cases he : A.denoted? f ⟨id, form, type?, constant?⟩ with
    | some e => exact (hA.write (htracked e he) hvalue).changesState.agree h
    | none =>
      cases form with
      | tuple elements =>
        refine (changesState_assignUnknown fun element hmem => ?_).agree h
        have hchild : element ∈ Operation.children ⟨id, .tuple elements, type?, constant?⟩ := hmem
        exact ih element hchild (C.part htarget element hchild)
          (element.assignableWithin_of_evaluated (hknown.elements elements rfl element hmem))
          hA.unknown
      | propertyReference instance? property arguments =>
        cases arguments with
        | nil => exact (hA.forgetMembers _).changesState.agree h
        | cons argument arguments => exact hA.resetHeap.changesState.agree h
      | _ => exact (hA.forgetMembers _).changesState.agree h

theorem contained_assignTo {target : Operation} (htarget : C.operation target)
    (hknown : target.AssignableWithin known) {value : V} (hvalue : C.value value) :
    Contained C known creations [] (fun _ => True) (A.assignTo target value) :=
  contained_changeFrame (changesState_assign hA target htarget hknown hvalue)

/-- The arguments that a callee can write to have been evaluated. -/
theorem contained_applyCall {arguments : List (Argument Operation)}
    (harguments : ∀ argument ∈ arguments, C.operation argument.value ∧
      argument.value.evaluated ⊆ known) (mayUpdateLocals : Bool) :
    Contained C known creations [] (fun _ => True) (A.applyCall arguments mayUpdateLocals) := by
  have hreset : C.Keeps (if mayUpdateLocals then A.resetAll else A.resetHeap) := by
    split
    · exact hA.resetAll
    · exact hA.resetHeap
  refine (contained_changeData hreset).step fun _ _ => contained_changeFrame ?_
  refine changesState_assignUnknown fun target htarget => ?_
  obtain ⟨argument, hargument, rfl⟩ := List.mem_map.1 htarget
  obtain ⟨hoperation, hevaluated⟩ := harguments argument (List.mem_filter.1 hargument).1
  exact changesState_assign hA argument.value hoperation
    (argument.value.assignableWithin_of_evaluated fun id hid => hevaluated hid) hA.unknown

/-! ## Alternatives -/

/-- Of two alternatives only one is taken.  Both start from the same state, and the states after
them are merged. -/
theorem contained_alternatives {α β : Type} {ids ids' : List OperationId} {Q : α → Prop}
    {R : β → Prop} {first : Interp V D α} {second : α → Interp V D β}
    (hfirst : Contained C known creations ids Q first)
    (hsecond : ∀ a, Q a → Contained C (known ++ ids) creations ids' R (second a)) :
    Contained C known creations (ids ++ ids') R
      (data >>= fun before => first >>= fun a => data >>= fun afterFirst =>
        changeData (fun _ => before) >>= fun _ => second a >>= fun b =>
          A.joinData afterFirst >>= fun _ => pure b) := by
  -- Between the alternatives the machine goes back to the state before the first one.
  let again (m : Machine V D) : Machine V D := { (outcome first m).2 with data := m.data }
  have hagain : ∀ {exact : Prop} {m n : Machine V D},
      Agree C exact known creations m.toFrame n.toFrame →
        Agree C exact (known ++ ids) creations (outcome first m).2.toFrame
            (outcome first n).2.toFrame →
          Agree C exact (known ++ ids) creations (again m).toFrame (again n).toFrame :=
    fun hbefore hafter => ⟨hafter.routine_left, hafter.routine_right, hbefore.data,
      hbefore.data_eq, hafter.creations_left, hafter.creations_right, hafter.values, hafter.valid⟩
  let last (m : Machine V D) : β × Machine V D := outcome (second (outcome first m).1) (again m)
  let merged (m : Machine V D) : D := A.mergeData (outcome first m).2.data (last m).2.data
  have houtcome : ∀ m : Machine V D, outcome (data >>= fun before => first >>= fun a =>
      data >>= fun afterFirst => changeData (fun _ => before) >>= fun _ => second a >>= fun b =>
        A.joinData afterFirst >>= fun _ => pure b) m =
      ((last m).1, { (last m).2 with data := merged m }) := fun _ => rfl
  have hstart : ∀ {m : Machine V D}, Agree C True known creations m.toFrame m.toFrame →
      Q (outcome first m).1 ∧
        Agree C True (known ++ ids) creations (again m).toFrame (again m).toFrame :=
    fun hm => ⟨(hfirst.self hm).1, hagain hm (hfirst.self hm).2⟩
  refine ⟨fun {exact m n} h hadds => ?_, fun {m} hm => ?_, fun {m} hm id hid => ?_⟩
  · rw [houtcome] at hadds
    rw [houtcome, houtcome]
    obtain ⟨hQ, hfit⟩ := hstart h.left
    obtain ⟨hresult, -, hafter⟩ := hfirst.agree h
      (hadds.imp_right fun hadds => C.below_trans (hA.below_merge_left _ _) hadds)
    have hlast : last n = outcome (second (outcome first m).1) (again n) := by
      show outcome (second (outcome first n).1) (again n) = _
      rw [hresult]
    have hend := (hsecond _ hQ).agree (hagain h hafter)
      (hadds.imp_right fun hadds => C.below_trans (hA.below_merge_right _ _) hadds)
    rw [← hlast] at hend
    obtain ⟨hresult', hR, hend⟩ := hend
    have heq : exact → merged m = merged n := by
      intro hexact
      show A.mergeData _ _ = A.mergeData _ _
      rw [hafter.data_eq hexact, hend.data_eq hexact]
    have hsame : C.same (merged m) (merged n) := by
      rcases hadds with hexact | hadds
      · rw [← heq hexact]
        exact hA.merge_self (C.same_left hafter.data) (C.same_left hend.data)
      · exact hA.merge hafter.data hend.data
          (.inr (C.below_trans hadds ((hsecond _ hQ).grows hfit)))
    rw [List.append_assoc] at hend
    exact ⟨hresult', hR, hend.routine_left, hend.routine_right, hsame, heq, hend.creations_left,
      hend.creations_right, hend.values, hend.valid⟩
  · exact C.below_trans (hfirst.grows hm) (hA.below_merge_left _ _)
  · obtain ⟨hQ, hfit⟩ := hstart hm
    rw [List.mem_append, not_or] at hid
    exact ((hsecond _ hQ).outside hfit hid.2).trans (hfirst.outside hm hid.1)

end Assignments

/-! ## Sequences of operations -/

variable (A C) in
/-- The evaluation of the operation is contained, within the initializers of the given creations. -/
def Evaluates (creations : List OperationId) (operation : Operation) : Prop :=
  ∀ known, Contained C known creations operation.evaluated C.value (A.evaluate operation)

variable (A C) in
/-- The evaluation of the parts of the operation is contained. -/
def EvaluatesParts (creations : List OperationId) (operation : Operation) : Prop :=
  ∀ known, Contained C known creations operation.evaluatedParts (fun _ => True)
    (A.evaluateParts operation)

section Sequences

theorem contained_evaluateList {parts : List Operation}
    (h : ∀ part ∈ parts, A.Evaluates C creations part) :
    Contained C known creations (parts.flatMap Operation.evaluated) (fun _ => True)
      (A.evaluateList parts) := by
  induction parts generalizing known with
  | nil =>
    rw [evaluateList]
    exact contained_pure trivial
  | cons part parts ih =>
    rw [evaluateList, List.flatMap_cons]
    exact (h part List.mem_cons_self _).discard.bind fun _ _ =>
      ih fun p hp => h p (List.mem_cons_of_mem part hp)

theorem contained_evaluateOption {part? : Option Operation}
    (h : ∀ part ∈ part?.toList, A.Evaluates C creations part) :
    Contained C known creations (part?.toList.flatMap Operation.evaluated) (fun _ => True)
      (A.evaluateOption part?) := by
  rw [A.evaluateOption_eq]
  exact contained_evaluateList h

theorem contained_evaluateArguments {arguments : List (Argument Operation)}
    (h : ∀ argument ∈ arguments, A.Evaluates C creations argument.value) :
    Contained C known creations (arguments.flatMap fun argument => argument.value.evaluated)
      (fun _ => True) (A.evaluateArguments arguments) := by
  rw [A.evaluateArguments_eq, ← List.flatMap_map]
  exact contained_evaluateList (List.forall_mem_map.2 h)

theorem contained_evaluateCallee {callee : Callee Operation}
    (h : ∀ part ∈ callee.target?.toList, A.Evaluates C creations part) :
    Contained C known creations (callee.target?.toList.flatMap Operation.evaluated)
      (fun _ => True) (A.evaluateCallee callee) := by
  rw [A.evaluateCallee_eq]
  exact contained_evaluateList h

theorem contained_evaluateInitializer {creation : OperationId} {initializer? : Option Operation}
    (h : ∀ initializer ∈ initializer?.toList, A.Evaluates C (creation :: creations) initializer)
    (hcreation : creation ∈ known) :
    Contained C known creations (initializer?.toList.flatMap Operation.evaluated) (fun _ => True)
      (A.evaluateInitializer creation initializer?) := by
  cases initializer? with
  | none =>
    rw [evaluateInitializer]
    exact contained_pure trivial
  | some initializer =>
    rw [evaluateInitializer]
    exact (contained_inInitializer (h initializer (by simp) known).discard hcreation).congr
      (by simp)

end Sequences

end Analysis
end HeapFlow
