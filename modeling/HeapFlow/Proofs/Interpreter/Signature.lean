import HeapFlow.Proofs.Interpreter.Logic

/-! # Routines that an analysis cannot tell apart

The interpreter knows of the routine that it works on, but an analysis may only look at parts of it:
the self instance, the return type, the initial state.  If it comes to the same decisions for two
routines (`Analysis.Confuses`), then the evaluation of an operation within the one routine is the
evaluation within the other one, step by step (`Analysis.Confuses.commutes_evaluate`), and so is the
interpretation of a block.
-/
namespace HeapFlow

variable {V D : Type}

/-- The frame in another routine. -/
def Frame.withRoutine (f : Frame V D) (routine : Routine) : Frame V D := { f with routine }

/-- The machine in another routine. -/
def Machine.withRoutine (m : Machine V D) (routine : Routine) : Machine V D := { m with routine }

/-- An action does the same in either routine, and its result has the property. -/
structure Commutes {α : Type} (routine routine' : Routine) (Q : α → Prop) (action : Interp V D α)
    (m : Machine V D) : Prop where
  result : Q (outcome action m).1
  routine_eq : (outcome action m).2.routine = routine
  outcome_eq : outcome action (m.withRoutine routine') =
    ((outcome action m).1, (outcome action m).2.withRoutine routine')

section Combinators

variable {α : Type} {routine routine' : Routine}

/-- The logic of the actions that do the same in either routine. -/
def Logic.commuting (V D : Type) (routine routine' : Routine) : Logic V D where
  Accepts Q action := ∀ m, m.routine = routine → Commutes routine routine' Q action m
  value _ := True
  state _ := True
  given _ _ := True
  value_of_given := id
  pure ha m hm := ⟨ha, hm, rfl⟩
  bind {_ _ _ _ action next} haction hnext m hm := by
    have h := haction m hm
    have h' := hnext _ h.result _ h.routine_eq
    refine ⟨h'.result, h'.routine_eq, ?_⟩
    show outcome (next (outcome action (m.withRoutine routine')).1)
      (outcome action (m.withRoutine routine')).2 = _
    rw [h.outcome_eq]
    exact h'.outcome_eq

/-- An action that looks at the frame and keeps it. -/
theorem commutes_of_reader {action : Interp V D α} (result : Frame V D → α)
    (haction : ∀ m, outcome action m = (result m.toFrame, m))
    (hresult : ∀ f, f.routine = routine → result (f.withRoutine routine') = result f) :
    (Logic.commuting V D routine routine').Accepts (fun _ => True) action := by
  refine fun m hm => ⟨trivial, ?_, ?_⟩
  · rw [haction]
    exact hm
  · rw [haction, haction]
    exact congrArg (·, m.withRoutine routine') (hresult m.toFrame hm)

/-- An action that changes the frame but for the routine. -/
theorem commutes_of_change {action : Interp V D α} (result : Frame V D → α)
    (change : Frame V D → Frame V D)
    (haction : ∀ m, outcome action m = (result m.toFrame, { m with toFrame := change m.toFrame }))
    (hresult : ∀ f, f.routine = routine → result (f.withRoutine routine') = result f)
    (hchange : ∀ f, f.routine = routine → (change f).routine = routine ∧
      change (f.withRoutine routine') = (change f).withRoutine routine') :
    (Logic.commuting V D routine routine').Accepts (fun _ => True) action := by
  refine fun m hm => ⟨trivial, ?_, ?_⟩
  · rw [haction]
    exact (hchange m.toFrame hm).1
  · rw [haction, haction]
    exact Prod.ext (hresult m.toFrame hm)
      (congrArg (fun f => Machine.mk f m.visited) (hchange m.toFrame hm).2)

/-- An action that changes the state. -/
theorem commutes_of_data {action : Interp V D Unit} (change : Frame V D → D)
    (haction : ∀ m, outcome action m = ((), { m with data := change m.toFrame }))
    (hchange : ∀ f, f.routine = routine → change (f.withRoutine routine') = change f) :
    (Logic.commuting V D routine routine').Runs action :=
  commutes_of_change (fun _ => ()) (fun f => { f with data := change f }) haction (fun _ _ => rfl)
    fun f hf => ⟨hf, by
      rw [hchange f hf]
      rfl⟩

theorem commutes_changeData (change : D → D) :
    (Logic.commuting V D routine routine').Runs (Analysis.changeData change) :=
  commutes_of_data (fun f => change f.data) (fun _ => rfl) fun _ _ => rfl

end Combinators

namespace Analysis

variable [AbstractValue V] [EntityState D V]

/-- The analysis comes to the same decisions for both routines. -/
structure Confuses (A : Analysis V D) (routine routine' : Routine) : Prop where
  self : routine'.self? = routine.self?
  returnType : routine'.returnType = routine.returnType
  initialState : A.initialState routine' = A.initialState routine
  defaultValue : ∀ f operation, f.routine = routine →
    A.defaultValue (f.withRoutine routine') operation = A.defaultValue f operation
  creationValue : ∀ f operation, f.routine = routine →
    A.creationValue (f.withRoutine routine') operation = A.creationValue f operation
  invocationValue : ∀ f operation type, f.routine = routine →
    A.invocationValue (f.withRoutine routine') operation type = A.invocationValue f operation type
  conversionValue : ∀ f operation kind value, f.routine = routine →
    A.conversionValue (f.withRoutine routine') operation kind value =
      A.conversionValue f operation kind value
  finalValue : ∀ f operation value, f.routine = routine →
    A.finalValue (f.withRoutine routine') operation value = A.finalValue f operation value
  beforeStatement : ∀ f, f.routine = routine →
    A.beforeStatement (f.withRoutine routine') = A.beforeStatement f
  pointsTo : ∀ f operation, f.routine = routine →
    A.pointsTo (f.withRoutine routine') operation = A.pointsTo f operation

namespace Confuses

variable {A : Analysis V D} {routine routine' : Routine} (hA : A.Confuses routine routine')
include hA

omit [AbstractValue V] [EntityState D V] in
theorem denoted?_eq (f : Frame V D) (operation : Operation) (hf : f.routine = routine) :
    A.denoted? (f.withRoutine routine') operation = A.denoted? f operation := by
  have hpointsTo : A.pointsTo (f.withRoutine routine') = A.pointsTo f :=
    funext fun other => hA.pointsTo f other hf
  show operation.denoted? routine'.self? _ = operation.denoted? f.routine.self? _
  rw [hpointsTo, hA.self, hf]

/-! ## Assignments -/

omit hA in
theorem assignUnknown_withRoutine {targets : List Operation}
    (h : ∀ target ∈ targets, ∀ f : Frame V D, f.routine = routine →
      (A.assign target AbstractValue.unknown f).routine = routine ∧
        A.assign target AbstractValue.unknown (f.withRoutine routine') =
          (A.assign target AbstractValue.unknown f).withRoutine routine') :
    ∀ f : Frame V D, f.routine = routine → (A.assignUnknown targets f).routine = routine ∧
      A.assignUnknown targets (f.withRoutine routine') =
        (A.assignUnknown targets f).withRoutine routine' := by
  induction targets with
  | nil => exact fun _ hf => ⟨hf, rfl⟩
  | cons target targets ih =>
    intro f hf
    obtain ⟨hroutine, heq⟩ := h target List.mem_cons_self f hf
    rw [assignUnknown, assignUnknown, heq]
    exact ih (fun other hother => h other (List.mem_cons_of_mem target hother)) _ hroutine

theorem assign_withRoutine (target : Operation) (value : V) (f : Frame V D)
    (hf : f.routine = routine) : (A.assign target value f).routine = routine ∧
      A.assign target value (f.withRoutine routine') =
        (A.assign target value f).withRoutine routine' := by
  -- The induction is for tuples, whose elements are assigned one after the other.
  induction target using Operation.induction_children generalizing value f with
  | h target ih =>
    obtain ⟨id, form, type?, constant?⟩ := target
    unfold assign
    rw [hA.denoted?_eq f _ hf]
    cases A.denoted? f ⟨id, form, type?, constant?⟩ with
    | some e => exact ⟨hf, rfl⟩
    | none =>
      cases form with
      | tuple elements =>
        refine assignUnknown_withRoutine (fun element hmem f hf => ?_) f hf
        exact ih element (show element ∈ Operation.children ⟨id, .tuple elements, type?, constant?⟩
          from hmem) AbstractValue.unknown f hf
      | propertyReference instance? property arguments =>
        cases arguments <;> exact ⟨hf, rfl⟩
      | _ => exact ⟨hf, rfl⟩

theorem commutes_assignTo (target : Operation) (value : V) :
    (Logic.commuting V D routine routine').Runs (A.assignTo target value) :=
  commutes_of_change (fun _ => ()) (A.assign target value) (fun _ => rfl) (fun _ _ => rfl)
    fun f hf => hA.assign_withRoutine target value f hf

theorem commutes_applyCall (arguments : List (Argument Operation)) (mayUpdateLocals : Bool) :
    (Logic.commuting V D routine routine').Runs (A.applyCall arguments mayUpdateLocals) :=
  (Logic.commuting V D routine routine').bind (commutes_changeData _) fun _ _ =>
    commutes_of_change (fun _ => ()) (A.assignUnknown (Form.writableValues arguments))
      (fun _ => rfl) (fun _ _ => rfl)
      (assignUnknown_withRoutine fun target _ f hf => hA.assign_withRoutine target _ f hf)

/-! ## Evaluation -/

/-- The single steps of the evaluation of an operation do the same in either routine. -/
theorem rules (operation : Operation) :
    (Logic.commuting V D routine routine').Rules A operation where
  unknown := trivial
  merge _ _ := trivial
  data := commutes_of_reader (fun f => f.data) (fun _ => rfl) fun _ _ => rfl
  restore _ := commutes_changeData _
  join _ := commutes_changeData _
  resetHeap := commutes_changeData _
  enter creation := commutes_of_change (fun _ => ())
    (fun f => { f with creations := creation :: f.creations }) (fun _ => rfl) (fun _ _ => rfl)
    fun _ hf => ⟨hf, rfl⟩
  leave := commutes_of_change (fun _ => ()) (fun f => { f with creations := f.creations.tail })
    (fun _ => rfl) (fun _ _ => rfl) fun _ hf => ⟨hf, rfl⟩
  fallback := commutes_of_reader (fun f => A.defaultValue f operation) (fun _ => rfl)
    fun f hf => hA.defaultValue f operation hf
  read := commutes_of_reader (A.referenceValue operation) (A.outcome_readReference operation)
    fun f hf => by
      rw [referenceValue, referenceValue, hA.denoted?_eq f operation hf,
        hA.defaultValue f operation hf]
      rfl
  known id := commutes_of_reader (fun f => (f.values.get? id).getD (A.defaultValue f operation))
    (fun m => A.outcome_knownValue operation m id) fun f hf =>
      congrArg (f.values.get? id).getD (hA.defaultValue f operation hf)
  initialized := commutes_of_reader (fun f => f.creationValue?.getD (A.defaultValue f operation))
    (A.outcome_initializedValue operation) fun f hf =>
      congrArg f.creationValue?.getD (hA.defaultValue f operation hf)
  allocate _ := commutes_of_change (fun f => A.creationValue f operation)
    (fun f => f.cache operation.id (A.creationValue f operation)) (fun _ => rfl)
    (fun f hf => hA.creationValue f operation hf) fun f hf => ⟨hf, by
      rw [hA.creationValue f operation hf]
      rfl⟩
  returnFrom _ := commutes_of_change (fun f => (A.invocationValue f operation _).1)
    (fun f => { f with data := (A.invocationValue f operation operation.resultType).2 })
    (fun _ => rfl) (fun f hf => by rw [hA.invocationValue f operation _ hf]) fun f hf => ⟨hf, by
      rw [hA.invocationValue f operation _ hf]
      rfl⟩
  writeCapture {_ _ value} _ _ := commutes_of_data (A.dataAfterCapture operation value)
    (fun m => A.outcome_writeCapture operation m value) fun f hf => by
      rw [dataAfterCapture, dataAfterCapture, hA.denoted?_eq f operation hf]
      rfl
  declare _ _ := commutes_changeData _
  convert {_ kind value} _ _ := commutes_of_reader
    (fun f => A.conversionValue f operation kind value) (fun _ => rfl)
    fun f hf => hA.conversionValue f operation kind value hf
  writeResult {_ value} _ _ := commutes_of_data (A.dataAfterReturn value)
    (fun m => A.outcome_writeResult m value) fun f hf => by
      have htype : (f.withRoutine routine').routine.returnType = f.routine.returnType :=
        hA.returnType.trans (congrArg Routine.returnType hf.symm)
      rw [dataAfterReturn, dataAfterReturn, htype]
      rfl
  assignTo _ _ := hA.commutes_assignTo _ _
  give {target _ value} _ _ := commutes_of_change (fun _ => ()) (fun f => f.cache target.id value)
    (fun _ => rfl) (fun _ _ => rfl) fun _ hf => ⟨hf, rfl⟩
  call _ mayUpdateLocals := hA.commutes_applyCall _ mayUpdateLocals
  settle {value} _ m hm := by
    have hsettle : ∀ k : Machine V D, outcome (A.settle operation value) k =
        (A.finalValue k.toFrame operation value,
          { k with
            toFrame := k.toFrame.cache operation.id (A.finalValue k.toFrame operation value)
            visited := operation.id :: k.visited }) := fun _ => rfl
    have hfinal : A.finalValue (m.withRoutine routine').toFrame operation value =
        A.finalValue m.toFrame operation value := hA.finalValue m.toFrame operation value hm
    refine ⟨trivial, hm, ?_⟩
    rw [hsettle, hsettle, hfinal]
    rfl

/-- **The evaluation of an operation does the same in either routine.** -/
theorem commutes_evaluate (operation : Operation) :
    (Logic.commuting V D routine routine').AcceptsAt A operation :=
  Logic.accepts_evaluate fun node _ => .inr (hA.rules node)

/-- The interpretation of a block does the same in either routine. -/
theorem commutes_evaluateBlock (block : Block) :
    (Logic.commuting V D routine routine').Accepts (fun _ => True) (A.evaluateBlock block) :=
  Logic.accepts_evaluateBlock (commutes_of_data A.beforeStatement (fun _ => rfl)
    fun f hf => hA.beforeStatement f hf) fun operation _ => hA.commutes_evaluate operation

end Confuses

end Analysis
end HeapFlow
