import HeapFlow.Proofs.Interpreter.Encounter

/-! # The record of what has been evaluated

The interpreter records which operations have been given values, and nothing that it does depends on
this record.  An evaluation adds the same to whatever is on record already
(`Analysis.outcome_evaluate_after`), and so does the interpretation of a block.  The evaluations
that it comes to are the same as well (`Analysis.starts_after`).
-/
namespace HeapFlow

variable {V D : Type}

/-- The machine after operations that were given values before all those that are on record. -/
def Machine.after (m : Machine V D) (earlier : List OperationId) : Machine V D :=
  { m with visited := m.visited ++ earlier }

/-- The action does the same whatever was on record before. -/
structure IgnoresRecord {α : Type} (Q : α → Prop) (action : Interp V D α) (m : Machine V D)
    (earlier : List OperationId) : Prop where
  result : Q (outcome action m).1
  outcome_eq : outcome action (m.after earlier) =
    ((outcome action m).1, (outcome action m).2.after earlier)

/-- The logic of the actions that do the same whatever was on record before. -/
def Logic.ignoringRecord (V D : Type) : Logic V D where
  Accepts Q action := ∀ m earlier, IgnoresRecord Q action m earlier
  value _ := True
  state _ := True
  given _ _ := True
  value_of_given := id
  pure ha _ _ := ⟨ha, rfl⟩
  bind {_ _ _ _ action next} haction hnext m earlier := by
    have h := haction m earlier
    have h' := hnext _ h.result (outcome action m).2 earlier
    refine ⟨h'.result, ?_⟩
    show outcome (next (outcome action (m.after earlier)).1)
      (outcome action (m.after earlier)).2 = _
    rw [h.outcome_eq]
    exact h'.outcome_eq

namespace Analysis

variable [AbstractValue V] [EntityState D V] (A : Analysis V D)

theorem rules_ignoringRecord (operation : Operation) :
    (Logic.ignoringRecord V D).Rules A operation where
  unknown := trivial
  merge _ _ := trivial
  data _ _ := ⟨trivial, rfl⟩
  restore _ _ _ := ⟨trivial, rfl⟩
  join _ _ _ := ⟨trivial, rfl⟩
  resetHeap _ _ := ⟨trivial, rfl⟩
  enter _ _ _ := ⟨trivial, rfl⟩
  leave _ _ := ⟨trivial, rfl⟩
  fallback _ _ := ⟨trivial, rfl⟩
  read _ _ := by
    refine ⟨trivial, ?_⟩
    rw [outcome_readReference, outcome_readReference]
    rfl
  known _ _ _ := by
    refine ⟨trivial, ?_⟩
    rw [outcome_knownValue, outcome_knownValue]
    rfl
  initialized _ _ := by
    refine ⟨trivial, ?_⟩
    rw [outcome_initializedValue, outcome_initializedValue]
    rfl
  allocate _ _ _ := ⟨trivial, rfl⟩
  returnFrom _ _ _ := ⟨trivial, rfl⟩
  writeCapture _ _ _ _ := by
    refine ⟨trivial, ?_⟩
    rw [outcome_writeCapture, outcome_writeCapture]
    rfl
  declare _ _ _ _ := ⟨trivial, rfl⟩
  convert _ _ _ _ := ⟨trivial, rfl⟩
  writeResult _ _ _ _ := by
    refine ⟨trivial, ?_⟩
    rw [outcome_writeResult, outcome_writeResult]
    rfl
  assignTo _ _ _ _ := ⟨trivial, rfl⟩
  give _ _ _ _ := ⟨trivial, rfl⟩
  call _ _ _ _ := ⟨trivial, rfl⟩
  settle _ _ _ := ⟨trivial, rfl⟩

theorem accepts_ignoringRecord (operation : Operation) :
    (Logic.ignoringRecord V D).AcceptsAt A operation :=
  Logic.accepts_evaluate fun node _ => .inr (A.rules_ignoringRecord node)

theorem runs_ignoringRecord (operations : List Operation) :
    (Logic.ignoringRecord V D).Runs (A.evaluateList operations) :=
  TracedLogic.runs_evaluateList (L := (Logic.ignoringRecord V D).traced) fun operation _ =>
    A.accepts_ignoringRecord operation

/-- **An evaluation does not depend on what is on record.** -/
theorem outcome_evaluate_after (operation : Operation) (m : Machine V D)
    (earlier : List OperationId) : outcome (A.evaluate operation) (m.after earlier) =
      ((outcome (A.evaluate operation) m).1, (outcome (A.evaluate operation) m).2.after earlier) :=
  (A.accepts_ignoringRecord operation m earlier).outcome_eq

theorem toFrame_evaluate (operation : Operation) {m n : Machine V D}
    (h : m.toFrame = n.toFrame) : (outcome (A.evaluate operation) m).2.toFrame =
      (outcome (A.evaluate operation) n).2.toFrame := by
  have hbare : ∀ m : Machine V D, (outcome (A.evaluate operation) m).2.toFrame =
      (outcome (A.evaluate operation) ⟨m.toFrame, []⟩).2.toFrame := fun m =>
    congrArg (·.2.toFrame) (A.outcome_evaluate_after operation ⟨m.toFrame, []⟩ m.visited)
  rw [hbare m, hbare n, h]

/-- **The interpretation of a block does not depend on what is on record.** -/
theorem outcome_evaluateBlock_after (block : Block) (m : Machine V D)
    (earlier : List OperationId) : outcome (A.evaluateBlock block) (m.after earlier) =
      ((outcome (A.evaluateBlock block) m).1,
        (outcome (A.evaluateBlock block) m).2.after earlier) :=
  have hstart : (Logic.ignoringRecord V D).AcceptsStart A := fun _ _ => ⟨trivial, rfl⟩
  (Logic.accepts_evaluateBlock hstart (fun statement _ => A.accepts_ignoringRecord statement) m
    earlier).outcome_eq

theorem outcome_evaluateStatement_after (statement : Operation) (m : Machine V D)
    (earlier : List OperationId) : outcome (A.evaluateStatement statement) (m.after earlier) =
      ((), (outcome (A.evaluateStatement statement) m).2.after earlier) :=
  have hstart : (Logic.ignoringRecord V D).traced.AcceptsStart A := fun _ _ => ⟨trivial, rfl⟩
  (TracedLogic.runs_evaluateStatement hstart (A.accepts_ignoringRecord statement) m
    earlier).outcome_eq

/-! ## What an evaluation comes to -/

/-- The evaluation with operations on record that were given values earlier. -/
def after (earlier : List OperationId) (start : Operation × Machine V D) :
    Operation × Machine V D :=
  (start.1, start.2.after earlier)

theorem inSequence_after (operations : List Operation) (m : Machine V D)
    (earlier : List OperationId) : A.inSequence operations (m.after earlier) =
      (A.inSequence operations m).map (after earlier) := by
  induction operations generalizing m with
  | nil => rfl
  | cons operation operations ih =>
    rw [inSequence, inSequence, List.map_cons, outcome_evaluate_after, ih]
    rfl

theorem inSequence_append_after (operations initializers : List Operation) (creation : OperationId)
    {m m' n n' : Machine V D} {earlier : List OperationId} (hm : m' = m.after earlier)
    (hn : n' = n.after earlier) :
    A.inSequence operations m' ++ A.inSequence initializers (n'.entering creation) =
      (A.inSequence operations m ++ A.inSequence initializers (n.entering creation)).map
        (after earlier) := by
  subst hm hn
  have hentering : (n.after earlier).entering creation = (n.entering creation).after earlier := rfl
  rw [hentering, inSequence_after, inSequence_after, List.map_append]

/-- **The evaluations that an evaluation comes to do not depend on what is on record.** -/
theorem starts_after (operation : Operation) (m : Machine V D) (earlier : List OperationId) :
    A.starts operation (m.after earlier) = (A.starts operation m).map (after earlier) := by
  obtain ⟨id, form, type?, constant?⟩ := operation
  have hallocated : ∀ n : Machine V D,
      (outcome (A.allocate ⟨id, form, type?, constant?⟩) (n.after earlier)).2 =
        (outcome (A.allocate ⟨id, form, type?, constant?⟩) n).2.after earlier := fun _ => rfl
  cases form with
  | nameOf | delegateCreation => rfl
  | objectCreation constructor? arguments initializer? =>
    refine A.inSequence_append_after (arguments.map (·.value)) initializer?.toList id
      (hallocated m) ?_
    have hcalled : (Logic.ignoringRecord V D).Runs (do
        A.evaluateArguments arguments
        if constructor?.isSome then A.applyCall arguments false) := by
      rw [A.evaluateArguments_eq]
      refine (Logic.ignoringRecord V D).bind (A.runs_ignoringRecord _) fun _ _ _ _ => ?_
      cases constructor? <;> exact ⟨trivial, rfl⟩
    exact congrArg Prod.snd (hcalled (outcome (A.allocate _) m).2 earlier).outcome_eq
  | dynamicObjectCreation arguments initializer? =>
    refine A.inSequence_append_after arguments initializer?.toList id (hallocated m) ?_
    have hcalled : (Logic.ignoringRecord V D).Runs (do
        A.evaluateList arguments
        changeData A.resetHeap) :=
      (Logic.ignoringRecord V D).bind (A.runs_ignoringRecord _) fun _ _ _ _ => ⟨trivial, rfl⟩
    exact congrArg Prod.snd (hcalled (outcome (A.allocate _) m).2 earlier).outcome_eq
  | arrayCreation dimensionSizes initializer? =>
    refine A.inSequence_append_after dimensionSizes initializer?.toList id rfl ?_
    rw [← hallocated]
    exact congrArg (fun n => (outcome (A.allocate _) n).2)
      (congrArg Prod.snd (A.runs_ignoringRecord dimensionSizes m earlier).outcome_eq)
  | typeParameterObjectCreation | anonymousObjectCreation =>
    exact A.inSequence_after _ ((outcome (A.allocate _) m).2.entering id) earlier
  | conditional condition whenTrue whenFalse? =>
    let tested := (outcome (A.evaluate condition) m).2
    let restored : Machine V D :=
      { (outcome (A.evaluate whenTrue) tested).2 with data := tested.data }
    simp only [starts, outcome_evaluate_after]
    exact congrArg (_ :: _ :: ·) (A.inSequence_after whenFalse?.toList restored earlier)
  | _ => exact A.inSequence_after _ m earlier

variable {A}

theorem ComesTo.after {start part : Operation × Machine V D} (h : A.ComesTo start part)
    (earlier : List OperationId) : A.ComesTo (after earlier start) (after earlier part) := by
  induction h with
  | refl => exact .refl
  | @tail found next _ hnext ih =>
    have hmem : Analysis.after earlier next ∈ A.starts found.1 (found.2.after earlier) := by
      rw [starts_after]
      exact List.mem_map_of_mem hnext
    exact ih.tail hmem

theorem exists_comesTo_of_after {start part : Operation × Machine V D}
    {earlier : List OperationId} (h : A.ComesTo (after earlier start) part) :
    ∃ found, A.ComesTo start found ∧ part = after earlier found := by
  induction h with
  | refl => exact ⟨start, .refl, rfl⟩
  | tail _ hpart ih =>
    obtain ⟨found, hfound, rfl⟩ := ih
    have hpart : _ ∈ A.starts found.1 (found.2.after earlier) := hpart
    rw [starts_after] at hpart
    obtain ⟨next, hnext, rfl⟩ := List.mem_map.1 hpart
    exact ⟨next, hfound.tail hnext, rfl⟩

end Analysis
end HeapFlow
