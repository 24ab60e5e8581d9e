import HeapFlow.Proofs.Interpreter.Invariant

/-! # What an evaluation does to a machine

Apart from the state and the values as such, what the evaluation of an operation does to a machine
is known beforehand: it is the effect of the steps of the operation (`Analysis.effect_evaluate`).
The operations whose values are settled are recorded in the order of the steps, operations that are
not given a value keep the one that they have, and the initializers that are entered are left again.

The effects of actions add up (`Effect.trans`), and so they are a logic that follows the steps
(`effects`).
-/
namespace HeapFlow

variable {V D : Type}

/-- What some steps do to a machine. -/
structure Effect (steps : List Step) (m m' : Machine V D) : Prop where
  routine : m'.routine = m.routine
  creations : m'.creations = m.creations
  visited : m'.visited = ((steps.filterMap Step.settled?).map (·.id)).reverse ++ m.visited
  kept : ∀ {id}, (∀ step ∈ steps, step.recipient.id ≠ id) →
    m'.values.get? id = m.values.get? id
  known : ∀ step ∈ steps, (m'.values.get? step.recipient.id).isSome = true

namespace Effect

variable {s t : List Step} {m m' m'' : Machine V D}

theorem refl (m : Machine V D) : Effect [] m m where
  routine := rfl
  creations := rfl
  visited := rfl
  kept _ := rfl
  known _ h := by cases h

/-- Changes of the state have no effect. -/
theorem ofData (m : Machine V D) (data : D) : Effect [] m { m with data } where
  routine := rfl
  creations := rfl
  visited := rfl
  kept _ := rfl
  known _ h := by cases h

/-- An operation that has a value keeps having one. -/
theorem isSome (h : Effect s m m') {id : OperationId} (hid : (m.values.get? id).isSome = true) :
    (m'.values.get? id).isSome = true := by
  by_cases hgiven : ∀ step ∈ s, step.recipient.id ≠ id
  · rw [h.kept hgiven]
    exact hid
  · push Not at hgiven
    obtain ⟨step, hstep, rfl⟩ := hgiven
    exact h.known step hstep

/-- An operation has a value afterwards if it had one before or is given one. -/
theorem isSome_iff (h : Effect s m m') {id : OperationId} :
    (m'.values.get? id).isSome = true ↔
      (m.values.get? id).isSome = true ∨ ∃ step ∈ s, step.recipient.id = id := by
  constructor
  · intro hid
    by_cases hgiven : ∀ step ∈ s, step.recipient.id ≠ id
    · rw [h.kept hgiven] at hid
      exact .inl hid
    · push Not at hgiven
      exact .inr hgiven
  · rintro (hid | ⟨step, hstep, rfl⟩)
    · exact h.isSome hid
    · exact h.known step hstep

/-- Without steps all values are kept. -/
theorem get?_values_of_nil (h : Effect [] m m') {id : OperationId} :
    m'.values.get? id = m.values.get? id :=
  h.kept fun _ hstep => by cases hstep

theorem trans (h : Effect s m m') (h' : Effect t m' m'') : Effect (s ++ t) m m'' where
  routine := h'.routine.trans h.routine
  creations := h'.creations.trans h.creations
  visited := by
    rw [h'.visited, h.visited]
    simp
  kept {id} hid := by
    rw [h'.kept fun step hstep => hid step (List.mem_append_right _ hstep),
      h.kept fun step hstep => hid step (List.mem_append_left _ hstep)]
  known step hstep := by
    rcases List.mem_append.1 hstep with hstep | hstep
    · exact h'.isSome (h.known step hstep)
    · exact h'.known step hstep

/-- What stands in an initializer has the same effect as outside of it. -/
theorem inside {creation : OperationId}
    (h : Effect s { m with creations := creation :: m.creations } m') :
    Effect s m { m' with creations := m'.creations.tail } where
  routine := h.routine
  creations := by
    show m'.creations.tail = m.creations
    rw [h.creations]
    rfl
  visited := h.visited
  kept := h.kept
  known := h.known

/-- An operation is given a value. -/
theorem ofCache (step : Step) (hstep : step.settled? = none) (m : Machine V D) (value : V) :
    Effect [step] m { m with values := m.values.insert step.recipient.id value } where
  routine := rfl
  creations := rfl
  visited := by simp [hstep]
  kept hid := get?_insert_of_id_ne (hid step List.mem_cons_self)
  known other hother := by
    obtain rfl := List.mem_singleton.1 hother
    simp

theorem ofSettled (operation : Operation) (m : Machine V D) (value : V) :
    Effect [.settles operation] m { m with
      values := m.values.insert operation.id value
      visited := operation.id :: m.visited } where
  routine := rfl
  creations := rfl
  visited := rfl
  kept hid := get?_insert_of_id_ne (hid _ List.mem_cons_self)
  known other hother := by
    obtain rfl := List.mem_singleton.1 hother
    simp [Step.recipient]

end Effect

namespace Analysis

variable [AbstractValue V] [EntityState D V] (A : Analysis V D)

variable (V D) in
/-- The logic of the actions that have the effect of the steps, whatever they result in. -/
def effects : TracedLogic V D where
  Accepts steps Q action :=
    ∀ m, Q (outcome action m).1 ∧ Effect steps m (outcome action m).2
  value _ := True
  state _ := True
  given _ _ := True
  value_of_given _ := trivial
  pure hQ m := ⟨hQ, .refl m⟩
  bind h hnext m := by
    obtain ⟨hQ, heffect⟩ := h m
    obtain ⟨hR, heffect'⟩ := hnext _ hQ _
    exact ⟨hR, heffect.trans heffect'⟩

omit [AbstractValue V] [EntityState D V] in
/-- An action that only changes the state has no effect. -/
theorem effects_of_data {α : Type} {action : Interp V D α} {data : Machine V D → D}
    (h : ∀ m, (outcome action m).2 = { m with data := data m }) :
    (effects V D).Accepts [] (fun _ => True) action := fun m => by
  refine ⟨trivial, ?_⟩
  rw [h m]
  exact .ofData m _

omit [AbstractValue V] [EntityState D V] in
/-- An action that changes nothing has no effect. -/
theorem effects_of_eq {α : Type} {action : Interp V D α} (h : ∀ m, (outcome action m).2 = m) :
    (effects V D).Accepts [] (fun _ => True) action :=
  effects_of_data fun m => show _ = { m with data := m.data } from h m

theorem effects_assignTo (target : Operation) (value : V) :
    (effects V D).Runs [] (A.assignTo target value) := fun m => by
  obtain ⟨data, hdata⟩ := A.exists_data_assign target value m.toFrame
  refine ⟨trivial, ?_⟩
  show Effect [] m { m with toFrame := A.assign target value m.toFrame }
  rw [hdata]
  exact .ofData m data

theorem effects_applyCall (arguments : List (Argument Operation)) (mayUpdateLocals : Bool) :
    (effects V D).Runs [] (A.applyCall arguments mayUpdateLocals) := by
  refine (effects V D).bind (effects_of_data fun _ => rfl) fun _ _ m => ?_
  obtain ⟨data, hdata⟩ := A.exists_data_assignUnknown
    (fun target (_ : target ∈ (arguments.filter (·.isWritable)).map (·.value)) f =>
      A.exists_data_assign target _ f) m.toFrame
  refine ⟨trivial, ?_⟩
  show Effect [] m { m with toFrame := A.assignUnknown _ m.toFrame }
  rw [hdata]
  exact .ofData m data

omit [AbstractValue V] [EntityState D V] in
/-- **To settle a value is to ask the analysis for the final one, once.**  The operation is put on
record along with this, and is given the answer.  No other step puts an operation on record
(`Effect.visited`). -/
theorem outcome_settle (operation : Operation) (value : V) (m : Machine V D) :
    outcome (A.settle operation value) m = (A.finalValue m.toFrame operation value, { m with
      values := m.values.insert operation.id (A.finalValue m.toFrame operation value)
      visited := operation.id :: m.visited }) := rfl

/-- The single steps of the evaluation of an operation have the effect that is claimed. -/
theorem effects_rules (operation : Operation) : (effects V D).Rules A operation where
  unknown := trivial
  merge _ _ := trivial
  data := effects_of_eq fun _ => rfl
  restore _ := effects_of_data fun _ => rfl
  join _ := effects_of_data fun _ => rfl
  resetHeap := effects_of_data fun _ => rfl
  inside h m := ⟨trivial, (h { m with creations := operation.id :: m.creations }).2.inside⟩
  fallback := effects_of_eq fun _ => rfl
  read := effects_of_eq fun m => by rw [outcome_readReference]
  known id := effects_of_eq fun m => by rw [outcome_knownValue]
  initialized := effects_of_eq fun m => by rw [outcome_initializedValue]
  allocate _ m := ⟨trivial, .ofCache (.allocates operation) rfl m _⟩
  returnFrom _ := effects_of_data fun _ => rfl
  writeCapture _ _ := effects_of_data fun m => by rw [outcome_writeCapture]
  declare _ _ := effects_of_data fun _ => rfl
  convert _ _ := effects_of_eq fun _ => rfl
  writeResult _ _ := effects_of_data fun m => by rw [outcome_writeResult]
  assignTo _ _ := A.effects_assignTo _ _
  give _ _ m := ⟨trivial, .ofCache (.gives _) rfl m _⟩
  call _ := A.effects_applyCall _
  settle _ m := by
    rw [outcome_settle]
    exact ⟨trivial, .ofSettled operation m _⟩

/-- **The evaluation of an operation has the effect of the steps of the operation.** -/
theorem effect_evaluate (operation : Operation) (m : Machine V D) :
    Effect operation.steps m (outcome (A.evaluate operation) m).2 :=
  (TracedLogic.accepts_evaluate (fun node _ => .inr (A.effects_rules node)) m).2

theorem effect_evaluateParts (operation : Operation) (m : Machine V D) :
    Effect operation.partSteps m (outcome (A.evaluateParts operation) m).2 :=
  (TracedLogic.runs_evaluateParts (L := effects V D) (fun _ _ =>
    TracedLogic.accepts_evaluate fun node _ => .inr (A.effects_rules node)) m).2

/-- **The interpretation of a block has the effect of the steps of its statements.** -/
theorem effect_evaluateBlock (block : Block) (m : Machine V D) :
    Effect (block.statements.flatMap Operation.steps) m (outcome (A.evaluateBlock block) m).2 :=
  (TracedLogic.accepts_evaluateBlock (L := effects V D) (effects_of_data fun _ => rfl) (fun _ _ =>
    TracedLogic.accepts_evaluate fun node _ => .inr (A.effects_rules node)) m).2

end Analysis
end HeapFlow
