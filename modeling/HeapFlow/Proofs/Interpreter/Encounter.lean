import HeapFlow.Proofs.Interpreter.UniqueIds
import Mathlib.Logic.Relation

/-! # Where the evaluation of the parts of an operation starts

The evaluation of an operation comes to the operations of its tree, each in some machine.
`Analysis.starts` says from which machines the parts of an operation are evaluated, and
`Analysis.ComesTo` goes on from parts to parts of them.

Most operations evaluate their parts one after the other (`Analysis.inSequence`).  The two
alternatives of a conditional start from the same state, and creations allocate their objects before
what comes to depend on them.

What an invariant says of a machine it says of all machines that the evaluation comes to
(`Analysis.holds_comesTo`).
-/
namespace HeapFlow

/-- The machine within the initializer of a creation. -/
def Machine.entering {V D : Type} (m : Machine V D) (creation : OperationId) : Machine V D :=
  { m with creations := creation :: m.creations }

namespace Analysis

variable {V D : Type} [AbstractValue V] [EntityState D V] (A : Analysis V D)

/-- The operations, each with the machine that its evaluation starts from when they are evaluated
one after the other. -/
def inSequence : List Operation → Machine V D → List (Operation × Machine V D)
  | [], _ => []
  | operation :: operations, m =>
    (operation, m) :: inSequence operations (outcome (A.evaluate operation) m).2

/-- The parts that are evaluated along with an operation, each with the machine that its evaluation
starts from. -/
def starts (operation : Operation) (m : Machine V D) : List (Operation × Machine V D) :=
  let allocated (m : Machine V D) := (outcome (A.allocate operation) m).2
  let initializing (initializers : List Operation) (m : Machine V D) :=
    A.inSequence initializers (m.entering operation.id)
  match operation.form with
  | .nameOf _ => []
  | .simpleAssignment target assigned => A.inSequence (target.children ++ [assigned]) m
  | .objectCreation constructor? arguments initializer? =>
    let called := (outcome (do
      A.evaluateArguments arguments
      if constructor?.isSome then A.applyCall arguments false) (allocated m)).2
    A.inSequence (arguments.map (·.value)) (allocated m) ++
      initializing initializer?.toList called
  | .dynamicObjectCreation arguments initializer? =>
    let called := (outcome (do
      A.evaluateList arguments
      changeData A.resetHeap) (allocated m)).2
    A.inSequence arguments (allocated m) ++ initializing initializer?.toList called
  | .arrayCreation dimensionSizes initializer? =>
    A.inSequence dimensionSizes m ++
      initializing initializer?.toList (allocated (outcome (A.evaluateList dimensionSizes) m).2)
  | .typeParameterObjectCreation initializer? => initializing initializer?.toList (allocated m)
  | .anonymousObjectCreation initializers => initializing initializers (allocated m)
  | .delegateCreation target => [(target, allocated m)]
  | .conditional condition whenTrue whenFalse? =>
    let tested := (outcome (A.evaluate condition) m).2
    let afterTrue := (outcome (A.evaluate whenTrue) tested).2
    (condition, m) :: (whenTrue, tested) ::
      A.inSequence whenFalse?.toList { afterTrue with data := tested.data }
  | form => A.inSequence form.children m

/-- The evaluation of the first operation from the first machine comes to an evaluation of the
second operation from the second machine. -/
def ComesTo : Operation × Machine V D → Operation × Machine V D → Prop :=
  Relation.ReflTransGen fun start part => part ∈ A.starts start.1 start.2

theorem map_fst_inSequence (operations : List Operation) (m : Machine V D) :
    (A.inSequence operations m).map (·.1) = operations := by
  induction operations generalizing m with
  | nil => rfl
  | cons operation operations ih => rw [inSequence, List.map_cons, ih]

/-- The parts that are evaluated are those that are performed as a first part of the evaluation. -/
theorem map_fst_starts (operation : Operation) (m : Machine V D) :
    (A.starts operation m).map (·.1) = operation.performedChildren := by
  obtain ⟨id, form, type?, constant?⟩ := operation
  cases form with
  | nameOf | delegateCreation => rfl
  | conditional condition whenTrue whenFalse? =>
    simp [starts, Operation.performedChildren, Form.children, map_fst_inSequence]
  | _ =>
    simp only [starts, Operation.performedChildren, Form.children, List.map_append,
      map_fst_inSequence]

variable {A} {m : Machine V D}

theorem mem_of_mem_inSequence {operations : List Operation} {start : Operation × Machine V D}
    (h : start ∈ A.inSequence operations m) : start.1 ∈ operations :=
  A.map_fst_inSequence operations m ▸ List.mem_map_of_mem h

theorem mem_of_mem_starts {operation : Operation} {start : Operation × Machine V D}
    (h : start ∈ A.starts operation m) : start.1 ∈ operation.performedChildren :=
  A.map_fst_starts operation m ▸ List.mem_map_of_mem h

theorem exists_mem_starts {operation part : Operation} (h : part ∈ operation.performedChildren)
    (m : Machine V D) : ∃ n, (part, n) ∈ A.starts operation m := by
  rw [← A.map_fst_starts operation m] at h
  obtain ⟨start, hstart, rfl⟩ := List.mem_map.1 h
  exact ⟨start.2, hstart⟩

theorem routine_of_mem_inSequence {operations : List Operation} {start : Operation × Machine V D}
    (h : start ∈ A.inSequence operations m) : start.2.routine = m.routine := by
  induction operations generalizing m with
  | nil => cases h
  | cons operation operations ih =>
    rcases List.mem_cons.1 h with rfl | h
    · rfl
    · exact (ih h).trans (A.effect_evaluate operation m).routine

/-- What the evaluation of one of several trees has come to stays, if they have ids of their own. -/
theorem get?_values_inSequence {operations : List Operation}
    (hids : Operation.HaveUniqueIds operations) {start : Operation × Machine V D}
    (h : start ∈ A.inSequence operations m) {node : Operation} (hnode : node ∈ start.1.nodes) :
    (outcome (A.evaluateList operations) m).2.values.get? node.id =
      (outcome (A.evaluate start.1) start.2).2.values.get? node.id := by
  induction operations generalizing m with
  | nil => cases h
  | cons operation operations ih =>
    have hlist : (outcome (A.evaluateList (operation :: operations)) m).2 =
        (outcome (A.evaluateList operations) (outcome (A.evaluate operation) m).2).2 := by
      rw [evaluateList]
      rfl
    rw [hlist]
    rcases List.mem_cons.1 h with rfl | h
    · exact get?_values_evaluateList_of_lack (hids.lack_tail hnode) _
    · exact ih hids.tail h

/-- The call of a constructor gives no values to operations. -/
theorem effect_callConstructor (A : Analysis V D) (constructor? : Option Symbol)
    (arguments : List (Argument Operation)) (m : Machine V D) :
    Effect [] (outcome (A.evaluateArguments arguments) m).2 (outcome (do
      A.evaluateArguments arguments
      if constructor?.isSome then A.applyCall arguments false) m).2 := by
  cases constructor? with
  | none => exact .refl _
  | some constructor => exact (A.effects_applyCall arguments false _).2

/-! ## Invariants -/

section Invariant

variable {I : Invariant V D} (hA : A.Maintains I)
include hA

theorem holds_inSequence {operations : List Operation}
    (h : ∀ operation ∈ operations, I.operation operation) (hm : I.Holds m.toFrame) :
    ∀ start ∈ A.inSequence operations m, I.operation start.1 ∧ I.Holds start.2.toFrame := by
  induction operations generalizing m with
  | nil => exact fun start hstart => by cases hstart
  | cons operation operations ih =>
    intro start hstart
    have hoperation := h operation List.mem_cons_self
    rcases List.mem_cons.1 hstart with rfl | hstart
    · exact ⟨hoperation, hm⟩
    · exact ih (fun other hother => h other (List.mem_cons_of_mem operation hother))
        (preserves_evaluate hA hoperation m hm).2 start hstart

theorem holds_inSequence_append {before after : List Operation} {n : Machine V D}
    (h : ∀ operation ∈ before ++ after, I.operation operation) (hm : I.Holds m.toFrame)
    (hn : I.Holds n.toFrame) : ∀ start ∈ A.inSequence before m ++ A.inSequence after n,
      I.operation start.1 ∧ I.Holds start.2.toFrame := by
  intro start hstart
  rcases List.mem_append.1 hstart with hstart | hstart
  · exact holds_inSequence hA (fun part hpart => h part (List.mem_append_left _ hpart)) hm start
      hstart
  · exact holds_inSequence hA (fun part hpart => h part (List.mem_append_right _ hpart)) hn start
      hstart

theorem preserves_evaluateList {operations : List Operation}
    (h : ∀ operation ∈ operations, I.operation operation) :
    Preserves I (fun _ => True) (A.evaluateList operations) :=
  TracedLogic.runs_evaluateList (L := I.logic.traced) fun operation hmem =>
    preserves_evaluate hA (h operation hmem)

/-- An invariant of the machine from which an operation is evaluated holds of those from which its
parts are evaluated. -/
theorem holds_starts {operation : Operation} (hoperation : I.operation operation)
    (hm : I.Holds m.toFrame) :
    ∀ start ∈ A.starts operation m, I.operation start.1 ∧ I.Holds start.2.toFrame := by
  have hrules := rules_of_maintainsAt (hA.maintainsAt hoperation)
  have hchildren := I.part hoperation
  obtain ⟨id, form, type?, constant?⟩ := operation
  have hallocated : Form.isCreation form = true → ∀ n : Machine V D, I.Holds n.toFrame →
      I.Holds (outcome (A.allocate ⟨id, form, type?, constant?⟩) n).2.toFrame := fun hform n hn =>
    (hrules.allocate hform n hn).2
  have hentering : ∀ n : Machine V D, I.Holds n.toFrame → I.Holds (n.entering id).toFrame :=
    fun n hn => ⟨hn.routine, hn.state, hn.values⟩
  cases form with
  | nameOf => exact fun start hstart => by cases hstart
  | simpleAssignment target assigned =>
    refine holds_inSequence hA (fun part hpart => ?_) hm
    have htarget := hchildren target (by simp [Operation.children, Form.children])
    rcases List.mem_append.1 hpart with hpart | hpart
    · exact I.part htarget part hpart
    · obtain rfl := List.mem_singleton.1 hpart
      exact hchildren part (by simp [Operation.children, Form.children])
  | objectCreation constructor? arguments initializer? =>
    have hcall : Preserves (V := V) (D := D) I (fun _ => True)
        (if constructor?.isSome then A.applyCall arguments false else pure ()) := by
      cases constructor? with
      | none => exact preserves_pure trivial
      | some constructor => exact hrules.call (fun part hpart => hpart) false
    have hcalled : Preserves I (fun _ => True) (do
        A.evaluateArguments arguments
        if constructor?.isSome then A.applyCall arguments false) := by
      rw [A.evaluateArguments_eq]
      exact (preserves_evaluateList hA fun part hpart => hchildren part
        (List.mem_append_left _ hpart)).bind fun _ _ => hcall
    exact holds_inSequence_append hA hchildren (hallocated rfl m hm)
      (hentering _ (hcalled _ (hallocated rfl m hm)).2)
  | dynamicObjectCreation arguments initializer? =>
    have hcalled : Preserves I (fun _ => True) (do
        A.evaluateList arguments
        changeData A.resetHeap) :=
      (preserves_evaluateList hA fun part hpart => hchildren part
        (List.mem_append_left _ hpart)).bind fun _ _ => hrules.resetHeap
    exact holds_inSequence_append hA hchildren (hallocated rfl m hm)
      (hentering _ (hcalled _ (hallocated rfl m hm)).2)
  | arrayCreation dimensionSizes initializer? =>
    have hsizes : Preserves I (fun _ => True) (A.evaluateList dimensionSizes) :=
      preserves_evaluateList hA fun part hpart => hchildren part (List.mem_append_left _ hpart)
    exact holds_inSequence_append hA hchildren hm (hentering _ (hallocated rfl _ (hsizes m hm).2))
  | typeParameterObjectCreation | anonymousObjectCreation =>
    exact holds_inSequence hA hchildren (hentering _ (hallocated rfl m hm))
  | delegateCreation target =>
    intro start hstart
    obtain rfl := List.mem_singleton.1 hstart
    exact ⟨hchildren target List.mem_cons_self, hallocated rfl m hm⟩
  | conditional condition whenTrue whenFalse? =>
    let tested := (outcome (A.evaluate condition) m).2
    let afterTrue := (outcome (A.evaluate whenTrue) tested).2
    have htested : I.Holds tested.toFrame :=
      (preserves_evaluate hA (hchildren condition List.mem_cons_self) m hm).2
    have hafterTrue : I.Holds afterTrue.toFrame := (preserves_evaluate hA
      (hchildren whenTrue (List.mem_cons_of_mem _ List.mem_cons_self)) _ htested).2
    have hrestored : I.Holds { afterTrue.toFrame with data := tested.data } :=
      hafterTrue.withData htested.state
    have hparts : ∀ part ∈ [condition, whenTrue] ++ whenFalse?.toList, I.operation part := hchildren
    exact holds_inSequence_append hA (n := { afterTrue with data := tested.data }) hparts hm
      hrestored
  | _ => exact holds_inSequence hA hchildren hm

/-- **An invariant holds of all machines that an evaluation comes to.** -/
theorem holds_comesTo {start part : Operation × Machine V D} (h : A.ComesTo start part)
    (hoperation : I.operation start.1) (hm : I.Holds start.2.toFrame) :
    I.operation part.1 ∧ I.Holds part.2.toFrame := by
  induction h with
  | refl => exact ⟨hoperation, hm⟩
  | tail _ hpart ih => exact holds_starts hA ih.1 ih.2 _ hpart

end Invariant

end Analysis
end HeapFlow
