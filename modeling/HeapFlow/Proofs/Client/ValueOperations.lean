import HeapFlow.Client.PointsTo
import HeapFlow.Proofs.Solver.OperationValues

/-! # Operations that refer to nothing

Constants and operations of a value type refer to nothing, and the points-to analysis settles on
`noLocation` for them, whatever it has come up with before.  The target of an assignment is the
exception: its value is not settled but copied from the operation that is assigned
(`Analysis.valueOf_target`).  So it has a location where the assigned operation has one
(`Routine.analyze_noLocation_iff`), as may happen if the type of that operation is not recorded
(`Routine.untypedAssignment_hasLocation`).
-/
namespace HeapFlow
namespace Routine

open PointsToAnalysis

variable {routine : Routine} (hids : routine.HasUniqueIds) {options : Options}
include hids

/-- An operation that refers to nothing has no location, unless it is the target of an
assignment. -/
theorem noLocation_of_not_target {operation : Operation} (hoperation : operation ∈ routine.nodes)
    (hnone : hasNoLocation operation = true)
    (htarget : ∀ assignment ∈ routine.performed, ∀ assigned,
      assignment.form ≠ .simpleAssignment operation assigned) {value : PointsTo}
    (hvalue : (routine.analyze options).flow.valueOf? operation.id = some value) :
    value = .noLocation := by
  have hsettled : ∀ f v, pointsToAnalysis.finalValue f operation v = .noLocation :=
    fun _ _ => if_pos hnone
  exact pointsToAnalysis.value_of_settled hids hoperation (Q := (· = .noLocation)) hsettled htarget
    hvalue

/-- **An operation that refers to nothing has no location**, unless it is the target of an
assignment of something that has one. -/
theorem analyze_noLocation_iff {operation : Operation} (hoperation : operation ∈ routine.nodes)
    (hnone : hasNoLocation operation = true) {value : PointsTo}
    (hvalue : (routine.analyze options).flow.valueOf? operation.id = some value) :
    value = .noLocation ↔ ∀ assignment ∈ routine.performed, ∀ assigned,
      assignment.form = .simpleAssignment operation assigned →
        (routine.analyze options).flow.valueOf? assigned.id = some .noLocation := by
  have hassigned : ∀ assignment ∈ routine.performed, ∀ assigned,
      assignment.form = .simpleAssignment operation assigned →
        (routine.analyze options).flow.valueOf? assigned.id = some value :=
    fun assignment hassignment assigned hform =>
      (pointsToAnalysis.valueOf_target hids hassignment hform).symm.trans hvalue
  refine ⟨fun heq assignment hassignment assigned hform => ?_, fun h => ?_⟩
  · exact heq ▸ hassigned assignment hassignment assigned hform
  · by_cases htarget : ∃ assignment ∈ routine.performed, ∃ assigned,
      assignment.form = .simpleAssignment operation assigned
    · obtain ⟨assignment, hassignment, assigned, hform⟩ := htarget
      exact Option.some.inj ((hassigned assignment hassignment assigned hform).symm.trans
        (h assignment hassignment assigned hform))
    · exact noLocation_of_not_target hids hoperation hnone
        (fun assignment hassignment assigned hform =>
          htarget ⟨assignment, hassignment, assigned, hform⟩) hvalue

/-- If what has no location is only assigned what has none, then all operations that refer to
nothing have no location. -/
theorem analyze_noLocation_of_assigned
    (hassigned : ∀ assignment ∈ routine.performed, ∀ target assigned,
      assignment.form = .simpleAssignment target assigned → hasNoLocation target = true →
        hasNoLocation assigned = true)
    {operation : Operation} (hoperation : operation ∈ routine.nodes)
    (hnone : hasNoLocation operation = true) {value : PointsTo}
    (hvalue : (routine.analyze options).flow.valueOf? operation.id = some value) :
    value = .noLocation := by
  by_cases htarget : ∃ assignment ∈ routine.performed, ∃ assigned,
    assignment.form = .simpleAssignment operation assigned
  · obtain ⟨assignment, hassignment, assigned, hform⟩ := htarget
    have hpart : assigned ∈ assignment.performedChildren := by
      rw [Operation.performedChildren, hform]
      simp
    have hperformed := routine.performed_of_part hassignment hpart
    have hcopied := (pointsToAnalysis.valueOf_target hids hassignment hform).symm.trans hvalue
    -- What is assigned is performed, so it is not itself the target of an assignment.
    exact noLocation_of_not_target hids (routine.performed_sublist.subset hperformed)
      (hassigned assignment hassignment operation assigned hform hnone)
      (fun other hother _ hother' => hids.ne_target hperformed hother hother' rfl) hcopied
  · exact noLocation_of_not_target hids hoperation hnone
      (fun assignment hassignment assigned hform =>
        htarget ⟨assignment, hassignment, assigned, hform⟩) hvalue

omit hids

/-- A local variable of a value type. -/
def sizeVariable : Symbol := .localVariable ⟨1⟩ "size" (.value "int")

/-- The reference that is assigned to. -/
def sizeReference : Operation :=
  (Operation.ofForm ⟨1⟩ (.localReference sizeVariable)).withType (.value "int")

/-- A routine that assigns a literal to the variable.  The type of the literal may be missing. -/
def sizeRoutine (type? : Option StaticType) : Routine where
  name := ""
  containingType? := none
  parameters := []
  returnType := .void
  graph := ⟨[⟨⟨0⟩, [.ofForm ⟨2⟩ (.simpleAssignment sizeReference ⟨⟨0⟩, .literal, type?, none⟩)],
    none, []⟩], by simp⟩

theorem sizeReference_mem (type? : Option StaticType) :
    sizeReference ∈ (sizeRoutine type?).nodes := .tail _ (.head _)

/-- The reference has no location if the literal has a type, for then the literal has none. -/
theorem sizeRoutine_noLocation_iff :
    (∀ assignment ∈ (sizeRoutine (some (.value "int"))).performed, ∀ assigned,
      assignment.form = .simpleAssignment sizeReference assigned →
        ((sizeRoutine (some (.value "int"))).analyze {}).flow.valueOf? assigned.id =
          some .noLocation) ∧
    ¬∀ assignment ∈ (sizeRoutine none).performed, ∀ assigned,
      assignment.form = .simpleAssignment sizeReference assigned →
        ((sizeRoutine none).analyze {}).flow.valueOf? assigned.id = some .noLocation := by
  have htyped : ((sizeRoutine (some (.value "int"))).analyze {}).flow.valueOf? sizeReference.id =
      some .noLocation := by decide
  have huntyped : ((sizeRoutine none).analyze {}).flow.valueOf? sizeReference.id =
      some .unknown := by decide
  refine ⟨(analyze_noLocation_iff (by decide) (sizeReference_mem _) (by decide) htyped).1 rfl,
    fun h => ?_⟩
  cases (analyze_noLocation_iff (by decide) (sizeReference_mem none) (by decide) huntyped).2 h

/-- **An operation of a value type may have a location**: if the type of the literal is not
recorded, the reference that it is assigned to seems to refer to anything. -/
theorem untypedAssignment_hasLocation :
    ¬∀ (routine : Routine) (options : Options), routine.HasUniqueIds →
      ∀ operation ∈ routine.nodes, hasNoLocation operation = true →
        ∀ value, (routine.analyze options).flow.valueOf? operation.id = some value →
          value = .noLocation := by
  intro h
  have hnone := h (sizeRoutine none) {} (by decide) sizeReference (sizeReference_mem none)
    (by decide) .unknown (by decide)
  cases hnone

end Routine
end HeapFlow
