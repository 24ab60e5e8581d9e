import HeapFlow.Client.PointsTo
import HeapFlow.Proofs.Solver.OrderIndependence

/-! # What the worklist order decides

The points-to analysis comes to the same result in both worklist orders as long as loops are taken
up one after the other (`Routine.analyze_agree_of_sequential`).  In general the two orders may visit
the blocks of a loop a different number of times, and the widening of the entry state of the loop
anchor depends on that (`Routine.twoLoops_depends_on_order`).  The results agree exactly if they
agree on the entry states of the loop heads (`Routine.analyze_agree_iff`).
-/
namespace HeapFlow

theorem Environment.eq_of_entries {K V : Type} [Key K] {a b : Environment K V}
    (h : a.entries = b.entries) : a = b := by
  cases a
  cases b
  cases h
  rfl

theorem pointsToAnalysis_local : pointsToAnalysis.Local where
  defaultValue _ _ _ _ := rfl
  creationValue _ _ _ _ := rfl
  invocationValue operation type _ _ h :=
    congrArg (Prod.mk (PointsToAnalysis.invocationValue operation type)) h.data
  conversionValue _ _ _ _ _ _ := rfl
  finalValue _ _ _ _ _ := rfl
  beforeStatement h := congrArg₂ PointsToAnalysis.bindSelf h.routine h.data
  pointsTo operation _ _ h :=
    congrArg (fun value? => value?.getD PointsTo.unknown)
      (h.values _ (.inl operation.id_mem_evaluated))

/-- Two results that say the same about the blocks, the operations and the callers of a routine. -/
structure PointsToResult.Agree (r s : PointsToResult) : Prop where
  entryState : ∀ id, r.flow.entryState? id = s.flow.entryState? id
  exitState : ∀ id, r.flow.exitState? id = s.flow.exitState? id
  value : ∀ id, r.flow.valueOf? id = s.flow.valueOf? id
  summary : r.summary = s.summary

/-- The options with the given worklist order. -/
def Options.withOrder (options : Options) (order : WorklistOrder) : Options :=
  { options with worklistOrder := order }

namespace Routine

variable (routine : Routine) (options : Options)

/-- The result of the analysis follows from the visits of the blocks. -/
theorem agree_of_visits_eq (hids : routine.HasUniqueIds) (hreceivers : routine.HasEnclosedReceivers)
    {options options' : Options}
    (hlimit : (routine.analyze options).flow.reachedLimit = false)
    (hlimit' : (routine.analyze options').flow.reachedLimit = false)
    (h : ∀ id, (pointsToAnalysis.finalState routine options).visits.get? id =
      (pointsToAnalysis.finalState routine options').visits.get? id) :
    (routine.analyze options).Agree (routine.analyze options') where
  entryState id := congrArg (Option.map Visit.entry) (h id)
  exitState id := congrArg (Option.map Visit.exit) (h id)
  value id := (pointsToAnalysis.determined_finalState pointsToAnalysis_local hids
    hreceivers).values_ext (pointsToAnalysis.determined_finalState pointsToAnalysis_local hids
      hreceivers) h id
  summary := by
    have hfinal : (routine.analyze options).flow.finalState? =
        (routine.analyze options').flow.finalState? := congrArg (Option.map Visit.exit) (h _)
    show Summary.ofFinalState routine (routine.analyze options).flow.finalState?
        (routine.analyze options).flow.reachedLimit =
      Summary.ofFinalState routine (routine.analyze options').flow.finalState?
        (routine.analyze options').flow.reachedLimit
    rw [hfinal, hlimit, hlimit']

/-- If the whole graph is sequential, the worklist order does not matter. -/
theorem analyze_agree_of_sequential (hids : routine.HasUniqueIds)
    (hreceivers : routine.HasEnclosedReceivers)
    (hgraph : routine.schedule.Sequential routine.schedule.order)
    (hearliest : (routine.analyze (options.withOrder .earliestFirst)).flow.reachedLimit = false)
    (hlatest : (routine.analyze (options.withOrder .latestFirst)).flow.reachedLimit = false) :
    (routine.analyze (options.withOrder .earliestFirst)).Agree
      (routine.analyze (options.withOrder .latestFirst)) := by
  have hwiden : (options.withOrder .earliestFirst).widenAfter =
      (options.withOrder .latestFirst).widenAfter := rfl
  refine routine.agree_of_visits_eq hids hreceivers hearliest hlatest fun id => ?_
  by_cases hid : id ∈ routine.schedule.order
  · exact Analysis.visits_eq_of_sequential pointsToAnalysis_local hreceivers hgraph hwiden
      ((Analysis.reachedLimit_eq_false_iff _ _ _).1 hearliest)
      ((Analysis.reachedLimit_eq_false_iff _ _ _).1 hlatest) hid
  · rw [Analysis.visits_eq_none hid, Analysis.visits_eq_none hid]

/-- **When the worklist order does not matter.**  The two orders come to the same result exactly if
they agree on the entry states of the loop heads outside of a sequential region. -/
theorem analyze_agree_iff (hids : routine.HasUniqueIds) (hreceivers : routine.HasEnclosedReceivers)
    (region : List BlockId) (hregion : routine.schedule.Sequential region)
    (hearliest : (routine.analyze (options.withOrder .earliestFirst)).flow.reachedLimit = false)
    (hlatest : (routine.analyze (options.withOrder .latestFirst)).flow.reachedLimit = false)
    (hexactEarliest : pointsToAnalysis.ComparesExactly routine region
      (options.withOrder .earliestFirst))
    (hexactLatest : pointsToAnalysis.ComparesExactly routine region
      (options.withOrder .latestFirst)) :
    (routine.analyze (options.withOrder .earliestFirst)).Agree
        (routine.analyze (options.withOrder .latestFirst)) ↔
      ∀ id ∈ routine.schedule.order, id ∉ region → routine.schedule.IsLoopHead id →
        (routine.analyze (options.withOrder .earliestFirst)).flow.entryState? id =
          (routine.analyze (options.withOrder .latestFirst)).flow.entryState? id := by
  have hwiden : (options.withOrder .earliestFirst).widenAfter =
      (options.withOrder .latestFirst).widenAfter := rfl
  refine ⟨fun h id _ _ _ => h.entryState id, fun h => ?_⟩
  refine routine.agree_of_visits_eq hids hreceivers hearliest hlatest fun id => ?_
  exact Analysis.visits_eq_of_heads pointsToAnalysis_local hids hreceivers hregion hwiden
    ((Analysis.reachedLimit_eq_false_iff _ _ _).1 hearliest)
    ((Analysis.reachedLimit_eq_false_iff _ _ _).1 hlatest) hexactEarliest hexactLatest h id

/-! ## A loop after a loop -/

def objectType : StaticType := .reference ""

/-- A parameter that is passed by reference. -/
def objectParameter : Symbol := ⟨⟨0⟩, "", .parameter 0 .byReference, objectType⟩

/-- Assigns a new object to the parameter. -/
def objectAssignment : Operation :=
  .ofForm ⟨2⟩ (.simpleAssignment
    ((Operation.ofForm ⟨0⟩ (.parameterReference objectParameter)).withType objectType)
    ((Operation.ofForm ⟨1⟩ (.objectCreation none [] none)).withType objectType))

/-- A routine with a loop that assigns a new object to the parameter, and an empty loop after it. -/
def twoLoops : Routine where
  name := ""
  containingType? := none
  parameters := [objectParameter]
  returnType := .void
  graph := ⟨[⟨⟨0⟩, [], none, [.always ⟨1⟩, .always ⟨2⟩]⟩,
    ⟨⟨1⟩, [objectAssignment], none, [.always ⟨0⟩]⟩, ⟨⟨2⟩, [], none, [.always ⟨2⟩]⟩], by simp⟩

theorem comparesExactly_of_entries {region : List BlockId} {options : Options}
    (h : ∀ source ∈ twoLoops.schedule.order, ∀ target ∈ twoLoops.schedule.order, target ∉ region →
      twoLoops.graph.canFlow source target = true →
        (Solver.visitsOf source (pointsToAnalysis.visitLog twoLoops options)).IsChain
          fun v w => (v.exit == w.exit) = true → v.exit.entries = w.exit.entries) :
    pointsToAnalysis.ComparesExactly twoLoops region options :=
  fun source hsource target htarget hout hflow =>
    (h source hsource target htarget hout hflow).imp fun _ _ hentries hsame =>
      Environment.eq_of_entries (hentries hsame)

set_option maxRecDepth 100000 in
/-- With one more visit before entry states are widened, the second loop has the same entry state in
both orders, and so the whole result is the same. -/
theorem twoLoops_agree :
    (twoLoops.analyze (({} : Options).withOrder .earliestFirst)).Agree
      (twoLoops.analyze (({} : Options).withOrder .latestFirst)) := by
  refine (twoLoops.analyze_agree_iff {} (by decide) (by decide) [⟨0⟩, ⟨1⟩] ⟨by decide, by decide⟩
    (by decide) (by decide) (comparesExactly_of_entries (by decide))
    (comparesExactly_of_entries (by decide))).2 fun id hid _ _ => ?_
  have hentries : ∀ id ∈ twoLoops.schedule.order,
      ((twoLoops.analyze (({} : Options).withOrder .earliestFirst)).flow.entryState? id).map
          (·.entries) =
        ((twoLoops.analyze (({} : Options).withOrder .latestFirst)).flow.entryState? id).map
          (·.entries) := by
    decide
  exact Option.map_injective (fun _ _ => Environment.eq_of_entries) (hentries id hid)

set_option maxRecDepth 100000 in
/-- If the earliest block is taken up first, the second loop is visited twice before the first one
has been through, and the next visit widens its entry state. -/
theorem twoLoops_depends_on_order :
    ¬∀ (routine : Routine) (options : Options),
      (routine.analyze (options.withOrder .earliestFirst)).flow.reachedLimit = false →
      (routine.analyze (options.withOrder .latestFirst)).flow.reachedLimit = false →
      (routine.analyze (options.withOrder .earliestFirst)).Agree
        (routine.analyze (options.withOrder .latestFirst)) := by
  intro h
  have hagree := h twoLoops { widenAfter := 2 } (by decide) (by decide)
  have hsummary : (twoLoops.analyze
        (({ widenAfter := 2 } : Options).withOrder .earliestFirst)).summary ≠
      (twoLoops.analyze (({ widenAfter := 2 } : Options).withOrder .latestFirst)).summary := by
    decide
  exact hsummary hagree.summary

end Routine
end HeapFlow
