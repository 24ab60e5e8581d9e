import HeapFlow.Proofs.Environment.Lookup
import HeapFlow.Proofs.Solver.Limit
import HeapFlow.Proofs.Solver.Outcome

/-! # Which blocks are analysed

The solver does not compute which blocks control can reach: it visits a block once a block that has
been visited can flow into it.  The blocks that are visited are exactly those that the entry reaches
along edges that control may take (`ControlFlowGraph.HasFeasibleEdge`), even if some block has used
up its visits: a block only runs out of visits after it has been visited
(`Analysis.isSome_visits_iff_of_pos`).

On the way every block that is taken up exists, and is the entry or has a predecessor that has been
visited and flows into it (`Analysis.exists_incoming_of_taken?`).
-/
namespace HeapFlow

/-- The listed blocks are those that are bound. -/
theorem Environment.mem_keys_iff {W : Type} (env : Environment BlockId W) {id : BlockId} :
    id ∈ env.keys ↔ (env.get? id).isSome = true := by
  rw [env.isSome_get?_iff]
  constructor
  · intro h
    exact ⟨id, h, Key.same_refl id⟩
  · rintro ⟨key, hmem, hsame⟩
    obtain rfl : key = id := of_decide_eq_true hsame
    exact hmem

namespace ControlFlowGraph

variable (graph : ControlFlowGraph)

/-- There is an edge from the block of the first id to a block of the second id, and it is not ruled
out by a branch value that is a truth constant. -/
def HasFeasibleEdge (source target : BlockId) : Prop :=
  ∃ block edge, graph.block? source = some block ∧ edge ∈ block.successors ∧
    edge.target = target ∧ graph.contains target = true ∧
    ∀ branchValue outcome, block.branchValue? = some branchValue →
      branchValue.constant? = some (.bool outcome) →
        edge.condition ≠ if outcome then .whenFalse else .whenTrue

/-- The edges of a block that can be taken are those that its branch value does not rule out. -/
theorem admits_branchOutcome?_iff (block : Block) (condition : EdgeCondition) :
    condition.admits block.branchOutcome? = true ↔
      ∀ branchValue outcome, block.branchValue? = some branchValue →
        branchValue.constant? = some (.bool outcome) →
          condition ≠ if outcome then .whenFalse else .whenTrue := by
  unfold Block.branchOutcome?
  split
  · next id form type? outcome hvalue =>
    simp only [hvalue, Option.some.injEq]
    constructor
    · rintro hadmits branchValue found rfl hfound
      obtain rfl : outcome = found := by simpa using hfound
      cases outcome <;> cases condition <;> simp_all [EdgeCondition.admits]
    · intro h
      have hne := h _ outcome rfl rfl
      cases outcome <;> cases condition <;> simp_all [EdgeCondition.admits]
  · next hvalue =>
    refine ⟨fun _ branchValue outcome hbranch hconstant => ?_, fun _ => ?_⟩
    · obtain ⟨id, form, type?, constant?⟩ := branchValue
      obtain rfl : constant? = some (.bool outcome) := hconstant
      exact absurd hbranch (hvalue id form type? outcome)
    · cases condition <;> rfl

theorem hasFeasibleEdge_iff {source target : BlockId} :
    graph.HasFeasibleEdge source target ↔
      graph.canFlow source target = true ∧ graph.contains target = true := by
  cases hblock : graph.block? source with
  | none => simp [HasFeasibleEdge, canFlow, hblock]
  | some block =>
    rw [graph.canFlow_iff hblock, Block.feasibleTargets, List.mem_eraseDups, List.mem_map]
    simp only [HasFeasibleEdge, hblock, List.mem_filter, admits_branchOutcome?_iff,
      Option.some.injEq]
    constructor
    · rintro ⟨_, edge, rfl, hedge, rfl, htarget, hadmits⟩
      exact ⟨⟨edge, ⟨hedge, hadmits⟩, rfl⟩, htarget⟩
    · rintro ⟨⟨edge, ⟨hedge, hadmits⟩, rfl⟩, htarget⟩
      exact ⟨block, edge, rfl, hedge, rfl, htarget, hadmits⟩

theorem reached_iff {id : BlockId} :
    graph.Reached id ↔ Relation.ReflTransGen graph.HasFeasibleEdge graph.entry id := by
  constructor
  · intro h
    induction h with
    | entry => exact .refl
    | flow _ hflow htarget ih => exact ih.tail (graph.hasFeasibleEdge_iff.2 ⟨hflow, htarget⟩)
  · intro h
    induction h with
    | refl => exact .entry
    | tail _ hedge ih =>
      obtain ⟨hflow, htarget⟩ := graph.hasFeasibleEdge_iff.1 hedge
      exact ih.flow hflow htarget

end ControlFlowGraph

namespace Analysis

variable {V D : Type} [AbstractValue V] [EntityState D V] [BEq D]
variable {A : Analysis V D} {routine : Routine} {options : Options}

/-- A block that has used up its visits has been visited. -/
theorem isSome_visits_of_overrun (hpos : 1 ≤ options.maxIterations) :
    ∀ overrun ∈ (A.finalState routine options).overruns,
      ((A.finalState routine options).visits.get? overrun.block).isSome = true := by
  have hs := routine.schedule_sound
  let P := fun log (state : Solver.State V D) => Solver.Traced routine.schedule log state ∧
    ∀ overrun ∈ state.overruns, (state.visits.get? overrun.block).isSome = true
  have hfinal : P (A.visitLog routine options) (A.finalState routine options) := by
    refine finalState_induction ⟨Solver.traced_start hs routine, by simp [Solver.start]⟩
      fun log before position made after hready hturn h => ⟨h.1.turn hs hturn, ?_⟩
    obtain ⟨htraced, hoverruns⟩ := h
    cases hturn with
    | overrun id hid hlimit =>
      intro overrun hmem
      rcases List.mem_cons.1 hmem with rfl | hmem
      · -- One of the turns before this one was a visit: the first turn cannot be an overrun.
        show (before.visits.get? id).isSome = true
        have hturns := htraced.counts id
        by_cases hvisits : Solver.visitsOf id log = []
        · have hearlier : 0 < (before.overruns.filter (·.block = id)).length := by
            simp only [hvisits, List.length_nil] at hturns
            omega
          obtain ⟨earlier, hmem⟩ := List.exists_mem_of_length_pos hearlier
          obtain ⟨hmem, hblock⟩ := List.mem_filter.1 hmem
          rw [← of_decide_eq_true hblock]
          exact hoverruns earlier hmem
        · rw [htraced.latest id, Option.isSome_iff_ne_none, Ne, List.getLast?_eq_none_iff]
          exact hvisits
      · exact hoverruns overrun hmem
    | visit id block visit machine hid hblock hlimit hvisit =>
      intro overrun hmem
      exact before.visits.isSome_get?_insert id visit (hoverruns overrun hmem)
  exact hfinal.2

/-- **The blocks that are visited are those that control can reach**, whether or not blocks use up
their visits. -/
theorem isSome_visits_iff_of_pos (hpos : 1 ≤ options.maxIterations) {id : BlockId} :
    ((A.finalState routine options).visits.get? id).isSome = true ↔ routine.graph.Reached id := by
  have htraced := traced_finalState A routine options
  have hnoticed : ∀ id, Solver.Noticed routine.schedule (A.finalState routine options) id →
      ((A.finalState routine options).visits.get? id).isSome = true := by
    rintro id (hvisited | ⟨p, hp, -⟩ | ⟨overrun, hoverrun, rfl⟩)
    · exact hvisited
    · simp [finalState_pending] at hp
    · exact isSome_visits_of_overrun hpos overrun hoverrun
  refine ⟨reached_of_visits, fun h => ?_⟩
  induction h with
  | entry => exact hnoticed _ htraced.entry
  | flow _ hflow htarget ih => exact hnoticed _ (htraced.fed _ ih _ hflow htarget)

/-- A block that is taken up exists, and some state flows into it. -/
theorem exists_incoming_of_taken? {steps position : Nat}
    (h : A.taken? routine options steps = some position) :
    ∃ id block, routine.schedule.order[position]? = some id ∧
      routine.graph.block? id = some block ∧
        (id = routine.graph.entry ∨
          Solver.incoming routine.schedule (A.stateAfter routine options steps).visits id ≠ []) := by
  have hs := routine.schedule_sound
  have htraced := traced_stateAfter A routine options steps
  have hpending := (ready_of_taken? h).1
  have hbound := (scheduled_stateAfter A routine options steps).bounded position hpending
  have hid : routine.schedule.order[position]? = some _ := List.getElem?_eq_getElem hbound
  have hknown := hs.known _ (List.mem_of_getElem? hid)
  obtain ⟨block, hblock⟩ := routine.graph.block?_isSome hknown
  refine ⟨_, block, hid, hblock, (htraced.wanted position hpending _ hid).imp_right ?_⟩
  rintro ⟨source, hsource, hflow⟩
  obtain ⟨visit, hvisit⟩ := Option.isSome_iff_exists.1 hsource
  have hsuccessor := ((htraced.known source visit hvisit).2 _).2 hflow
  refine List.ne_nil_of_mem (a := visit.exit) (List.mem_filterMap.2 ⟨source, ?_, ?_⟩)
  · exact routine.graph.mem_predecessors_iff.2
      (routine.graph.mem_successors_of_canFlow hflow hknown)
  · simp [hvisit, hsuccessor, guard]

/-- **Exactly the blocks that control may reach are analysed.**  A block has an entry state and an
exit state if and only if there is a path to it from the entry along edges whose targets exist and
that no constant branch value rules out, whether or not the limit is reached.  Every block that is
taken off the worklist exists, and it is the entry or some visited predecessor flows into it. -/
theorem mem_reachableBlocks_iff (A : Analysis V D) (routine : Routine) (options : Options)
    (hpos : 1 ≤ options.maxIterations) :
    (A.solve routine options).reachableBlocks.Nodup ∧
    (∀ id, (id ∈ (A.solve routine options).reachableBlocks ↔
        Relation.ReflTransGen routine.graph.HasFeasibleEdge routine.graph.entry id) ∧
      (((A.solve routine options).entryState? id).isSome = true ↔
        Relation.ReflTransGen routine.graph.HasFeasibleEdge routine.graph.entry id) ∧
      (((A.solve routine options).exitState? id).isSome = true ↔
        Relation.ReflTransGen routine.graph.HasFeasibleEdge routine.graph.entry id)) ∧
    ∀ steps position, A.taken? routine options steps = some position →
      ∃ id block, (Schedule.ofGraph routine.graph).order[position]? = some id ∧
        routine.graph.block? id = some block ∧
          (id = routine.graph.entry ∨
            Solver.incoming (.ofGraph routine.graph)
              (A.stateAfter routine options steps).visits id ≠ []) := by
  have hvisits : ∀ id, ((A.solve routine options).visits.get? id).isSome = true ↔
      Relation.ReflTransGen routine.graph.HasFeasibleEdge routine.graph.entry id := fun id =>
    (isSome_visits_iff_of_pos hpos).trans routine.graph.reached_iff
  refine ⟨?_, fun id => ⟨?_, ?_, ?_⟩, fun steps position h => exists_incoming_of_taken? h⟩
  · refine List.pairwise_map.2 ((A.solve routine options).visits.distinct.imp ?_)
    intro x y hdiffers heq
    rw [heq, Key.same_refl] at hdiffers
    cases hdiffers
  · exact (Environment.mem_keys_iff _).trans (hvisits id)
  · rw [FlowResult.entryState?, Option.isSome_map]
    exact hvisits id
  · rw [FlowResult.exitState?, Option.isSome_map]
    exact hvisits id

end Analysis

/-- With a single visit of each block the loop of the routine does not become stable, but the block
after the loop is analysed. -/
theorem loopRoutine_reachable :
    (progressAnalysis.solve loopRoutine { maxIterations := 1 }).reachedLimit = true ∧
      ⟨2⟩ ∈ (progressAnalysis.solve loopRoutine { maxIterations := 1 }).reachableBlocks := by
  have hpath : Relation.ReflTransGen loopRoutine.graph.HasFeasibleEdge ⟨0⟩ ⟨2⟩ :=
    .tail (.single (loopRoutine.graph.hasFeasibleEdge_iff.2 (by decide : _ ∧ _)))
      (loopRoutine.graph.hasFeasibleEdge_iff.2 (by decide :
        loopRoutine.graph.canFlow ⟨1⟩ ⟨2⟩ = true ∧ loopRoutine.graph.contains ⟨2⟩ = true))
  exact ⟨by decide, ((progressAnalysis.mem_reachableBlocks_iff loopRoutine { maxIterations := 1 }
    (by decide)).2.1 ⟨2⟩).1.2 hpath⟩

end HeapFlow
