import HeapFlow.Proofs.Interpreter.Effect
import HeapFlow.Proofs.Solver.Reachability

/-! # Which operations are given values

The evaluation of an operation settles the values of the operations of its tree bottom up, each of
them once.  The targets of assignments are left out: they are given the assigned value, and only
their parts are evaluated.  So is what stands below name expressions, which is not given a value at
all.

Blocks are interpreted again and again, but always with this outcome.  So in the end the operations
that have values are those of the blocks that have been visited (`Analysis.valued_finalState`), and
those are the blocks that control can reach.
-/
namespace HeapFlow

/-- Some operation of the id is given a value when the block is interpreted. -/
def Block.Values (block : Block) (id : OperationId) : Prop :=
  ∃ statement ∈ block.statements, ∃ node ∈ statement.valued, node.id = id

variable {V D : Type}

/-- The effect of evaluations in terms of the operations that are given values. -/
theorem Effect.isSome_iff_valued {operations : List Operation} {m m' : Machine V D}
    (h : Effect (operations.flatMap Operation.steps) m m') {id : OperationId} :
    (m'.values.get? id).isSome = true ↔ (m.values.get? id).isSome = true ∨
      ∃ operation ∈ operations, ∃ node ∈ operation.valued, node.id = id := by
  rw [h.isSome_iff]
  refine or_congr_right ⟨?_, ?_⟩
  · rintro ⟨step, hstep, rfl⟩
    obtain ⟨operation, hoperation, hstep⟩ := List.mem_flatMap.1 hstep
    exact ⟨operation, hoperation, step.recipient,
      Operation.mem_valued_iff.2 ⟨step, hstep, rfl⟩, rfl⟩
  · rintro ⟨operation, hoperation, node, hnode, rfl⟩
    obtain ⟨step, hstep, rfl⟩ := Operation.mem_valued_iff.1 hnode
    exact ⟨step, List.mem_flatMap.2 ⟨operation, hoperation, hstep⟩, rfl⟩

namespace Solver

/-- The operations that have values are those of the blocks that have been visited. -/
def Valued (graph : ControlFlowGraph) (state : State V D) : Prop :=
  ∀ id, (state.machine.values.get? id).isSome = true ↔
    ∃ blockId block, (state.visits.get? blockId).isSome = true ∧
      graph.block? blockId = some block ∧ block.Values id

theorem valued_start [EntityState D V] (routine : Routine) :
    Valued routine.graph (start routine : State V D) := fun id => by
  constructor
  · intro h
    simp [start, Machine.initial, Frame.initial] at h
  · rintro ⟨blockId, block, h, -⟩
    simp [start] at h

variable [AbstractValue V] [EntityState D V] [BEq D] {A : Analysis V D}

/-- A visit adds the operations of the block that is visited. -/
theorem Valued.turn {options : Options} {schedule : Schedule} {first : D} {before after : State V D}
    {position : Nat} {made : Option (BlockId × Visit D)} (h : Valued schedule.graph before)
    (hturn : Turn A options schedule first before position made after) :
    Valued schedule.graph after := by
  cases hturn with
  | overrun id hid hlimit => exact h
  | visit id block visit machine hid hblock hlimit hvisit =>
    intro operation
    have hmachine : machine = (outcome (A.evaluateBlock block) { before.machine with
        data := entryState A options schedule first before.visits id (turns before id + 1) }).2 :=
      congrArg Prod.snd hvisit.symm
    have hvalues : (machine.values.get? operation).isSome = true ↔
        (before.machine.values.get? operation).isSome = true ∨ block.Values operation := by
      rw [hmachine]
      exact (A.effect_evaluateBlock block _).isSome_iff_valued
    show (machine.values.get? operation).isSome = true ↔ _
    rw [hvalues, h operation]
    constructor
    · rintro (⟨blockId, found, hvisited, hfound, hoperation⟩ | hoperation)
      · exact ⟨blockId, found, before.visits.isSome_get?_insert id visit hvisited, hfound,
          hoperation⟩
      · exact ⟨id, block, by simp, hblock, hoperation⟩
    · rintro ⟨blockId, found, hvisited, hfound, hoperation⟩
      by_cases heq : id = blockId
      · subst heq
        obtain rfl : block = found := Option.some.inj (hblock.symm.trans hfound)
        exact .inr hoperation
      · rw [get?_insert_of_ne _ _ heq] at hvisited
        exact .inl ⟨blockId, found, hvisited, hfound, hoperation⟩

end Solver

namespace Analysis

variable [AbstractValue V] [EntityState D V] [BEq D] {A : Analysis V D}
variable {routine : Routine} {options : Options}

variable (A routine options) in
theorem valued_finalState : Solver.Valued routine.graph (A.finalState routine options) :=
  finalState_induction (P := fun _ state => Solver.Valued routine.graph state)
    (Solver.valued_start routine) fun _ _ _ _ _ _ hturn h => h.turn hturn

/-- Nothing is visited if no visits are allowed. -/
theorem pos_of_isSome_visits {id : BlockId}
    (h : ((A.finalState routine options).visits.get? id).isSome = true) :
    1 ≤ options.maxIterations := by
  let P := fun (_ : List (BlockId × Visit D)) (state : Solver.State V D) =>
    (state.visits.get? id).isSome = true → 1 ≤ options.maxIterations
  refine finalState_induction (P := P) (fun h => by simp [Solver.start] at h)
    (fun log before position made after _ hturn ih => ?_) h
  cases hturn with
  | overrun taken htaken hlimit => exact ih
  | visit taken block visit machine htaken hblock hlimit hvisit => exact fun _ => by omega

/-- **An operation has a value if control reaches it**: it is given a value along with a statement
of a block that control can reach. -/
theorem isSome_valueOf?_iff (A : Analysis V D) (routine : Routine) (options : Options)
    {id : OperationId} :
    ((A.solve routine options).valueOf? id).isSome = true ↔ 1 ≤ options.maxIterations ∧
      ∃ blockId block, Relation.ReflTransGen routine.graph.HasFeasibleEdge routine.graph.entry
        blockId ∧ routine.graph.block? blockId = some block ∧ block.Values id := by
  have hvalued : ((A.solve routine options).valueOf? id).isSome = true ↔ _ :=
    valued_finalState A routine options id
  rw [hvalued]
  constructor
  · rintro ⟨blockId, block, hvisited, hblock, hvalues⟩
    have hpos := pos_of_isSome_visits hvisited
    exact ⟨hpos, blockId, block,
      routine.graph.reached_iff.1 ((isSome_visits_iff_of_pos hpos).1 hvisited), hblock, hvalues⟩
  · rintro ⟨hpos, blockId, block, hreached, hblock, hvalues⟩
    exact ⟨blockId, block,
      (isSome_visits_iff_of_pos hpos).2 (routine.graph.reached_iff.2 hreached), hblock, hvalues⟩

/-- **The interpreter covers the operations of a routine.**  The evaluation of an operation settles
the values of the operations that are completed, in this order, whatever the state and the analysis
are: what is put on record are the calls of `finalValue` (`outcome_settle`).  An operation is
completed after all that are performed as parts of it: its children, or those of the target besides
the assigned operation in place of the target itself, or none for a name expression.  All other
operations of the tree are targets of assignments that are completed, which are given values too, or
they stand below name expressions that are completed.

In the end an operation has a value if and only if it is given one along with a statement of a block
that control can reach, unless no block may be visited at all. -/
theorem evaluate_covers (A : Analysis V D) :
    (∀ operation m, let m' := (outcome (A.evaluate operation) m).2
      m'.visited = (operation.completed.map (·.id)).reverse ++ m.visited ∧
      ∀ id, (m'.values.get? id).isSome = true ↔
        (m.values.get? id).isSome = true ∨ ∃ node ∈ operation.valued, node.id = id) ∧
    (∀ operation : Operation,
      operation.completed = operation.performedChildren.flatMap Operation.completed ++ [operation] ∧
      operation.nodes.Perm (operation.completed ++
        operation.completed.flatMap Operation.assignmentTargets ++
          operation.completed.flatMap Operation.spared)) ∧
    ∀ routine options id, ((A.solve routine options).valueOf? id).isSome = true ↔
      1 ≤ options.maxIterations ∧
        ∃ blockId block, Relation.ReflTransGen routine.graph.HasFeasibleEdge routine.graph.entry
          blockId ∧ routine.graph.block? blockId = some block ∧
            ∃ statement ∈ block.statements, ∃ node ∈ statement.valued, node.id = id := by
  refine ⟨fun operation m => ?_, fun operation => ⟨operation.completed_eq, operation.nodes_perm⟩,
    fun routine options id => A.isSome_valueOf?_iff routine options⟩
  have heffect := A.effect_evaluate operation m
  refine ⟨heffect.visited, fun id => ?_⟩
  have hsteps : Effect ([operation].flatMap Operation.steps) m
      (outcome (A.evaluate operation) m).2 := by simpa using heffect
  refine hsteps.isSome_iff_valued.trans (or_congr_right ?_)
  simp

end Analysis
end HeapFlow
