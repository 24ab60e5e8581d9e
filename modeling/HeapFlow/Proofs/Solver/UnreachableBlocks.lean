import HeapFlow.Flow.Solver
import HeapFlow.Proofs.Interpreter.Signature
import HeapFlow.Proofs.UnreachableBlocks

/-! # Runs that leave out unreachable blocks

Unreachable blocks that are inserted into the body of a routine are listed among the predecessors
of other blocks, but they are never visited, so no state flows out of them.  If the analysis cannot
tell the routines apart but for their graphs, then it goes through the same states for both, step by
step (`Solver.step?_withRoutine`), and comes to the same result (`Analysis.solve_inserted`).
-/
namespace HeapFlow

variable {V D : Type} [AbstractValue V] [EntityState D V]

namespace Solver

/-- The state of the solver in another routine. -/
def State.withRoutine (state : State V D) (routine : Routine) : State V D :=
  { state with machine := state.machine.withRoutine routine }

/-- The solver works on the routine, and has only visited blocks of its graph. -/
structure Within (routine : Routine) (state : State V D) : Prop where
  routine_eq : state.machine.routine = routine
  known : ∀ id, routine.graph.contains id = false → state.visits.get? id = none

variable {A : Analysis V D} {routine : Routine} {graph' : ControlFlowGraph}
variable (h : routine.graph.InsertsUnreachable graph')
variable (hA : A.Confuses routine { routine with graph := graph' }) {state : State V D}
variable (hstate : Within routine state) {options : Options} {first : D} {schedule : Schedule}
variable (hschedule : schedule.graph = routine.graph)

section Entry

include h hschedule

omit [AbstractValue V] [EntityState D V] in
theorem incoming_inserted (hstate : Within routine state) {id : BlockId}
    (hid : routine.graph.contains id = true) :
    incoming { schedule with graph := graph' } state.visits id =
      incoming schedule state.visits id := by
  unfold incoming
  rw [hschedule]
  refine h.filterMap_predecessors (fun predecessor hnew => ?_) hid
  rw [hstate.known predecessor hnew]
  rfl

omit [AbstractValue V] [EntityState D V] in
theorem entryState_inserted (hstate : Within routine state) {id : BlockId}
    (hid : routine.graph.contains id = true) (count : Nat) :
    entryState A options { schedule with graph := graph' } first state.visits id count =
      entryState A options schedule first state.visits id count := by
  have hmerged : mergedEntry A { schedule with graph := graph' } first state.visits id =
      mergedEntry A schedule first state.visits id := by
    have hentry : graph'.entry = schedule.graph.entry := by rw [h.entry_eq, hschedule]
    simp only [mergedEntry, incoming_inserted h hschedule hstate hid, hentry]
  unfold entryState
  rw [hmerged]

end Entry

include hA in
theorem interpret_withRoutine {machine : Machine V D} (hmachine : machine.routine = routine)
    (block : Block) (entry : D) :
    (interpret A machine block entry).2.routine = routine ∧
      interpret A (machine.withRoutine { routine with graph := graph' }) block entry =
        ((interpret A machine block entry).1,
          (interpret A machine block entry).2.withRoutine { routine with graph := graph' }) := by
  have hcommutes := hA.commutes_evaluateBlock block { machine with data := entry } hmachine
  refine ⟨hcommutes.routine_eq, ?_⟩
  have houtcome : ∀ k : Machine V D, interpret A k block entry =
      (⟨entry, (outcome (A.evaluateBlock block) { k with data := entry }).2.data,
        (outcome (A.evaluateBlock block) { k with data := entry }).1⟩,
        (outcome (A.evaluateBlock block) { k with data := entry }).2) := fun _ => rfl
  rw [houtcome, houtcome]
  have hmachine' : ({ machine.withRoutine { routine with graph := graph' } with
      data := entry } : Machine V D) =
    ({ machine with data := entry } : Machine V D).withRoutine { routine with graph := graph' } :=
      rfl
  rw [hmachine', hcommutes.outcome_eq]
  rfl

variable [BEq D]
variable (options first)

include h hA in
/-- A visit makes the same changes in either routine. -/
theorem visit_withRoutine (hschedule : schedule.graph = routine.graph)
    (hstate : Within routine state) {block : Block}
    (hblock : routine.graph.contains block.id = true) (count : Nat) :
    Within routine (visit A options schedule first state block count) ∧
      visit A options { schedule with graph := graph' } first
          (state.withRoutine { routine with graph := graph' }) block count =
        (visit A options schedule first state block count).withRoutine
          { routine with graph := graph' } := by
  obtain ⟨hroutine, hinterpret⟩ := interpret_withRoutine hA hstate.routine_eq block
    (entryState A options schedule first state.visits block.id count)
  refine ⟨⟨hroutine, fun id hid => ?_⟩, ?_⟩
  · have hne : Key.same block.id id = false := decide_eq_false fun heq => by
      rw [← heq, hblock] at hid
      cases hid
    show (state.visits.insert block.id _).get? id = none
    rw [Environment.get?_insert, hne, if_neg Bool.false_ne_true, hstate.known id hid]
  · have hentry : entryState A options { schedule with graph := graph' } first
        (state.withRoutine { routine with graph := graph' }).visits block.id count =
          entryState A options schedule first state.visits block.id count :=
      entryState_inserted h hschedule hstate hblock count
    unfold visit
    simp only [hentry]
    rw [show (state.withRoutine { routine with graph := graph' }).machine =
      state.machine.withRoutine { routine with graph := graph' } from rfl, hinterpret]
    rfl

include h hA in
/-- A turn makes the same changes in either routine. -/
theorem takeUp_withRoutine (hs : schedule.Sound) (hschedule : schedule.graph = routine.graph)
    (hstate : Within routine state) (position : Nat) :
    Within routine (takeUp A options schedule first state position) ∧
      takeUp A options { schedule with graph := graph' } first
          (state.withRoutine { routine with graph := graph' }) position =
        (takeUp A options schedule first state position).withRoutine
          { routine with graph := graph' } := by
  have hknown : ∀ id, schedule.order[position]? = some id → routine.graph.contains id = true := by
    intro id hid
    rw [← hschedule]
    exact hs.known id (List.mem_of_getElem? hid)
  have hblock? : (schedule.order[position]? >>= graph'.block?) =
      (schedule.order[position]? >>= schedule.graph.block?) := by
    cases hid : schedule.order[position]? with
    | none => rfl
    | some id =>
      show graph'.block? id = schedule.graph.block? id
      rw [h.block?_eq (hknown id hid), hschedule]
  unfold takeUp giveTurn
  simp only [hblock?]
  cases hfound : schedule.order[position]? >>= schedule.graph.block? with
  | none => exact ⟨⟨hstate.routine_eq, hstate.known⟩, rfl⟩
  | some block =>
    obtain ⟨id, hid, hblock⟩ := Option.bind_eq_some_iff.1 hfound
    have hcontains : routine.graph.contains block.id = true := by
      rw [schedule.graph.block?_id hblock]
      exact hknown id hid
    dsimp only
    split
    · next hlimit =>
      have hlimit' : options.maxIterations <
        ((state.withRoutine { routine with graph := graph' }).counts.get? block.id).getD 0 + 1 :=
          hlimit
      rw [if_pos hlimit']
      exact ⟨⟨hstate.routine_eq, hstate.known⟩, rfl⟩
    · next hlimit =>
      have hlimit' : ¬options.maxIterations <
        ((state.withRoutine { routine with graph := graph' }).counts.get? block.id).getD 0 + 1 :=
          hlimit
      rw [if_neg hlimit']
      let counted : State V D :=
        { state with
          pending := state.pending.erase position
          counts := state.counts.insert block.id ((state.counts.get? block.id).getD 0 + 1) }
      have hcounted : Within routine counted := ⟨hstate.routine_eq, hstate.known⟩
      exact visit_withRoutine h hA options first hschedule hcounted hcontains _

include h hA in
/-- **A run goes through the same states in either routine.** -/
theorem run_withRoutine (hs : schedule.Sound) (hschedule : schedule.graph = routine.graph) :
    ∀ (bound : Nat) (state : State V D), Within routine state →
      run A options { schedule with graph := graph' } first bound
          (state.withRoutine { routine with graph := graph' }) =
        (run A options schedule first bound state).withRoutine
          { routine with graph := graph' } := by
  intro bound
  induction bound with
  | zero => exact fun _ _ => rfl
  | succ bound ih =>
    intro state hstate
    have hnext : ({ schedule with graph := graph' } : Schedule).next? options.worklistOrder
        (state.withRoutine { routine with graph := graph' }).pending =
          schedule.next? options.worklistOrder state.pending := rfl
    unfold run step?
    rw [hnext]
    cases schedule.next? options.worklistOrder state.pending with
    | none => rfl
    | some position =>
      obtain ⟨hwithin, heq⟩ := takeUp_withRoutine h hA options first hs hschedule hstate position
      simp only [Option.map_some, heq]
      exact ih _ hwithin

end Solver

namespace Analysis

variable [BEq D] {A : Analysis V D} {routine : Routine} {graph' : ControlFlowGraph}

/-- **Unreachable blocks do not matter.**  If unreachable blocks are inserted into the body of a
routine, then an analysis that cannot tell the routines apart comes to the same result. -/
theorem solve_inserted (h : routine.graph.InsertsUnreachable graph')
    (hA : A.Confuses routine { routine with graph := graph' }) (options : Options) :
    A.solve { routine with graph := graph' } options = A.solve routine options := by
  have hs := Schedule.ofGraph_sound routine.graph
  have hstart : Solver.Within routine (Solver.start routine : Solver.State V D) :=
    ⟨rfl, fun _ _ => rfl⟩
  have hrun := Solver.run_withRoutine h hA options (A.initialState routine) hs rfl
    (Solver.stepBound options (.ofGraph routine.graph)) _ hstart
  have hfinal : Solver.run A options (.ofGraph graph')
      (A.initialState { routine with graph := graph' }) (Solver.stepBound options (.ofGraph graph'))
        (Solver.start { routine with graph := graph' }) =
      (Solver.run A options (.ofGraph routine.graph) (A.initialState routine)
        (Solver.stepBound options (.ofGraph routine.graph)) (Solver.start routine)).withRoutine
          { routine with graph := graph' } := by
    rw [h.ofGraph_eq, hA.initialState]
    exact hrun
  unfold solve
  simp only [hfinal, h.exit_eq]
  rfl

end Analysis
end HeapFlow
