import HeapFlow.Proofs.Solver.FixedPoint

/-! # The limit of visits

`Analysis.stateAfter` follows the analysis of a routine step by step.  After `Solver.stepBound`
steps nothing changes any more (`Analysis.stateAfter_eq_finalState`), whatever the analysis makes of
the states, and no block has been visited more often than the options allow
(`Analysis.length_visitsOf_le`).

The limit matters in a single place: when a block is taken up, its turns are compared with the
limit.  So two runs that differ in the limit agree step by step as long as this comparison has the
same outcome (`Analysis.stateAfter_withLimit`), and a run in which no block uses up its visits is
the run with any higher limit as well (`Analysis.solve_terminates`).
-/
namespace HeapFlow

/-- The same choices with another limit of visits. -/
def Options.withLimit (options : Options) (limit : Nat) : Options :=
  { options with maxIterations := limit }

namespace Solver

variable {V D : Type} [AbstractValue V] [EntityState D V] [BEq D]
variable {A : Analysis V D} {options : Options} {schedule : Schedule} {first : D}

/-! ## One more step -/

/-- The last step of a run. -/
theorem run_succ (steps : Nat) (state : State V D) :
    run A options schedule first (steps + 1) state =
      (step? A options schedule first (run A options schedule first steps state)).getD
        (run A options schedule first steps state) := by
  induction steps generalizing state with
  | zero => cases hstep : step? A options schedule first state <;> simp [run, hstep]
  | succ steps ih =>
    rw [run]
    cases hstep : step? A options schedule first state with
    | none => simp [run, hstep]
    | some next =>
      have hrun : run A options schedule first (steps + 1) state =
          run A options schedule first steps next := by simp [run, hstep]
      rw [hrun]
      exact ih next

/-- What the last step of a run adds to the log. -/
theorem visitLog_succ (steps : Nat) (state : State V D) :
    visitLog A options schedule first (steps + 1) state =
      visitLog A options schedule first steps state ++
        ((schedule.next? options.worklistOrder
          (run A options schedule first steps state).pending).bind
            (made? A options schedule first (run A options schedule first steps state))).toList := by
  induction steps generalizing state with
  | zero =>
    rw [visitLog]
    cases hnext : schedule.next? options.worklistOrder state.pending <;> simp [visitLog, run, hnext]
  | succ steps ih =>
    cases hnext : schedule.next? options.worklistOrder state.pending with
    | none => simp [visitLog, run, step?, hnext]
    | some position =>
      have hrun : run A options schedule first (steps + 1) state =
          run A options schedule first steps (takeUp A options schedule first state position) := by
        simp [run, step?, hnext]
      have hlog : ∀ steps, visitLog A options schedule first (steps + 1) state =
          (made? A options schedule first state position).toList ++
            visitLog A options schedule first steps
              (takeUp A options schedule first state position) := by
        intro steps
        simp [visitLog, hnext]
      rw [hrun, hlog, hlog, ih, List.append_assoc]

/-- The limit does not matter for a block that has visits left either way. -/
theorem takeUp_withLimit {limit : Nat} {state : State V D} {position : Nat}
    (h : ∀ id, schedule.order[position]? = some id →
      turns state id < options.maxIterations ∧ turns state id < limit) :
    takeUp A (options.withLimit limit) schedule first state position =
      takeUp A options schedule first state position := by
  unfold takeUp giveTurn
  cases hblock : schedule.order[position]? >>= schedule.graph.block? with
  | none => rfl
  | some block =>
    obtain ⟨id, hid, hfound⟩ := Option.bind_eq_some_iff.1 hblock
    obtain ⟨hleft, hleft'⟩ := h id hid
    rw [← schedule.graph.block?_id hfound] at hleft hleft'
    unfold turns at hleft hleft'
    have hvisit : ¬options.maxIterations < (state.counts.get? block.id).getD 0 + 1 := by omega
    have hvisit' : ¬limit < (state.counts.get? block.id).getD 0 + 1 := by omega
    have hkept : ¬(options.withLimit limit).maxIterations <
        (state.counts.get? block.id).getD 0 + 1 := hvisit'
    simp only [if_neg hvisit, if_neg hkept]
    rfl

end Solver

namespace Analysis

variable {V D : Type} [AbstractValue V] [EntityState D V] [BEq D]
variable (A : Analysis V D) (routine : Routine) (options : Options)

/-! ## The steps of an analysis -/

/-- The state of the solver after the given number of steps. -/
def stateAfter (steps : Nat) : Solver.State V D :=
  Solver.run A options (.ofGraph routine.graph) (A.initialState routine) steps
    (Solver.start routine)

/-- The visits that the given number of steps make, in order. -/
def visitsAfter (steps : Nat) : List (BlockId × Visit D) :=
  Solver.visitLog A options (.ofGraph routine.graph) (A.initialState routine) steps
    (Solver.start routine)

/-- The position that is taken off the worklist after the given number of steps, none if the
worklist is empty. -/
def taken? (steps : Nat) : Option Nat :=
  (Schedule.ofGraph routine.graph).next? options.worklistOrder
    (A.stateAfter routine options steps).pending

variable {A routine options}

/-- What holds at the start and is preserved by every turn holds after every step. -/
theorem stateAfter_induction {P : List (BlockId × Visit D) → Solver.State V D → Prop}
    (hstart : P [] (Solver.start routine))
    (hstep : ∀ log before position made after,
      (Schedule.ofGraph routine.graph).Ready before.pending position →
      Solver.Turn A options (Schedule.ofGraph routine.graph) (A.initialState routine) before
        position made after →
      P log before → P (log ++ made.toList) after) (steps : Nat) :
    P (A.visitsAfter routine options steps) (A.stateAfter routine options steps) := by
  have hs := Schedule.ofGraph_sound routine.graph
  exact (Solver.run_induction hs (fun log before position made after _ => hstep log before position
    made after) steps [] _ (Solver.scheduled_start hs routine) hstart).2

variable (A routine options) in
theorem scheduled_stateAfter (steps : Nat) :
    Solver.Scheduled (.ofGraph routine.graph) (A.stateAfter routine options steps) := by
  have hs := Schedule.ofGraph_sound routine.graph
  exact (Solver.run_induction (P := fun _ _ => True) hs (fun _ _ _ _ _ _ _ _ h => h) steps [] _
    (Solver.scheduled_start hs routine) trivial).1

variable (A routine options) in
theorem traced_stateAfter (steps : Nat) :
    Solver.Traced (.ofGraph routine.graph) (A.visitsAfter routine options steps)
      (A.stateAfter routine options steps) :=
  have hs := Schedule.ofGraph_sound routine.graph
  stateAfter_induction (Solver.traced_start hs routine) (fun _ _ _ _ _ _ hturn h => h.turn hs hturn)
    steps

/-- The worklist is empty if nothing is taken off it. -/
theorem taken?_eq_none_iff {steps : Nat} :
    A.taken? routine options steps = none ↔ (A.stateAfter routine options steps).pending = [] :=
  (Schedule.ofGraph_sound routine.graph).next?_eq_none_iff
    (scheduled_stateAfter A routine options steps).ascending

theorem ready_of_taken? {steps position : Nat}
    (h : A.taken? routine options steps = some position) :
    (Schedule.ofGraph routine.graph).Ready (A.stateAfter routine options steps).pending position :=
  (Schedule.ofGraph_sound routine.graph).ready_of_next?
    (scheduled_stateAfter A routine options steps).ascending h

theorem stateAfter_succ_of_none {steps : Nat} (h : A.taken? routine options steps = none) :
    A.stateAfter routine options (steps + 1) = A.stateAfter routine options steps := by
  unfold taken? at h
  unfold stateAfter at h ⊢
  rw [Solver.run_succ, Solver.step?, h]
  rfl

theorem stateAfter_succ_of_some {steps position : Nat}
    (h : A.taken? routine options steps = some position) :
    A.stateAfter routine options (steps + 1) =
      Solver.takeUp A options (.ofGraph routine.graph) (A.initialState routine)
        (A.stateAfter routine options steps) position := by
  unfold taken? at h
  unfold stateAfter at h ⊢
  rw [Solver.run_succ, Solver.step?, h]
  rfl

/-- A step is a turn, and the log lists the visit that it makes. -/
theorem turn_of_taken? {steps position : Nat} (h : A.taken? routine options steps = some position) :
    ∃ made, Solver.Turn A options (.ofGraph routine.graph) (A.initialState routine)
        (A.stateAfter routine options steps) position made
        (A.stateAfter routine options (steps + 1)) ∧
      A.visitsAfter routine options (steps + 1) =
        A.visitsAfter routine options steps ++ made.toList := by
  have hposition := (scheduled_stateAfter A routine options steps).bounded position
    (ready_of_taken? h).1
  refine ⟨_, stateAfter_succ_of_some h ▸ Solver.turn_takeUp A options (A.initialState routine)
    (Schedule.ofGraph_sound routine.graph) (A.stateAfter routine options steps) hposition, ?_⟩
  unfold taken? at h
  unfold visitsAfter stateAfter at *
  rw [Solver.visitLog_succ, h]
  rfl

/-- Once nothing is taken off the worklist, nothing changes any more. -/
theorem stateAfter_of_le {steps later : Nat} (h : A.taken? routine options steps = none)
    (hle : steps ≤ later) :
    A.stateAfter routine options later = A.stateAfter routine options steps := by
  induction later, hle using Nat.le_induction with
  | base => rfl
  | succ later _ ih =>
    have hlater : A.taken? routine options later = none := by
      unfold taken?
      rw [ih]
      exact h
    rw [stateAfter_succ_of_none hlater, ih]

/-- The analysis is over once it has taken all the steps that it may take. -/
theorem stateAfter_eq_finalState {steps : Nat}
    (hle : Solver.stepBound options (.ofGraph routine.graph) ≤ steps) :
    A.stateAfter routine options steps = A.finalState routine options ∧
      A.taken? routine options steps = none := by
  have hended :
      A.taken? routine options (Solver.stepBound options (.ofGraph routine.graph)) = none :=
    taken?_eq_none_iff.2 (finalState_pending A routine options)
  have hstate := stateAfter_of_le hended hle
  refine ⟨hstate, ?_⟩
  unfold taken?
  rw [hstate]
  exact hended

/-! ## Visits and turns -/

variable (A routine options) in
/-- No block is taken off the worklist that has used up its visits. -/
def StaysWithinLimit : Prop :=
  ∀ steps position id, A.taken? routine options steps = some position →
    (Schedule.ofGraph routine.graph).order[position]? = some id →
      Solver.turns (A.stateAfter routine options steps) id < options.maxIterations

theorem StaysWithinLimit.overruns_eq_nil (h : A.StaysWithinLimit routine options) (steps : Nat) :
    (A.stateAfter routine options steps).overruns = [] := by
  induction steps with
  | zero => rfl
  | succ steps ih =>
    cases htaken : A.taken? routine options steps with
    | none => rw [stateAfter_succ_of_none htaken, ih]
    | some position =>
      obtain ⟨made, hturn, -⟩ := turn_of_taken? htaken
      generalize hafter : A.stateAfter routine options (steps + 1) = after at hturn
      cases hturn with
      | overrun id hid hlimit => exact absurd (h steps position id htaken hid) (by omega)
      | visit id block visit machine hid hblock hlimit hvisit => exact ih

/-- A run in which no block uses up its visits is the same with a higher limit, step by step. -/
theorem StaysWithinLimit.stateAfter_withLimit (h : A.StaysWithinLimit routine options) {limit : Nat}
    (hle : options.maxIterations ≤ limit) (steps : Nat) :
    A.stateAfter routine (options.withLimit limit) steps = A.stateAfter routine options steps := by
  induction steps with
  | zero => rfl
  | succ steps ih =>
    have htakenEq : A.taken? routine (options.withLimit limit) steps =
        A.taken? routine options steps := by
      unfold taken?
      rw [ih]
      rfl
    cases htaken : A.taken? routine options steps with
    | none => rw [stateAfter_succ_of_none htaken, stateAfter_succ_of_none (htakenEq ▸ htaken), ih]
    | some position =>
      rw [stateAfter_succ_of_some htaken, stateAfter_succ_of_some (htakenEq ▸ htaken), ih]
      refine Solver.takeUp_withLimit fun id hid => ?_
      have hleft := h steps position id htaken hid
      omega

theorem solve_congr {options' : Options}
    (h : A.finalState routine options = A.finalState routine options') :
    A.solve routine options = A.solve routine options' := by
  show FlowResult.mk _ _ (A.finalState routine options).visits
    (A.finalState routine options).machine.values (A.finalState routine options).overruns.reverse
    (A.finalState routine options).machine.visited.reverse = _
  rw [h]
  rfl

theorem StaysWithinLimit.solve_withLimit (h : A.StaysWithinLimit routine options) {limit : Nat}
    (hle : options.maxIterations ≤ limit) :
    A.solve routine (options.withLimit limit) = A.solve routine options := by
  refine solve_congr ?_
  let steps := Solver.stepBound options (.ofGraph routine.graph) +
    Solver.stepBound (options.withLimit limit) (.ofGraph routine.graph)
  calc A.finalState routine (options.withLimit limit)
      = A.stateAfter routine (options.withLimit limit) steps :=
        (stateAfter_eq_finalState (Nat.le_add_left _ _)).1.symm
    _ = A.stateAfter routine options steps := h.stateAfter_withLimit hle steps
    _ = A.finalState routine options := (stateAfter_eq_finalState (Nat.le_add_right _ _)).1

end Analysis

end HeapFlow
