import HeapFlow.Proofs.Interpreter.Record
import HeapFlow.Proofs.Solver.Evaluations

/-! # Analyses that go round in circles

How an analysis goes on from a state of the solver does not depend on what is on record, nor on how
often blocks have been taken up beyond the turn from which on they are widened
(`Solver.Resembles.turn`).  If it comes back to a state that resembles an earlier one, with a single
block pending at each step, then it goes round in circles until that block has used up its visits
(`Analysis.Circles.exists_resembles`).  No limit is high enough for such an analysis to become
stable (`Analysis.Circles.reachedLimit`), and whatever the limit is, the evaluations that it makes
are those of the first round (`Analysis.Circles.exists_evaluation`).
-/
namespace HeapFlow

variable {V D : Type}

namespace Solver

/-- The states agree on all that decides how an analysis goes on. -/
structure Resembles (options : Options) (s t : State V D) : Prop where
  routine : s.machine.routine = t.machine.routine
  values : s.machine.values = t.machine.values
  creations : s.machine.creations = t.machine.creations
  pending : s.pending = t.pending
  visits : s.visits = t.visits
  /-- Turns count until a block is widened. -/
  turns : ∀ id, min (turns s id) options.widenAfter = min (turns t id) options.widenAfter

variable {A : Analysis V D} {options : Options} {schedule : Schedule} {first : D}
variable {s t s' t' u : State V D}

/-- The frame from which a block is interpreted. -/
def frameAt (s : State V D) (entry : D) : Frame V D :=
  ⟨s.machine.routine, entry, s.machine.values, s.machine.creations⟩

namespace Resembles

theorem refl (s : State V D) : Resembles options s s := ⟨rfl, rfl, rfl, rfl, rfl, fun _ => rfl⟩

theorem trans (h : Resembles options s t) (h' : Resembles options t u) : Resembles options s u where
  routine := h.routine.trans h'.routine
  values := h.values.trans h'.values
  creations := h.creations.trans h'.creations
  pending := h.pending.trans h'.pending
  visits := h.visits.trans h'.visits
  turns id := (h.turns id).trans (h'.turns id)

/-- A block is visited from the same state. -/
theorem entryState_eq (h : Resembles options s t) (id : BlockId) :
    entryState A options schedule first s.visits id (Solver.turns s id + 1) =
      entryState A options schedule first t.visits id (Solver.turns t id + 1) := by
  have hwidens : (options.widenAfter < Solver.turns s id + 1) =
      (options.widenAfter < Solver.turns t id + 1) := by
    have hturns := h.turns id
    refine propext ?_
    omega
  unfold entryState
  rw [h.visits]
  simp only [hwidens]

theorem frameAt_eq (h : Resembles options s t) (entry : D) : frameAt s entry = frameAt t entry := by
  unfold frameAt
  rw [h.routine, h.values, h.creations]

variable [AbstractValue V] [EntityState D V]

/-- The interpretation of a block only differs in what is on record. -/
theorem interpret_eq (h : Resembles options s t) (block : Block) (entry : D) :
    (interpret A s.machine block entry).1 = (interpret A t.machine block entry).1 ∧
      (interpret A s.machine block entry).2.toFrame =
        (interpret A t.machine block entry).2.toFrame := by
  have hinterpret : ∀ s : State V D,
      let result := outcome (A.evaluateBlock block) ⟨frameAt s entry, []⟩
      interpret A s.machine block entry =
        (⟨entry, result.2.data, result.1⟩, result.2.after s.machine.visited) := by
    intro s result
    have hresult : outcome (A.evaluateBlock block) { s.machine with data := entry } =
        (result.1, result.2.after s.machine.visited) :=
      A.outcome_evaluateBlock_after block ⟨frameAt s entry, []⟩ s.machine.visited
    exact congrArg (fun made : List BlockId × Machine V D =>
      ((⟨entry, made.2.data, made.1⟩ : Visit D), made.2)) hresult
  rw [hinterpret s, hinterpret t, h.frameAt_eq]
  exact ⟨rfl, rfl⟩

/-- **The analysis goes on in the same way from states that resemble each other.** -/
theorem turn [BEq D] {limit position : Nat} {id id' : BlockId} {visit visit' : Visit D}
    (h : Resembles options s t)
    (hturn : Turn A (options.withLimit limit) schedule first s position (some (id, visit)) s')
    (hturn' : Turn A options schedule first t position (some (id', visit')) t') :
    Resembles options s' t' := by
  cases hturn with
  | visit _ block _ machine hid hblock hlimit hvisit =>
    cases hturn' with
    | visit _ block' _ machine' hid' hblock' hlimit' hvisit' =>
      obtain rfl : id = id' := Option.some.inj (hid.symm.trans hid')
      obtain rfl : block = block' := Option.some.inj (hblock.symm.trans hblock')
      have hentry : entryState A (options.withLimit limit) schedule first s.visits id
          (Solver.turns s id + 1) =
            entryState A options schedule first t.visits id (Solver.turns t id + 1) :=
        h.entryState_eq id
      rw [hentry] at hvisit
      obtain ⟨hsame, hframe⟩ := h.interpret_eq (A := A) block
        (entryState A options schedule first t.visits id (Solver.turns t id + 1))
      rw [hvisit, hvisit'] at hsame hframe
      obtain rfl : visit = visit' := hsame
      have hframe : machine.toFrame = machine'.toFrame := hframe
      refine ⟨congrArg Frame.routine hframe, congrArg Frame.values hframe,
        congrArg Frame.creations hframe, ?_, ?_, fun other => ?_⟩
      · show List.foldl _ _ _ = List.foldl _ _ _
        rw [h.pending, h.visits]
      · show s.visits.insert id visit = t.visits.insert id visit
        rw [h.visits]
      · have hturns := h.turns id
        have hother := h.turns other
        unfold Solver.turns at hturns hother ⊢
        by_cases heq : id = other
        · subst heq
          simp only [Environment.get?_insert_self, Option.getD_some]
          omega
        · rw [get?_insert_of_ne _ _ heq, get?_insert_of_ne _ _ heq]
          exact hother

end Resembles
end Solver

namespace Analysis

variable [AbstractValue V] [EntityState D V]

theorem statementStarts_after (A : Analysis V D) (statements : List Operation) (m : Machine V D)
    (earlier : List OperationId) : A.statementStarts statements (m.after earlier) =
      (A.statementStarts statements m).map (after earlier) := by
  induction statements generalizing m with
  | nil => rfl
  | cons statement statements ih =>
    rw [statementStarts, statementStarts, List.map_cons, outcome_evaluateStatement_after, ih]
    rfl

variable [BEq D] {A : Analysis V D} {routine : Routine} {options : Options} {first later : Nat}

variable (A routine options) in
/-- Between two steps all initializers have been left. -/
theorem machine_stateAfter (steps : Nat) :
    (A.stateAfter routine options steps).machine.routine = routine ∧
      (A.stateAfter routine options steps).machine.creations = [] := by
  refine stateAfter_induction (P := fun _ (state : Solver.State V D) =>
    state.machine.routine = routine ∧ state.machine.creations = []) ⟨rfl, rfl⟩
      (fun log before position made after _ hturn h => ?_) steps
  cases hturn with
  | overrun id hid hlimit => exact h
  | visit id block visit machine hid hblock hlimit hvisit =>
    have heffect := A.effect_evaluateBlock block { before.machine with
      data := Solver.entryState A options routine.schedule (A.initialState routine) before.visits id
        (Solver.turns before id + 1) }
    have hmachine : (outcome (A.evaluateBlock block) { before.machine with
        data := Solver.entryState A options routine.schedule (A.initialState routine) before.visits
          id (Solver.turns before id + 1) }).2 = machine := congrArg Prod.snd hvisit
    rw [hmachine] at heffect
    exact ⟨heffect.routine.trans h.1, heffect.creations.trans h.2⟩

variable (A routine options) in
/-- The analysis comes back to a state that resembles an earlier one.  Until then a single block is
pending at each step, and no block has used up its visits. -/
structure Circles (first later : Nat) : Prop where
  lt : first < later
  single : ∀ steps < later, (A.stateAfter routine options steps).pending.length = 1
  overruns : ∀ steps ≤ later, (A.stateAfter routine options steps).overruns = []
  resembles : Solver.Resembles options (A.stateAfter routine options later)
    (A.stateAfter routine options first)

namespace Circles

theorem taken?_eq {limit steps n : Nat}
    (h : Solver.Resembles options (A.stateAfter routine (options.withLimit limit) steps)
      (A.stateAfter routine options n)) :
    A.taken? routine (options.withLimit limit) steps = A.taken? routine options n := by
  unfold taken?
  rw [h.pending]
  rfl

/-- The pending block is the one that is taken up. -/
theorem exists_taken (h : A.Circles routine options first later) {n : Nat} (hn : n < later) :
    ∃ position, A.taken? routine options n = some position ∧
      (A.stateAfter routine options n).pending = [position] := by
  obtain ⟨position, hposition⟩ := List.length_eq_one_iff.1 (h.single n hn)
  cases htaken : A.taken? routine options n with
  | none =>
    rw [taken?_eq_none_iff.1 htaken] at hposition
    cases hposition
  | some taken =>
    have hmem := (ready_of_taken? htaken).1
    rw [hposition] at hmem
    obtain rfl : taken = position := List.mem_singleton.1 hmem
    exact ⟨taken, rfl, hposition⟩

/-- **The analysis goes round in circles**, until the pending block has used up its visits. -/
theorem exists_resembles (h : A.Circles routine options first later) (limit steps : Nat) :
    ((A.stateAfter routine (options.withLimit limit) steps).pending = [] ∧
      (A.stateAfter routine (options.withLimit limit) steps).overruns ≠ []) ∨
    ∃ n < later, Solver.Resembles options (A.stateAfter routine (options.withLimit limit) steps)
      (A.stateAfter routine options n) := by
  induction steps with
  | zero => exact .inr ⟨0, Nat.zero_lt_of_lt h.lt, .refl _⟩
  | succ steps ih =>
    rcases ih with ⟨hpending, hoverruns⟩ | ⟨n, hn, hresembles⟩
    · rw [stateAfter_succ_of_none (taken?_eq_none_iff.2 hpending)]
      exact .inl ⟨hpending, hoverruns⟩
    · obtain ⟨taken, htaken, hposition⟩ := h.exists_taken hn
      obtain ⟨made, hturn, -⟩ := turn_of_taken? ((taken?_eq hresembles).trans htaken)
      obtain ⟨made', hturn', -⟩ := turn_of_taken? htaken
      have hoverruns := h.overruns (n + 1) hn
      cases made' with
      | none =>
        generalize A.stateAfter routine options (n + 1) = after at hturn' hoverruns
        cases hturn'
        cases hoverruns
      | some made' =>
        cases made with
        | none =>
          have hpending := hresembles.pending
          rw [hposition] at hpending
          generalize A.stateAfter routine (options.withLimit limit) (steps + 1) = after at hturn
          cases hturn with
          | overrun id hid hlimit =>
            refine .inl ⟨?_, List.cons_ne_nil _ _⟩
            show List.erase _ _ = _
            rw [hpending]
            exact List.erase_cons_head taken []
        | some made =>
          have hnext := hresembles.turn hturn hturn'
          rcases Nat.lt_or_eq_of_le hn with hlt | rfl
          · exact .inr ⟨n + 1, hlt, hnext⟩
          · exact .inr ⟨first, h.lt, hnext.trans h.resembles⟩

/-- **No limit is high enough** for an analysis that goes round in circles. -/
theorem reachedLimit (h : A.Circles routine options first later) (limit : Nat) :
    (A.solve routine (options.withLimit limit)).reachedLimit = true := by
  have hend : A.stateAfter routine (options.withLimit limit)
      (Solver.stepBound (options.withLimit limit) (.ofGraph routine.graph)) =
        A.finalState routine (options.withLimit limit) := (stateAfter_eq_finalState le_rfl).1
  rw [← Bool.not_eq_false, reachedLimit_eq_false_iff, ← hend]
  rcases h.exists_resembles limit _ with ⟨-, hoverruns⟩ | ⟨n, hn, hresembles⟩
  · exact hoverruns
  · have hlength := h.single n hn
    rw [← hresembles.pending, hend, finalState_pending] at hlength
    cases hlength

theorem toFrame_blockStart {limit steps n : Nat}
    (h : Solver.Resembles options (A.stateAfter routine (options.withLimit limit) steps)
      (A.stateAfter routine options n)) (id : BlockId) :
    (A.blockStart routine (options.withLimit limit) steps id).toFrame =
      (A.blockStart routine options n id).toFrame := by
  have hentry : Solver.entryState A (options.withLimit limit) routine.schedule
      (A.initialState routine) (A.stateAfter routine (options.withLimit limit) steps).visits id
        (Solver.turns (A.stateAfter routine (options.withLimit limit) steps) id + 1) =
      Solver.entryState A options routine.schedule (A.initialState routine)
        (A.stateAfter routine options n).visits id
          (Solver.turns (A.stateAfter routine options n) id + 1) := h.entryState_eq id
  unfold blockStart
  dsimp only
  rw [hentry]
  exact h.frameAt_eq _

/-- **The evaluations of an analysis that goes round in circles are those of the first round**,
whatever the limit is. -/
theorem exists_evaluation (h : A.Circles routine options first later) {limit : Nat}
    {part : Operation × Machine V D}
    (hpart : A.Interprets routine (options.withLimit limit) part) :
    ∃ n < later, ∃ found ∈ A.evaluationsAt routine options n,
      found.1 = part.1 ∧ found.2.toFrame = part.2.toFrame := by
  obtain ⟨htaken, hid, hblock, hlimit, hstart, hpart⟩ := hpart
  next steps position id block start =>
  rcases h.exists_resembles limit steps with ⟨hpending, -⟩ | ⟨n, hn, hresembles⟩
  · rw [taken?_eq_none_iff.2 hpending] at htaken
    cases htaken
  · have htaken' : A.taken? routine options n = some position :=
      (taken?_eq hresembles).symm.trans htaken
    let bare : Machine V D := ⟨(A.blockStart routine options n id).toFrame, []⟩
    have hrecord : A.blockStart routine (options.withLimit limit) steps id = bare.after
        (A.blockStart routine (options.withLimit limit) steps id).visited := by
      show _ = Machine.mk _ _
      rw [← toFrame_blockStart hresembles id]
      rfl
    rw [hrecord, statementStarts_after] at hstart
    obtain ⟨bareStart, hbareStart, rfl⟩ := List.mem_map.1 hstart
    obtain ⟨found, hfound, rfl⟩ := exists_comesTo_of_after hpart
    let record := (A.blockStart routine options n id).visited
    have hlater : after record bareStart ∈ A.statementStarts block.statements
        (A.blockStart routine options n id) := by
      have hstarts := A.statementStarts_after block.statements bare record
      exact hstarts ▸ List.mem_map_of_mem hbareStart
    exact ⟨n, hn, after record found,
      mem_evaluationsAt htaken' hid hblock hlater (hfound.after record), rfl, rfl⟩

end Circles
end Analysis
end HeapFlow
