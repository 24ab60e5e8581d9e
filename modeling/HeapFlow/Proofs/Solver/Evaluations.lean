import HeapFlow.Proofs.Interpreter.Encounter
import HeapFlow.Proofs.Solver.Invariant
import HeapFlow.Proofs.Solver.Limit

/-! # The evaluations of an analysis

While a routine is analysed, its blocks are interpreted in many states, and so the operations of its
body are evaluated from many machines (`Analysis.Interprets`).  If an analysis upholds an invariant,
then the invariant holds of all of them (`Analysis.holds_interprets`).

If the analysis is over after few steps, its evaluations can be listed
(`Analysis.mem_evaluations_of_interprets`).
-/
namespace HeapFlow
namespace Analysis

variable {V D : Type} [AbstractValue V] [EntityState D V] (A : Analysis V D)

/-- The operations of a block, each with the machine that its evaluation starts from. -/
def statementStarts : List Operation → Machine V D → List (Operation × Machine V D)
  | [], _ => []
  | statement :: statements, m =>
    (statement, { m with data := A.beforeStatement m.toFrame }) ::
      statementStarts statements (outcome (A.evaluateStatement statement) m).2

section Invariant

variable {A} {I : Invariant V D} (hA : A.Maintains I)
include hA

theorem holds_statementStarts {statements : List Operation} {m : Machine V D}
    (h : ∀ statement ∈ statements, I.operation statement) (hm : I.Holds m.toFrame) :
    ∀ start ∈ A.statementStarts statements m, I.operation start.1 ∧ I.Holds start.2.toFrame := by
  induction statements generalizing m with
  | nil => exact fun start hstart => by cases hstart
  | cons statement statements ih =>
    intro start hstart
    have hstatement := h statement List.mem_cons_self
    have hbefore := (preserves_beforeStatement hA m hm).2
    rcases List.mem_cons.1 hstart with rfl | hstart
    · exact ⟨hstatement, hbefore⟩
    · exact ih (fun other hother => h other (List.mem_cons_of_mem statement hother))
        (preserves_evaluate hA hstatement _ hbefore).2 start hstart

end Invariant

variable [BEq D] (routine : Routine) (options : Options)

/-- The machine from which a block is interpreted after the given number of steps. -/
def blockStart (steps : Nat) (id : BlockId) : Machine V D :=
  let before := A.stateAfter routine options steps
  { before.machine with
    data := Solver.entryState A options routine.schedule (A.initialState routine) before.visits id
      (Solver.turns before id + 1) }

/-- While the routine is analysed, the operation is evaluated from the machine. -/
inductive Interprets : Operation × Machine V D → Prop
  | intro {steps position : Nat} {id : BlockId} {block : Block}
      {start part : Operation × Machine V D}
      (htaken : A.taken? routine options steps = some position)
      (hid : routine.schedule.order[position]? = some id)
      (hblock : routine.graph.block? id = some block)
      (hlimit : Solver.turns (A.stateAfter routine options steps) id < options.maxIterations)
      (hstart : start ∈ A.statementStarts block.statements
        (A.blockStart routine options steps id))
      (hpart : A.ComesTo start part) : Interprets part

section Upheld

variable {A} {I : Invariant V D} (hA : A.Upholds I) {options : Options}
include hA

/-- **An invariant that is upheld holds of all machines from which operations are evaluated.** -/
theorem holds_interprets {part : Operation × Machine V D}
    (h : A.Interprets I.routine options part) :
    I.operation part.1 ∧ I.Holds part.2.toFrame := by
  obtain ⟨htaken, hid, hblock, -, hstart, hpart⟩ := h
  next steps position id block start =>
  have hs := I.routine.schedule_sound
  let P := fun log (state : Solver.State V D) =>
    Solver.Traced I.routine.schedule log state ∧ Solver.Upheld A I state
  obtain ⟨htraced, hupheld⟩ : P (A.visitsAfter I.routine options steps)
      (A.stateAfter I.routine options steps) :=
    stateAfter_induction ⟨Solver.traced_start hs I.routine, Solver.upheld_start hA⟩
      (fun log before position made after hready hturn h =>
        ⟨h.1.turn hs hturn, h.2.turn hA h.1 hready.1 hturn⟩) steps
  have hposition := (ready_of_taken? htaken).1
  have hmachine : I.Holds (A.blockStart I.routine options steps id).toFrame :=
    ⟨hupheld.routine, hupheld.state_entryState hA htraced hposition hid options _, hupheld.values⟩
  have hstatements := hA.operations (hupheld.reached htraced hposition hid) hblock
  obtain ⟨hoperation, hholds⟩ :=
    holds_statementStarts hA.maintains hstatements hmachine start hstart
  exact holds_comesTo hA.maintains hpart hoperation hholds

end Upheld

/-! ## Listing the evaluations -/

omit [BEq D]

/-- The evaluations that an evaluation comes to, down to the given depth. -/
def evaluationsFrom : Nat → Operation × Machine V D → List (Operation × Machine V D)
  | 0, _ => []
  | depth + 1, start => start :: (A.starts start.1 start.2).flatMap (evaluationsFrom depth)

end Analysis

/-- Less is performed along with a part than along with the whole operation. -/
theorem Operation.length_performed_lt {operation part : Operation}
    (h : part ∈ operation.performedChildren) :
    part.performed.length < operation.performed.length := by
  obtain ⟨before, after, hparts⟩ := List.append_of_mem h
  have heq := congrArg List.length operation.performed_eq
  rw [hparts] at heq
  simp only [List.flatMap_append, List.flatMap_cons, List.length_cons, List.length_append] at heq
  omega

namespace Analysis

variable {V D : Type} [AbstractValue V] [EntityState D V] {A : Analysis V D}

/-- All evaluations that an evaluation comes to are listed if the depth is enough. -/
theorem mem_evaluationsFrom {start part : Operation × Machine V D} (h : A.ComesTo start part)
    {depth : Nat} (hdepth : start.1.performed.length ≤ depth) :
    part ∈ A.evaluationsFrom depth start := by
  induction depth generalizing start with
  | zero =>
    have hself := List.length_pos_of_mem start.1.self_mem_performed
    omega
  | succ depth ih =>
    rw [evaluationsFrom]
    rcases Relation.ReflTransGen.cases_head h with rfl | ⟨next, hnext, hrest⟩
    · exact List.mem_cons_self
    · have hlt := Operation.length_performed_lt (mem_of_mem_starts hnext)
      exact List.mem_cons_of_mem _ (List.mem_flatMap.2 ⟨next, hnext, ih hrest (by omega)⟩)

variable [BEq D] {routine : Routine} {options : Options}

variable (A routine options) in
/-- The evaluations of the block that is taken up after the given number of steps. -/
def evaluationsAt (steps : Nat) : List (Operation × Machine V D) :=
  let visited? : Option (BlockId × Block) := do
    let position ← A.taken? routine options steps
    let id ← routine.schedule.order[position]?
    let block ← routine.graph.block? id
    return (id, block)
  visited?.toList.flatMap fun visited =>
    (A.statementStarts visited.2.statements (A.blockStart routine options steps visited.1)).flatMap
      fun start => A.evaluationsFrom start.1.performed.length start

theorem mem_evaluationsAt {steps position : Nat} {id : BlockId} {block : Block}
    {start part : Operation × Machine V D}
    (htaken : A.taken? routine options steps = some position)
    (hid : routine.schedule.order[position]? = some id)
    (hblock : routine.graph.block? id = some block)
    (hstart : start ∈ A.statementStarts block.statements (A.blockStart routine options steps id))
    (hpart : A.ComesTo start part) : part ∈ A.evaluationsAt routine options steps := by
  refine List.mem_flatMap.2 ⟨(id, block), ?_, ?_⟩
  · simp [htaken, hid, hblock]
  · exact List.mem_flatMap.2 ⟨start, hstart, mem_evaluationsFrom hpart le_rfl⟩

/-- If the entry block is the only one that is taken up, then all evaluations are those of its
statements. -/
theorem mem_evaluationsFrom_of_interprets
    (hsecond : A.taken? routine options 1 = none) {part : Operation × Machine V D}
    (h : A.Interprets routine options part) {block : Block}
    (hentry : routine.graph.block? routine.graph.entry = some block) :
    ∃ start ∈ A.statementStarts block.statements
      (A.blockStart routine options 0 routine.graph.entry),
      part ∈ A.evaluationsFrom start.1.performed.length start := by
  obtain ⟨htaken, hid, hblock, -, hstart, hpart⟩ := h
  next steps position id block' start =>
  obtain rfl : steps = 0 := by
    by_contra hne
    have hlater := stateAfter_of_le hsecond (Nat.one_le_iff_ne_zero.2 hne)
    unfold taken? at htaken hsecond
    rw [hlater, hsecond] at htaken
    cases htaken
  obtain rfl : position = 0 := List.mem_singleton.1 (ready_of_taken? htaken).1
  obtain rfl : id = routine.graph.entry :=
    Option.some.inj (hid.symm.trans routine.schedule_sound.entry)
  obtain rfl : block' = block := Option.some.inj (hblock.symm.trans hentry)
  exact ⟨start, hstart, mem_evaluationsFrom hpart le_rfl⟩

end Analysis
end HeapFlow
