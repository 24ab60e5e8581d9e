import HeapFlow.Proofs.Interpreter.Invariant
import HeapFlow.Proofs.Solver.Reachability

/-! # Invariants of the solver

If the interpretation of blocks maintains an invariant, and if merging and widening states do, then
all that the solver records satisfies the invariant (`Analysis.upheld_finalState`): each recorded
visit is the interpretation of its block from a state of the invariant (`Solver.Interpreted`).

A property of states persists if it does not get lost where states meet (`Analysis.Persists`).  Once
no block is pending, such a property of the exit state of a block holds of the entry states of the
blocks that control can go on to (`Solver.Carried`).  So if all blocks of a path keep the property,
then it holds at the end of the path (`Analysis.exit_of_path`).

Assertions may also differ from block to block.  If they follow from one another along the edges
that control may take, then they hold of all recorded states (`Analysis.Annotates.holds`).
-/
namespace HeapFlow

variable {V D : Type} [AbstractValue V] [EntityState D V]

/-- What is decided between the blocks stays within the invariant as well. -/
structure Analysis.Upholds (A : Analysis V D) (I : Invariant V D) : Prop where
  maintains : A.Maintains I
  noValues : I.values .empty
  initial : I.state (A.initialState I.routine)
  widen : ∀ {a p}, I.state a → I.state p → I.state (A.widenData a p)
  operations : ∀ {id block}, I.routine.graph.Reached id → I.routine.graph.block? id = some block →
    ∀ operation ∈ block.statements, I.operation operation

/-- The invariant that says nothing about what an analysis of a routine comes up with. -/
abbrev Routine.unrestricted (routine : Routine) : Invariant V D := .ofState routine fun _ => True

theorem Analysis.upholds_unrestricted (A : Analysis V D) (routine : Routine) :
    A.Upholds routine.unrestricted where
  maintains := maintains_ofState (fun h => h) (fun h => h) (fun h => h) (fun h => h) fun h _ => h
  noValues := trivial
  initial := trivial
  widen _ _ := trivial
  operations _ _ _ _ := trivial

/-- A property of states that does not get lost where states meet. -/
structure Analysis.Persists [BEq D] (A : Analysis V D) (I : Invariant V D) (property : D → Prop) :
    Prop where
  merge : ∀ {a b}, I.state a → I.state b → property a ∨ property b → property (A.mergeData a b)
  widen : ∀ {a p}, I.state a → I.state p → property a → property (A.widenData a p)
  beq : ∀ {a b}, I.state a → I.state b → (a == b) = true → property b → property a

namespace Solver

variable {A : Analysis V D} {I : Invariant V D}

/-! ## Recorded visits -/

variable (A I) in
/-- The visit is the interpretation of a block that control can reach, from a state and with values
of the invariant. -/
structure Interpreted (id : BlockId) (visit : Visit D) : Prop where
  reached : I.routine.graph.Reached id
  exists_machine : ∃ block machine, I.routine.graph.block? id = some block ∧
    I.Holds { machine.toFrame with data := visit.entry } ∧
      visit = (interpret A machine block visit.entry).1

/-- The interpretation of a block stays within the invariant. -/
theorem holds_interpret (hA : A.Maintains I) {block : Block}
    (h : ∀ operation ∈ block.statements, I.operation operation) {machine : Machine V D} {entry : D}
    (hmachine : I.Holds { machine.toFrame with data := entry }) :
    I.Holds (interpret A machine block entry).2.toFrame :=
  (Analysis.preserves_evaluateBlock hA h { machine with data := entry } hmachine).2

/-- The machine after a visit, if the interpretation of the block stays within an invariant. -/
theorem holds_of_interpret {machine machine' : Machine V D} {block : Block} {entry : D}
    {visit : Visit D} (hvisit : interpret A machine block entry = (visit, machine'))
    (h : I.Holds (interpret A machine block entry).2.toFrame) :
    I.Holds machine'.toFrame ∧ visit.exit = machine'.data := by
  have hexit := congrArg (fun result => result.1.exit) hvisit
  rw [hvisit] at h
  exact ⟨h, hexit.symm.trans (congrArg (fun result => result.2.data) hvisit)⟩

theorem Interpreted.entry {id : BlockId} {visit : Visit D} (h : Interpreted A I id visit) :
    I.state visit.entry := by
  obtain ⟨block, machine, -, hmachine, -⟩ := h.exists_machine
  exact hmachine.state

theorem Interpreted.exit (hA : A.Upholds I) {id : BlockId} {visit : Visit D}
    (h : Interpreted A I id visit) : I.state visit.exit := by
  obtain ⟨block, machine, hblock, hmachine, heq⟩ := h.exists_machine
  rw [heq]
  exact (holds_interpret hA.maintains (hA.operations h.reached hblock) hmachine).state

variable (A I) in
/-- All that the solver has recorded satisfies the invariant. -/
structure Upheld (state : State V D) : Prop where
  routine : state.machine.routine = I.routine
  values : I.values state.machine.values
  visits : ∀ {id visit}, state.visits.get? id = some visit → Interpreted A I id visit

theorem upheld_start (hA : A.Upholds I) : Upheld A I (start I.routine : State V D) where
  routine := rfl
  values := hA.noValues
  visits h := by simp [start] at h

/-! ## Turns -/

section Turn

variable {options : Options} {log : List (BlockId × Visit D)} {before after : State V D}
  {position : Nat} {made : Option (BlockId × Visit D)} {id : BlockId}
variable (hA : A.Upholds I)
variable (htraced : Traced I.routine.schedule log before) (hposition : position ∈ before.pending)
  (hid : I.routine.schedule.order[position]? = some id)

include hA in
theorem Upheld.state_of_mem_inflow (h : Upheld A I before) :
    ∀ state ∈ I.routine.graph.inflow (A.initialState I.routine) (exit? before) id,
      I.state state := by
  intro state hstate
  rcases ControlFlowGraph.mem_inflow.1 hstate with ⟨-, rfl⟩ | ⟨source, -, -, hexit⟩
  · exact hA.initial
  · obtain ⟨visit, hvisit, rfl⟩ := Option.map_eq_some_iff.1 hexit
    exact (h.visits hvisit).exit hA

omit [AbstractValue V] [EntityState D V] in
/-- The state from which a block is interpreted is the merge of what flows into it, or the widening
of that merge. -/
theorem entryState_cases (first : D) (visits : Environment BlockId (Visit D)) (schedule : Schedule)
    (count : Nat) : entryState A options schedule first visits id count =
        mergedEntry A schedule first visits id ∨
      ∃ previous, visits.get? id = some previous ∧
        entryState A options schedule first visits id count =
          A.widenData (mergedEntry A schedule first visits id) previous.entry := by
  unfold entryState
  dsimp only
  split
  · split
    · next previous hprevious => exact .inr ⟨previous, hprevious, rfl⟩
    · exact .inl rfl
  · exact .inl rfl

include htraced hposition hid

include hA in
theorem Upheld.state_mergedEntry (h : Upheld A I before) :
    I.state (mergedEntry A I.routine.schedule (A.initialState I.routine) before.visits id) :=
  Analysis.mergeAll?_of_closed hA.maintains.merge (h.state_of_mem_inflow hA)
    (htraced.mergeAll?_inflow I.routine.schedule_sound hposition hid)

include hA in
theorem Upheld.state_entryState (h : Upheld A I before) (options : Options) (count : Nat) :
    I.state (entryState A options I.routine.schedule (A.initialState I.routine) before.visits id
      count) := by
  have hmerged := h.state_mergedEntry hA htraced hposition hid
  rcases entryState_cases (A.initialState I.routine) before.visits I.routine.schedule count with
    heq | ⟨previous, hprevious, heq⟩
  · rwa [heq]
  · rw [heq]
    exact hA.widen hmerged (h.visits hprevious).entry

/-- Control can reach the block that is taken up. -/
theorem Upheld.reached (h : Upheld A I before) : I.routine.graph.Reached id := by
  rcases htraced.wanted position hposition id hid with rfl | ⟨source, hsource, hflow⟩
  · exact .entry
  · obtain ⟨visit, hvisit⟩ := Option.isSome_iff_exists.1 hsource
    exact (h.visits hvisit).reached.flow hflow
      (I.routine.schedule_sound.known id (List.mem_of_getElem? hid))

/-- The block that is taken up is interpreted from a state of the invariant. -/
theorem Upheld.interpreted (h : Upheld A I before) {block : Block}
    (hblock : I.routine.graph.block? id = some block) {entry : D} (hentry : I.state entry) :
    I.Holds { before.machine.toFrame with data := entry } ∧
      Interpreted A I id (interpret A before.machine block entry).1 := by
  have hmachine : I.Holds { before.machine.toFrame with data := entry } :=
    ⟨h.routine, hentry, h.values⟩
  exact ⟨hmachine, h.reached htraced hposition hid, block, before.machine, hblock, hmachine, rfl⟩

omit hid
variable [BEq D]

include hA in
/-- **A turn stays within the invariant.** -/
theorem Upheld.turn (hturn : Turn A options I.routine.schedule (A.initialState I.routine) before
      position made after) (h : Upheld A I before) : Upheld A I after := by
  cases hturn with
  | overrun id hid hlimit => exact ⟨h.routine, h.values, h.visits⟩
  | visit id block visit machine hid hblock hlimit hvisit =>
    obtain ⟨hmachine, hinterpreted⟩ := h.interpreted htraced hposition hid hblock
      (h.state_entryState hA htraced hposition hid options (turns before id + 1))
    have hafter := holds_interpret hA.maintains (hA.operations hinterpreted.reached hblock) hmachine
    rw [hvisit] at hafter hinterpreted
    refine ⟨hafter.routine, hafter.values, fun {other found} hfound => ?_⟩
    rcases (get?_insert_eq_some_iff _).1 hfound with ⟨rfl, rfl⟩ | ⟨-, hfound⟩
    · exact hinterpreted
    · exact h.visits hfound

end Turn

/-! ## Properties that are carried along edges -/

omit [AbstractValue V] [EntityState D V] in
/-- The exit state of a block flows into the blocks that control can go on to. -/
theorem mem_inflow_of_edge {graph : ControlFlowGraph} {first : D} {state : State V D}
    {source target : BlockId} {visit : Visit D} (hvisit : state.visits.get? source = some visit)
    (hedge : graph.HasFeasibleEdge source target) :
    visit.exit ∈ graph.inflow first (exit? state) target := by
  obtain ⟨hflow, htarget⟩ := graph.hasFeasibleEdge_iff.1 hedge
  exact ControlFlowGraph.mem_inflow.2 (.inr ⟨source, graph.mem_predecessors_iff.2
    (graph.mem_successors_of_canFlow hflow htarget), hflow, by simp [exit?, hvisit]⟩)

section Carried

variable [BEq D] {property : D → Prop}

variable (property) in
/-- Where an exit state has the property, so have the entry states of the blocks that control can go
on to, unless they are pending. -/
def Carried (schedule : Schedule) (state : State V D) : Prop :=
  ∀ source target visit, state.visits.get? source = some visit →
    schedule.graph.HasFeasibleEdge source target → property visit.exit →
      (∃ p ∈ state.pending, schedule.order[p]? = some target) ∨
        ∃ found, state.visits.get? target = some found ∧ property found.entry

variable {options : Options} {log : List (BlockId × Visit D)} {before after : State V D}
  {position : Nat} {made : Option (BlockId × Visit D)}
variable (hA : A.Upholds I) (hproperty : A.Persists I property)
variable (htraced : Traced I.routine.schedule log before) (hposition : position ∈ before.pending)
include hA hproperty htraced hposition

/-- A block that is taken up is interpreted from a state that has the property, if a state that
flows into it has. -/
theorem Upheld.property_entryState (h : Upheld A I before) {id : BlockId}
    (hid : I.routine.schedule.order[position]? = some id) {state : D}
    (hmem : state ∈ I.routine.graph.inflow (A.initialState I.routine) (exit? before) id)
    (hstate : property state) (count : Nat) :
    property (entryState A options I.routine.schedule (A.initialState I.routine) before.visits id
      count) := by
  have hmerged := Analysis.mergeAll?_of_mem hA.maintains.merge hproperty.merge
    (h.state_of_mem_inflow hA)
    (htraced.mergeAll?_inflow I.routine.schedule_sound hposition hid) hmem hstate
  rcases entryState_cases (A.initialState I.routine) before.visits I.routine.schedule count with
    heq | ⟨previous, hprevious, heq⟩
  · rwa [heq]
  · rw [heq]
    exact hproperty.widen (h.state_mergedEntry hA htraced hposition hid)
      (h.visits hprevious).entry hmerged

/-- What was carried along before a visit still is: the visited block itself takes up what flows
into it. -/
theorem Carried.visit (hupheld : Upheld A I before) (h : Carried property I.routine.schedule before)
    {id source target : BlockId} (hid : I.routine.schedule.order[position]? = some id)
    {visit previous : Visit D} {count : Nat}
    (hentry : visit.entry = entryState A options I.routine.schedule (A.initialState I.routine)
      before.visits id count)
    (hprevious : before.visits.get? source = some previous)
    (hedge : I.routine.graph.HasFeasibleEdge source target) (hexit : property previous.exit) :
    (∃ p ∈ (affected I.routine.schedule (before.visits.get? id) visit).foldl
        (fun pending p => Worklist.insert p pending) (before.pending.erase position),
      I.routine.schedule.order[p]? = some target) ∨
      ∃ found, (before.visits.insert id visit).get? target = some found ∧
        property found.entry := by
  by_cases htarget : id = target
  · subst htarget
    refine .inr ⟨visit, by simp, ?_⟩
    rw [hentry]
    exact hupheld.property_entryState hA hproperty htraced hposition hid
      (mem_inflow_of_edge hprevious hedge) hexit _
  · rcases h source target previous hprevious hedge hexit with
      ⟨p, hp, htaken⟩ | ⟨found, hfound, hproperty⟩
    · have hne : p ≠ position := by
        rintro rfl
        exact htarget (Option.some.inj (hid.symm.trans htaken))
      exact .inl ⟨p, Worklist.mem_foldl_insert.2 (.inr ((List.mem_erase_of_ne hne).2 hp)), htaken⟩
    · exact .inr ⟨found, by rwa [get?_insert_of_ne before.visits visit htarget], hproperty⟩

/-- **A turn carries the property along**, unless a block has used up its visits. -/
theorem Carried.turn (hupheld : Upheld A I before)
    (hturn : Turn A options I.routine.schedule (A.initialState I.routine) before position made
      after)
    (hoverruns : after.overruns = []) (h : Carried property I.routine.schedule before) :
    Carried property I.routine.schedule after := by
  have hs := I.routine.schedule_sound
  have hafter := htraced.turn hs hturn
  have hupheld' := hupheld.turn hA htraced hposition hturn
  cases hturn with
  | overrun id hid hlimit => simp at hoverruns
  | visit id block visit machine hid hblock hlimit hvisit =>
    have hentry : visit.entry = entryState A options I.routine.schedule (A.initialState I.routine)
        before.visits id (turns before id + 1) :=
      congrArg (fun result => result.1.entry) hvisit.symm
    intro source target found hfound hedge hexit
    rcases (get?_insert_eq_some_iff _).1 hfound with ⟨rfl, rfl⟩ | ⟨-, hfound⟩
    · obtain ⟨hflow, htarget⟩ := I.routine.graph.hasFeasibleEdge_iff.1 hedge
      obtain ⟨p, hp⟩ : ∃ p, I.routine.schedule.position? target = some p := by
        obtain ⟨p, hp⟩ := hs.mem_order_iff.1
          (hs.mem_order_of_canFlow (hafter.known id found hfound).1 hflow htarget)
        exact ⟨p, hp⟩
      by_cases haffected : p ∈ affected I.routine.schedule (before.visits.get? id) found
      · exact .inl ⟨p, Worklist.mem_foldl_insert.2 (.inl haffected),
          hs.position?_eq_some_iff.1 hp⟩
      · -- The target is spared, so the exit state was there before and compares as the same.
        have hsuccessor := ((hafter.known id found hfound).2 target).2 hflow
        obtain ⟨previous, hprevious, hsame⟩ : ∃ previous, before.visits.get? id = some previous ∧
            (previous.exit == found.exit) = true := by
          refine Classical.byContradiction fun hnone => haffected (mem_affected_iff.2
            ⟨target, hsuccessor, hp, fun previous hprevious hsame => ?_⟩)
          exact absurd ⟨previous, hprevious, hsame⟩ hnone
        exact h.visit hA hproperty htraced hposition hupheld hid hentry hprevious hedge
          (hproperty.beq ((hupheld.visits hprevious).exit hA) ((hupheld'.visits hfound).exit hA)
            hsame hexit)
    · exact h.visit hA hproperty htraced hposition hupheld hid hentry hfound hedge hexit

end Carried

end Solver

namespace Analysis

variable [BEq D] {A : Analysis V D} {I : Invariant V D} (hA : A.Upholds I) (options : Options)
include hA

/-- **All that the solver records satisfies the invariant.** -/
theorem upheld_finalState : Solver.Upheld A I (A.finalState I.routine options) := by
  have hs := I.routine.schedule_sound
  let P := fun log (state : Solver.State V D) =>
    Solver.Traced I.routine.schedule log state ∧ Solver.Upheld A I state
  have hfinal : P (A.visitLog I.routine options) (A.finalState I.routine options) :=
    finalState_induction ⟨Solver.traced_start hs I.routine, Solver.upheld_start hA⟩
      fun log before position made after hready hturn h =>
        ⟨h.1.turn hs hturn, h.2.turn hA h.1 hready.1 hturn⟩
  exact hfinal.2

variable {options}

/-- What holds of each visit, and of the table of values after it, if it holds of the visits before
it and of the table of values then, holds of all that is recorded in the end. -/
theorem records_induction {P : BlockId → Visit D → Prop} {T : Environment OperationId V → Prop}
    (hstart : T .empty)
    (hvisit : ∀ {log before position id block}, Solver.Traced I.routine.schedule log before →
      Solver.Upheld A I before →
      (∀ other visit, before.visits.get? other = some visit → P other visit) →
      T before.machine.values → position ∈ before.pending →
      I.routine.schedule.order[position]? = some id → I.routine.graph.block? id = some block →
      ∀ count, let made := Solver.interpret A before.machine block (Solver.entryState A options
          I.routine.schedule (A.initialState I.routine) before.visits id count)
        P id made.1 ∧ T made.2.values) :
    (∀ id visit, (A.finalState I.routine options).visits.get? id = some visit → P id visit) ∧
      T (A.finalState I.routine options).machine.values := by
  have hs := I.routine.schedule_sound
  let Q := fun log (state : Solver.State V D) =>
    Solver.Traced I.routine.schedule log state ∧ Solver.Upheld A I state ∧
      (∀ id visit, state.visits.get? id = some visit → P id visit) ∧ T state.machine.values
  have hfirst : Q [] (Solver.start I.routine) :=
    ⟨Solver.traced_start hs I.routine, Solver.upheld_start hA,
      fun id visit hvisit => by simp [Solver.start] at hvisit, hstart⟩
  have hfinal : Q (A.visitLog I.routine options) (A.finalState I.routine options) := by
    refine finalState_induction hfirst fun log before position made after hready hturn h => ?_
    obtain ⟨htraced, hupheld, hvisits, hvalues⟩ := h
    have hmade : (∀ id visit, after.visits.get? id = some visit → P id visit) ∧
        T after.machine.values := by
      cases hturn with
      | overrun id hid hlimit => exact ⟨hvisits, hvalues⟩
      | visit id block visit machine hid hblock hlimit hinterpret =>
        have hmade := hvisit htraced hupheld hvisits hvalues hready.1 hid hblock
          (Solver.turns before id + 1)
        rw [hinterpret] at hmade
        refine ⟨fun other found hfound => ?_, hmade.2⟩
        rcases (Solver.get?_insert_eq_some_iff _).1 hfound with ⟨rfl, rfl⟩ | ⟨-, hfound⟩
        · exact hmade.1
        · exact hvisits other found hfound
    exact ⟨htraced.turn hs hturn, hupheld.turn hA htraced hready.1 hturn, hmade⟩
  exact hfinal.2.2

variable {property : D → Prop} (hproperty : A.Persists I property)
include hproperty

/-- A property of the initial state holds of the entry state of the entry block. -/
theorem entry_of_first (hfirst : property (A.initialState I.routine)) {visit : Visit D}
    (hvisit : (A.finalState I.routine options).visits.get? I.routine.graph.entry = some visit) :
    property visit.entry := by
  let P := fun id (visit : Visit D) => id = I.routine.graph.entry → property visit.entry
  refine (records_induction hA (P := P) (T := fun _ => True) trivial
    fun htraced hupheld _ _ hposition hid _ count => ⟨?_, trivial⟩).1 _ visit hvisit rfl
  rintro rfl
  exact hupheld.property_entryState hA hproperty htraced hposition hid
    (ControlFlowGraph.mem_inflow.2 (.inl ⟨rfl, rfl⟩)) hfirst count

/-- Once no block is pending, the property of an exit state holds of the entry states of the blocks
that control can go on to. -/
theorem entry_of_edge (hlimit : (A.finalState I.routine options).overruns = [])
    {source target : BlockId} (hedge : I.routine.graph.HasFeasibleEdge source target)
    {visit : Visit D} (hvisit : (A.finalState I.routine options).visits.get? source = some visit)
    (hexit : property visit.exit) :
    ∃ found, (A.finalState I.routine options).visits.get? target = some found ∧
      property found.entry := by
  have hs := I.routine.schedule_sound
  let P := fun log (state : Solver.State V D) =>
    Solver.Traced I.routine.schedule log state ∧ Solver.Upheld A I state ∧
      (state.overruns = [] → Solver.Carried property I.routine.schedule state)
  have hstart : P [] (Solver.start I.routine) :=
    ⟨Solver.traced_start hs I.routine, Solver.upheld_start hA,
      fun _ source target visit hvisit => by simp [Solver.start] at hvisit⟩
  have hfinal : P (A.visitLog I.routine options) (A.finalState I.routine options) := by
    refine finalState_induction hstart fun log before position made after hready hturn h => ?_
    obtain ⟨htraced, hupheld, hcarried⟩ := h
    refine ⟨htraced.turn hs hturn, hupheld.turn hA htraced hready.1 hturn, fun hoverruns => ?_⟩
    exact (hcarried (hturn.overruns_eq_nil hoverruns)).turn hA hproperty htraced hready.1 hupheld
      hturn hoverruns
  rcases hfinal.2.2 hlimit source target visit hvisit hedge hexit with ⟨p, hp, -⟩ | hfound
  · simp [finalState_pending] at hp
  · exact hfound

/-- **A property that persists holds at the end of a path whose blocks keep it.** -/
theorem exit_of_path (hlimit : (A.finalState I.routine options).overruns = [])
    {keeps : BlockId → Prop}
    (hkeeps : ∀ {id visit}, keeps id → Solver.Interpreted A I id visit → property visit.entry →
      property visit.exit) {source target : BlockId}
    (hpath : Relation.ReflTransGen (fun a b => I.routine.graph.HasFeasibleEdge a b ∧ keeps b)
      source target)
    (hsource : ∃ visit, (A.finalState I.routine options).visits.get? source = some visit ∧
      property visit.exit) :
    ∃ visit, (A.finalState I.routine options).visits.get? target = some visit ∧
      property visit.exit := by
  induction hpath with
  | refl => exact hsource
  | tail _ hstep ih =>
    obtain ⟨visit, hvisit, hexit⟩ := ih
    obtain ⟨found, hfound, hentry⟩ := entry_of_edge hA hproperty hlimit hstep.1 hvisit hexit
    exact ⟨found, hfound, hkeeps hstep.2 ((upheld_finalState hA options).visits hfound) hentry⟩

end Analysis

/-! ## Annotated blocks -/

namespace Analysis

variable [BEq D]

/-- Assertions about the states at the start and at the end of each block, and about the table of
values, that follow from one another along the edges that control may take. -/
structure Annotates (A : Analysis V D) (routine : Routine) (entry exit : BlockId → D → Prop)
    (table : Environment OperationId V → Prop) : Prop where
  merge : ∀ {id a b}, entry id a → entry id b → entry id (A.mergeData a b)
  widen : ∀ {id a p}, entry id a → entry id p → entry id (A.widenData a p)
  first : entry routine.graph.entry (A.initialState routine)
  edge : ∀ {source target a}, routine.graph.Reached source →
    routine.graph.HasFeasibleEdge source target → exit source a → entry target a
  noValues : table .empty
  block : ∀ {id block} {m : Machine V D}, routine.graph.Reached id →
    routine.graph.block? id = some block → m.routine = routine → entry id m.data →
      table m.values → exit id (outcome (A.evaluateBlock block) m).2.data ∧
        table (outcome (A.evaluateBlock block) m).2.values

/-- **The assertions hold of all that is recorded.** -/
theorem Annotates.holds {A : Analysis V D} {routine : Routine} {entry exit : BlockId → D → Prop}
    {table : Environment OperationId V → Prop} (h : A.Annotates routine entry exit table)
    (options : Options) :
    (∀ id visit, (A.finalState routine options).visits.get? id = some visit →
      entry id visit.entry ∧ exit id visit.exit) ∧
        table (A.finalState routine options).machine.values := by
  have hs := routine.schedule_sound
  refine records_induction (A.upholds_unrestricted routine) h.noValues fun {log before position id
    block} htraced hupheld hvisits hvalues hposition hid hblock count => ?_
  have hinflow : ∀ state ∈ routine.graph.inflow (A.initialState routine) (Solver.exit? before) id,
      entry id state := by
    intro state hstate
    rcases ControlFlowGraph.mem_inflow.1 hstate with ⟨rfl, rfl⟩ | ⟨source, -, hflow, hexit⟩
    · exact h.first
    · obtain ⟨visit, hvisit, rfl⟩ := Option.map_eq_some_iff.1 hexit
      have hedge : routine.graph.HasFeasibleEdge source id :=
        routine.graph.hasFeasibleEdge_iff.2 ⟨hflow, hs.known id (List.mem_of_getElem? hid)⟩
      exact h.edge (hupheld.visits hvisit).reached hedge (hvisits source visit hvisit).2
  have hmerged := mergeAll?_of_closed h.merge hinflow (htraced.mergeAll?_inflow hs hposition hid)
  have hfirst : entry id (Solver.entryState A options routine.schedule (A.initialState routine)
      before.visits id count) := by
    rcases Solver.entryState_cases (A.initialState routine) before.visits routine.schedule count
      with heq | ⟨previous, hprevious, heq⟩
    · rw [heq]
      exact hmerged
    · rw [heq]
      exact h.widen hmerged (hvisits id previous hprevious).1
  have hreached := hupheld.reached htraced hposition hid
  let m : Machine V D := { before.machine with
    data := Solver.entryState A options routine.schedule (A.initialState routine) before.visits id
      count }
  obtain ⟨hexit, htable⟩ := h.block (m := m) hreached hblock hupheld.routine hfirst hvalues
  exact ⟨⟨hfirst, hexit⟩, htable⟩

end Analysis
end HeapFlow
