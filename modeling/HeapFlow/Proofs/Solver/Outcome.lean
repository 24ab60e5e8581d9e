import HeapFlow.Proofs.Interpreter.Evaluation
import HeapFlow.Proofs.Solver.FixedPoint
import Mathlib.Data.List.Nodup
import Mathlib.Data.List.Pairwise

/-! # What the states of the solver are determined by

The interpretation of a block is a function of the entry state (`Solver.visitOf`,
`Solver.valueOf?`): what the machine has kept from earlier visits does not matter, as long as
references to created objects are enclosed.  So the latest visit of a block is determined by its
entry state, and so are the values of the operations of the block, for operations have unique ids.

`Solver.Determined` says this of a state of the solver, and a turn keeps it.  The blocks that have
been visited at the end of an analysis are those that control can reach
(`Analysis.isSome_visits_iff`), whatever the states are and whatever the order of the turns was.
-/
namespace HeapFlow

/-- An element is part of one item only, if no element occurs twice among the parts of the items. -/
theorem eq_of_nodup_flatMap {α β : Type} {part : α → List β} {items : List α}
    (h : (items.flatMap part).Nodup) {a b : α} (ha : a ∈ items) (hb : b ∈ items) {x : β}
    (hxa : x ∈ part a) (hxb : x ∈ part b) : a = b := by
  have hsymm : Std.Symm (Function.onFun List.Disjoint part) := ⟨fun _ _ hab => hab.symm⟩
  by_contra hne
  exact (List.nodup_flatMap.1 h).2.forall ha hb hne hxa hxb

namespace Routine

variable (routine : Routine)

/-- The schedule by which the routine is analysed. -/
abbrev schedule : Schedule := .ofGraph routine.graph

theorem schedule_sound : routine.schedule.Sound := Schedule.ofGraph_sound routine.graph

/-- The ids of the operations of the body of the routine are unique. -/
def HasUniqueIds : Prop := (routine.nodes.map (·.id)).Nodup

/-- All references of the body to created objects are enclosed by the initializers of the
creations. -/
def HasEnclosedReceivers : Prop := ∀ block ∈ routine.graph.blocks, block.receiversEnclosed = true

instance : Decidable routine.HasUniqueIds := inferInstanceAs (Decidable (List.Nodup _))

instance : Decidable routine.HasEnclosedReceivers :=
  inferInstanceAs (Decidable (∀ block ∈ routine.graph.blocks, _))

variable {routine}

/-- An operation belongs to one block only. -/
theorem HasUniqueIds.eq_of_mem_nodes (h : routine.HasUniqueIds) {a b : Block}
    (ha : a ∈ routine.graph.blocks) (hb : b ∈ routine.graph.blocks) {id : OperationId}
    (hida : id ∈ (a.statements.flatMap Operation.nodes).map (·.id))
    (hidb : id ∈ (b.statements.flatMap Operation.nodes).map (·.id)) : a = b := by
  unfold HasUniqueIds nodes at h
  rw [List.map_flatMap] at h
  exact eq_of_nodup_flatMap h ha hb hida hidb

/-- The operations of a block have different ids. -/
theorem HasUniqueIds.nodup_nodes (h : routine.HasUniqueIds) {block : Block}
    (hblock : block ∈ routine.graph.blocks) :
    ((block.statements.flatMap Operation.nodes).map (·.id)).Nodup := by
  unfold HasUniqueIds nodes at h
  rw [List.map_flatMap, List.nodup_flatMap] at h
  exact h.1 block hblock

/-- An operation is given its value by one block only. -/
theorem HasUniqueIds.eq_of_mem_evaluated (h : routine.HasUniqueIds) {a b : Block}
    (ha : a ∈ routine.graph.blocks) (hb : b ∈ routine.graph.blocks) {id : OperationId}
    (hida : id ∈ a.evaluated) (hidb : id ∈ b.evaluated) : a = b := by
  have hnode : ∀ block : Block, id ∈ block.evaluated →
      id ∈ (block.statements.flatMap Operation.nodes).map (·.id) := by
    intro block hid
    obtain ⟨statement, hstatement, hid⟩ := List.mem_flatMap.1 hid
    obtain ⟨node, hnode, rfl⟩ := statement.exists_node_of_mem_evaluated.2 hid
    exact List.mem_map_of_mem (List.mem_flatMap.2 ⟨statement, hstatement, hnode⟩)
  exact h.eq_of_mem_nodes ha hb (hnode a hida) (hnode b hidb)

end Routine

/-- The blocks that control can reach. -/
inductive ControlFlowGraph.Reached (graph : ControlFlowGraph) : BlockId → Prop
  | entry : Reached graph graph.entry
  | flow {source target : BlockId} (hsource : Reached graph source)
    (hflow : graph.canFlow source target = true) (htarget : graph.contains target = true) :
    Reached graph target

namespace Solver

variable {V D : Type} [AbstractValue V] [EntityState D V] (A : Analysis V D) (routine : Routine)

/-! ## What a visit computes -/

/-- The visit of a block, from the state at its start. -/
def visitOf (block : Block) (entry : D) : Visit D :=
  (interpret A (.initial routine) block entry).1

/-- The value that an operation is given when the block is interpreted, from the state at the start
of the block. -/
def valueOf? (block : Block) (entry : D) (id : OperationId) : Option V :=
  (interpret A (.initial routine) block entry).2.values.get? id

/-- A machine between two visits. -/
structure Resting (machine : Machine V D) : Prop where
  routine : machine.routine = routine
  creations : machine.creations = []

variable {A routine}

omit [AbstractValue V] in
theorem resting_initial : Resting routine (.initial routine : Machine V D) := ⟨rfl, rfl⟩

omit [AbstractValue V] [EntityState D V] in
/-- The machines on which a block is interpreted agree. -/
theorem Resting.agree {C : Comparison V D} {exact : Prop} {m n : Machine V D}
    (hm : Resting C.routine m) (hn : Resting C.routine n) {a b : D} (hsame : C.same a b)
    (heq : exact → a = b) :
    Agree C exact [] [] { m.toFrame with data := a } { n.toFrame with data := b } where
  routine_left := hm.routine
  routine_right := hn.routine
  data := hsame
  data_eq := heq
  creations_left := hm.creations
  creations_right := hn.creations
  values _ hid := absurd hid (by simp)
  valid _ hid := absurd hid (by simp)

section Interpret

variable (hA : A.Local) {block : Block} (hblock : block.receiversEnclosed = true)
  {machine : Machine V D} (entry : D) (hmachine : Resting routine machine)
include hA hblock hmachine

/-- The interpretation of a block is what it is from the entry of the routine. -/
theorem interpret_agree :
    Agree (.exact routine) True block.evaluated []
      (interpret A machine block entry).2.toFrame
      (interpret A (.initial routine) block entry).2.toFrame :=
  ((A.contained_evaluateBlock (hA.respects routine) (fun _ _ => trivial) hblock).agree
    (m := { machine with data := entry }) (n := { Machine.initial routine with data := entry })
    (hmachine.agree (C := .exact routine) resting_initial rfl fun _ => rfl) (.inl trivial)).2.2

theorem resting_interpret : Resting routine (interpret A machine block entry).2 :=
  have hagree := interpret_agree hA hblock entry hmachine
  ⟨hagree.routine_left, hagree.creations_left⟩

theorem visit_interpret :
    (interpret A machine block entry).1 = visitOf A routine block entry := by
  have hexit : (interpret A machine block entry).1.exit = (visitOf A routine block entry).exit :=
    (interpret_agree hA hblock entry hmachine).data
  show Visit.mk entry (interpret A machine block entry).1.exit block.feasibleTargets = _
  rw [hexit]
  rfl

theorem get?_interpret_of_mem {id : OperationId} (hid : id ∈ block.evaluated) :
    (interpret A machine block entry).2.values.get? id = valueOf? A routine block entry id :=
  (interpret_agree hA hblock entry hmachine).values id (.inl hid)

theorem get?_interpret_of_not_mem {id : OperationId} (hid : id ∉ block.evaluated) :
    (interpret A machine block entry).2.values.get? id = machine.values.get? id :=
  (A.contained_evaluateBlock (hA.respects routine) (fun _ _ => trivial) hblock).outside
    (m := { machine with data := entry })
    (hmachine.agree (C := .exact routine) hmachine rfl fun _ => rfl) hid

end Interpret

/-! ## What a state consists of -/

variable (A routine) in
/-- All that a state says about the blocks that have been visited follows from the entry states of
their latest visits. -/
structure Determined (state : State V D) : Prop where
  resting : Resting routine state.machine
  visit : ∀ id visit, state.visits.get? id = some visit →
    ∃ block, routine.graph.block? id = some block ∧ visit = visitOf A routine block visit.entry
  /-- An operation has the value that it was given by the latest visit of its block. -/
  value : ∀ id visit, state.visits.get? id = some visit →
    ∀ block, routine.graph.block? id = some block → ∀ operation ∈ block.evaluated,
      state.machine.values.get? operation = valueOf? A routine block visit.entry operation
  noValue : ∀ operation, (∀ id visit, state.visits.get? id = some visit →
    ∀ block, routine.graph.block? id = some block → operation ∉ block.evaluated) →
      state.machine.values.get? operation = none

/-- The latest visits of a block are the same if they start from the same state. -/
theorem Determined.visit_ext {s t : State V D} (hs : Determined A routine s)
    (ht : Determined A routine t) {id : BlockId} {v w : Visit D}
    (hv : s.visits.get? id = some v) (hw : t.visits.get? id = some w) (h : v.entry = w.entry) :
    v = w := by
  obtain ⟨block, hblock, hveq⟩ := hs.visit id v hv
  obtain ⟨block', hblock', hweq⟩ := ht.visit id w hw
  obtain rfl : block = block' := Option.some.inj (hblock.symm.trans hblock')
  calc v = visitOf A routine block v.entry := hveq
    _ = visitOf A routine block w.entry := by rw [h]
    _ = w := hweq.symm

/-- States with the same latest visits have the same values of operations. -/
theorem Determined.values_ext {s t : State V D} (hs : Determined A routine s)
    (ht : Determined A routine t) (h : ∀ id, s.visits.get? id = t.visits.get? id)
    (operation : OperationId) :
    s.machine.values.get? operation = t.machine.values.get? operation := by
  by_cases hop : ∃ id visit block, s.visits.get? id = some visit ∧
      routine.graph.block? id = some block ∧ operation ∈ block.evaluated
  · obtain ⟨id, visit, block, hvisit, hblock, hmem⟩ := hop
    rw [hs.value id visit hvisit block hblock operation hmem,
      ht.value id visit (h id ▸ hvisit) block hblock operation hmem]
  · rw [hs.noValue operation fun id visit hvisit block hblock hmem =>
        hop ⟨id, visit, block, hvisit, hblock, hmem⟩,
      ht.noValue operation fun id visit hvisit block hblock hmem =>
        hop ⟨id, visit, block, h id ▸ hvisit, hblock, hmem⟩]

omit [AbstractValue V] in
theorem determined_start [AbstractValue V] : Determined A routine (start routine : State V D) where
  resting := resting_initial
  visit := by simp [start]
  value := by simp [start]
  noValue _ _ := rfl

variable [BEq D] {options : Options} {first : D}

theorem Resting.turn (hA : A.Local) (hreceivers : routine.HasEnclosedReceivers)
    {before after : State V D} {position : Nat} {made : Option (BlockId × Visit D)}
    (hturn : Turn A options routine.schedule first before position made after)
    (h : Resting routine before.machine) : Resting routine after.machine := by
  cases hturn with
  | overrun id hid hlimit => exact h
  | visit id block visit machine hid hblock hlimit hvisit =>
    have hmem : block ∈ routine.graph.blocks := routine.graph.mem_blocks_of_block? hblock
    have hinterpret := resting_interpret hA (hreceivers block hmem)
      (entryState A options routine.schedule first before.visits id
        (turns before id + 1)) h
    rwa [hvisit] at hinterpret

/-- **A turn leaves the state determined by entry states.** -/
theorem Determined.turn (hA : A.Local) (hids : routine.HasUniqueIds)
    (hreceivers : routine.HasEnclosedReceivers) {before after : State V D} {position : Nat}
    {made : Option (BlockId × Visit D)}
    (hturn : Turn A options routine.schedule first before position made after)
    (h : Determined A routine before) : Determined A routine after := by
  have hresting := h.resting.turn hA hreceivers hturn
  cases hturn with
  | overrun id hid hlimit => exact ⟨h.resting, h.visit, h.value, h.noValue⟩
  | visit id block visit machine hid hblock hlimit hvisit =>
    have hfound : routine.graph.block? id = some block := hblock
    have hmem := routine.graph.mem_blocks_of_block? hfound
    -- Which entry state the block starts from does not matter here.
    generalize entryState A options routine.schedule first before.visits id
      (turns before id + 1) = entry at hvisit
    have hmade : visit = visitOf A routine block entry := by
      rw [← visit_interpret hA (hreceivers block hmem) entry h.resting, hvisit]
    have hmachine : machine = (interpret A before.machine block entry).2 := by rw [hvisit]
    subst hmachine
    refine ⟨hresting,
      fun other found hget => ?_, fun other found hget otherBlock hother operation hop => ?_,
      fun operation hop => ?_⟩
    · rcases (get?_insert_eq_some_iff before.visits).1 hget with ⟨rfl, rfl⟩ | ⟨-, hget⟩
      · exact ⟨block, hfound, by rw [hmade]; rfl⟩
      · exact h.visit other found hget
    · rcases (get?_insert_eq_some_iff before.visits).1 hget with ⟨rfl, rfl⟩ | ⟨hne, hget⟩
      · obtain rfl : block = otherBlock := Option.some.inj (hfound.symm.trans hother)
        show (interpret A before.machine block entry).2.values.get? operation = _
        rw [get?_interpret_of_mem hA (hreceivers block hmem) entry h.resting hop, hmade]
        rfl
      · -- The blocks are different, and so are the operations that they give values to.
        have hout : operation ∉ block.evaluated := by
          intro hin
          refine hne ?_
          rw [← routine.graph.block?_id hfound, ← routine.graph.block?_id hother]
          exact congrArg Block.id (hids.eq_of_mem_evaluated hmem
            (routine.graph.mem_blocks_of_block? hother) hin hop)
        show (interpret A before.machine block entry).2.values.get? operation = _
        rw [get?_interpret_of_not_mem hA (hreceivers block hmem) entry h.resting hout]
        exact h.value other found hget otherBlock hother operation hop
    · have hout : operation ∉ block.evaluated := hop id visit (by simp) block hfound
      show (interpret A before.machine block entry).2.values.get? operation = _
      rw [get?_interpret_of_not_mem hA (hreceivers block hmem) entry h.resting hout]
      refine h.noValue operation fun other found hget otherBlock hother => ?_
      by_cases heq : id = other
      · subst heq
        obtain rfl : block = otherBlock := Option.some.inj (hfound.symm.trans hother)
        exact hout
      · exact hop other found ((get?_insert_eq_some_iff before.visits).2 (.inr ⟨heq, hget⟩))
          otherBlock hother

end Solver

namespace Analysis

variable {V D : Type} [AbstractValue V] [EntityState D V] [BEq D]
variable {A : Analysis V D} {routine : Routine} {options : Options}

theorem determined_finalState (hA : A.Local) (hids : routine.HasUniqueIds)
    (hreceivers : routine.HasEnclosedReceivers) :
    Solver.Determined A routine (A.finalState routine options) :=
  finalState_induction (P := fun _ state => Solver.Determined A routine state)
    Solver.determined_start fun _ _ _ _ _ _ hturn h => h.turn hA hids hreceivers hturn

/-! ## Which blocks are visited -/

theorem visits_eq_none {id : BlockId} (h : id ∉ routine.schedule.order) :
    (A.finalState routine options).visits.get? id = none := by
  rw [Option.eq_none_iff_forall_ne_some]
  intro visit hvisit
  exact h ((traced_finalState A routine options).known id visit hvisit).1

/-- No block is visited that control cannot reach. -/
theorem reached_of_visits {id : BlockId}
    (h : ((A.finalState routine options).visits.get? id).isSome = true) :
    routine.graph.Reached id := by
  have hs := routine.schedule_sound
  let P := fun log (state : Solver.State V D) =>
    Solver.Traced routine.schedule log state ∧
      ∀ id, (state.visits.get? id).isSome = true → routine.graph.Reached id
  have hstart : P [] (Solver.start routine) :=
    ⟨Solver.traced_start hs routine, fun id hid => by simp [Solver.start] at hid⟩
  have hfinal : P (A.visitLog routine options) (A.finalState routine options) := by
    refine finalState_induction hstart fun log before position made after hready hturn h => ?_
    obtain ⟨htraced, hreached⟩ := h
    refine ⟨htraced.turn hs hturn, fun other hother => ?_⟩
    cases hturn with
    | overrun id hid hlimit => exact hreached other hother
    | visit id block visit machine hid hblock hlimit hvisit =>
      by_cases heq : id = other
      · subst heq
        rcases htraced.wanted position hready.1 id hid with rfl | ⟨source, hsource, hflow⟩
        · exact .entry
        · exact .flow (hreached source hsource) hflow (hs.known id (List.mem_of_getElem? hid))
      · rw [Solver.get?_insert_of_ne before.visits visit heq] at hother
        exact hreached other hother
  exact hfinal.2 id h

/-- **The blocks that are visited are those that control can reach**, unless some block has used up
its visits. -/
theorem isSome_visits_iff (hlimit : (A.finalState routine options).overruns = []) {id : BlockId} :
    ((A.finalState routine options).visits.get? id).isSome = true ↔ routine.graph.Reached id := by
  refine ⟨reached_of_visits, fun h => ?_⟩
  -- The induction follows the path along which control reaches the block.
  have htraced := traced_finalState A routine options
  induction h with
  | entry => exact Option.isSome_iff_exists.2 (isSome_visits_of_noticed hlimit htraced.entry)
  | flow _ hflow htarget ih =>
    exact Option.isSome_iff_exists.2
      (isSome_visits_of_noticed hlimit (htraced.fed _ ih _ hflow htarget))

end Analysis
end HeapFlow
