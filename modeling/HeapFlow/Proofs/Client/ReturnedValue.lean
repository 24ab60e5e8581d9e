import HeapFlow.Proofs.Client.StoredValues

/-! # The returned value reaches the summary

What a routine returns is kept in the slot of the returned value until control leaves the routine.
The states that admit a value as returned (`Routine.Returns`) do so wherever they are merged,
widened or forgotten, and only another return of a value can overwrite the slot
(`Routine.keeps_returns`).

So after the statement that returns a value, the value is admitted at the end of its block, whenever
the block is visited (`Routine.Recorded`), and along every path to the exit on which no value is
returned.  The summary says that the routine may return it (`Routine.analyze_returnValue`).
-/
namespace HeapFlow

/-- The operation, or one of the operations below it, returns a value. -/
def Operation.ReturnsValue (operation : Operation) : Prop :=
  ∃ node ∈ operation.nodes, ∃ returned, node.form = .returning (some returned)

/-- One of the statements of the block returns a value. -/
def Block.ReturnsValue (block : Block) : Prop :=
  ∃ operation ∈ block.statements, operation.ReturnsValue

/-- The last statement of the block that returns a value returns the value of the operand. -/
def Block.ReturnsLast (block : Block) (operand : Operation) : Prop :=
  ∃ before returning after, block.statements = before ++ returning :: after ∧
    returning.form = .returning (some operand) ∧
      ∀ operation ∈ after, ¬operation.ReturnsValue

/-- A statement that returns a value writes it to the slot of the returned value. -/
theorem Analysis.outcome_evaluateStatement_returning {V D : Type} [AbstractValue V]
    [EntityState D V] {A : Analysis V D} {returning operand : Operation}
    (hform : returning.form = .returning (some operand)) {m : Machine V D} :
    let start := { m with data := A.beforeStatement m.toFrame }
    let value := (outcome (A.evaluate operand) start).1
    let next := (outcome (A.evaluate operand) start).2
    next.routine.returnType.isVoid = false →
      (outcome (A.evaluateStatement returning) m).2 = (outcome (A.settle returning value)
        { next with data := A.write (.ofResult next.routine.returnType) value next.data }).2 := by
  intro start value next hvoid
  have hreturn : outcome (A.evaluateForm returning returning.form) start = (value,
      { next with data := A.write (.ofResult next.routine.returnType) value next.data }) := by
    rw [hform, Analysis.evaluateForm]
    show outcome (if (!next.routine.returnType.isVoid) = true then _ else _) next = _
    rw [if_pos (by simp [hvoid])]
    rfl
  have hstatement : (outcome (A.evaluateStatement returning) m).2 =
      (outcome (A.evaluate returning) start).2 := rfl
  rw [hstatement, Analysis.evaluate_eq]
  show (outcome (A.settle returning (outcome (A.evaluateForm returning returning.form) start).1)
    (outcome (A.evaluateForm returning returning.form) start).2).2 = _
  rw [hreturn]

/-- The step that settles the value of an operation leaves the values of other operations alone. -/
theorem Analysis.get?_values_settle_of_ne {V D : Type} [AbstractValue V] [EntityState D V]
    {A : Analysis V D} {operation : Operation} {id : OperationId} (h : operation.id ≠ id)
    (value : V) (m : Machine V D) :
    (outcome (A.settle operation value) m).2.values.get? id = m.values.get? id := by
  have hdiffers : Key.same operation.id id = false := decide_eq_false h
  show (Environment.insert _ operation.id _).get? id = _
  rw [Environment.get?_insert, hdiffers, if_neg Bool.false_ne_true]

namespace Routine

open PointsToAnalysis

variable {routine : Routine}

/-! ## Returned values in states -/

variable (routine) in
/-- The routine may have returned all that the value refers to. -/
def Returns (value : PointsTo) (state : PointsToState) : Prop :=
  ∃ returned, state.get? (.ofResult routine.returnType) = some returned ∧
    AbstractValue.subset value returned = true

theorem not_same_result {e : Entity} (h : e.place ≠ .result) :
    Key.same e (.ofResult routine.returnType) = false :=
  Bool.eq_false_iff.2 fun hsame => h (Entity.same_iff.1 hsame).1

theorem Returns.insert {value : PointsTo} {state : PointsToState} (h : routine.Returns value state)
    {e : Entity} (he : e.place ≠ .result) (other : PointsTo) :
    routine.Returns value (state.insert e other) := by
  obtain ⟨returned, hreturned, hle⟩ := h
  refine ⟨returned, ?_, hle⟩
  rw [Environment.get?_insert, not_same_result he, if_neg Bool.false_ne_true, hreturned]

theorem within_of_admitted {state : PointsToState} (h : routine.admitted.state state) :
    state.Within routine.Knows routine.Obtains :=
  Environment.within_iff.2 fun x hx => ⟨(h x hx).knows, (h x hx).obtains⟩

theorem joinOn_knows : InstanceKey.JoinOn routine.Knows :=
  Entity.joinOn_keys fun _ _ ha hb _ => ha.withOwner (ha.owner.cover hb.owner)

section Copied

variable (hcopied : routine.returnType.isCopied = false)
include hcopied

/-- Nothing is known about the returned value where no value was returned on one of two paths. -/
theorem unobservedValue_result {e : Entity} (he : routine.Knows e)
    (hsame : Key.same e (.ofResult routine.returnType) = true) (value : PointsTo) :
    unobservedValue e value = .unknown := by
  have hplace : e.place = .result := (Entity.same_iff.1 hsame).1
  have htype : e.type = routine.returnType := he.type_eq (by rw [hplace]; rfl)
  have hnot : ¬e.isCopied = true := by simp [Entity.isCopied, htype, hcopied]
  rw [unobservedValue, assignedValue, if_neg hnot, PointsTo.merge_unknown]

/-- What the routine may have returned on one of two paths, it may have returned where they meet. -/
theorem returns_mergeWith {a b : PointsToState} (ha : routine.admitted.state a)
    (hb : routine.admitted.state b) {value : PointsTo} (hvalue : routine.Obtains value)
    (h : routine.Returns value a ∨ routine.Returns value b) :
    routine.Returns value (a.mergeWith b unobservedValue) := by
  have ha' := within_of_admitted ha
  have hb' := within_of_admitted hb
  have hjoin := PointsTo.joinOn_over {l | routine.MayRefer l}
  have habsent : ∀ e v, routine.Obtains v → routine.Obtains (unobservedValue e v) := fun e v hv =>
    obtains_assignedValue e (hv.merge PointsTo.over_unknown)
  obtain ⟨returned, hreturned, hle⟩ : ∃ returned,
      (a.get? (.ofResult routine.returnType) = some returned ∨
        b.get? (.ofResult routine.returnType) = some returned) ∧
        AbstractValue.subset value returned = true := by
    rcases h with ⟨returned, hreturned, hle⟩ | ⟨returned, hreturned, hle⟩
    · exact ⟨returned, .inl hreturned, hle⟩
    · exact ⟨returned, .inr hreturned, hle⟩
  obtain ⟨merged, hmerged, hle'⟩ := Environment.subset_get?_mergeWith joinOn_knows hjoin habsent ha'
    hb' knows_ofResult hreturned fun x hx hsame => unobservedValue_result hcopied
      (hx.elim (fun hx => (ha'.entry hx).1) fun hx => (hb'.entry hx).1) hsame x.2
  have hreturned' : routine.Obtains returned :=
    hreturned.elim (ha'.values _ returned) (hb'.values _ returned)
  have hmerged' : routine.Obtains merged :=
    (ha'.mergeWith joinOn_knows hjoin habsent hb').values _ merged hmerged
  exact ⟨merged, hmerged, hjoin.subset_trans hvalue hreturned' hmerged' hle hle'⟩

/-- **A returned value does not get lost where states meet.** -/
theorem persists_returns {value : PointsTo} (hvalue : routine.Obtains value) :
    pointsToAnalysis.Persists routine.admitted (routine.Returns value) where
  merge ha hb h := returns_mergeWith hcopied ha hb hvalue h
  widen {a p} ha hp h := by
    have hjoin := PointsTo.joinOn_over {l | routine.MayRefer l}
    obtain ⟨merged, hmerged, hle⟩ := returns_mergeWith hcopied hp ha hvalue (.inr h)
    have hmerged' : routine.Obtains merged := by
      have hstate : routine.admitted.state (p.mergeWith a unobservedValue) :=
        Environment.EachBinding.mergeWith mergeClosed_admits hp ha
      exact (within_of_admitted hstate).values _ merged hmerged
    have hwidened : routine.admitted.state (widenData a p) := routine.upholds_admitted.widen ha hp
    have hget : (widenData a p).get? (.ofResult routine.returnType) =
        some (Environment.widenFrom (p.get? (.ofResult routine.returnType)) merged) := by
      rw [widenData, Environment.get?_widenWith, hmerged]
      rfl
    refine ⟨_, hget, hjoin.subset_trans hvalue hmerged'
      ((within_of_admitted hwidened).values _ _ hget) hle ?_⟩
    unfold Environment.widenFrom
    split
    · split
      · exact hjoin.subset_refl hmerged'
      · exact hmerged'.wellFormed.subset_widen _
    · exact hjoin.subset_refl hmerged'
  beq _ _ hsame h := by
    obtain ⟨returned, hreturned, hle⟩ := h
    exact ⟨returned, by rw [Environment.sameBindings_of_beq hsame, hreturned], hle⟩

/-- **Only the return of another value overwrites a returned value.** -/
theorem keeps_returns {value : PointsTo} (hvalue : routine.Obtains value) :
    pointsToAnalysis.Keeps routine.admitted (routine.Returns value) (fun e => e.place ≠ .result)
      fun operation => ∀ returned, operation.form ≠ .returning (some returned) := by
  have hreset : ∀ {condition state}, routine.Returns value state →
      routine.Returns value (pointsToAnalysis.resetEntities condition state) := by
    rintro condition state ⟨returned, hreturned, hle⟩
    obtain ⟨e, -, -, hget⟩ := Environment.get?_mapValues_of_some
      (fun e v => if !isPinned e && condition e then .unknown else v) hreturned
    refine ⟨_, hget, ?_⟩
    split
    · exact (PointsTo.joinOn_over {l | routine.MayRefer l}).subset_unknown hvalue
    · exact hle
  refine {
    invocation := fun _ h => h
    beforeStatement := fun {f} _ h => ?_
    denoted := fun {operation f e} _ he hplace => ?_
    declared := fun _ hplace => by cases hplace
    returning := fun h => h _
    write := fun he _ _ h => (hreset h).insert he _
    reset := fun _ h => hreset h
    merge := fun ha hb h _ => (persists_returns hcopied hvalue).merge ha hb (.inl h) }
  · show routine.Returns value (bindSelf f.routine f.data)
    unfold bindSelf
    split
    · next self hself =>
      refine h.insert ?_ _
      simp [(self?_eq_some hself).1]
    · exact h
  · have hdenoted : operation.denoted? f.routine.self? (pointsToAnalysis.pointsTo f) = some e := he
    cases Operation.denotesBy_of_denoted? hdenoted with
    | self h => simp [(self?_eq_some h).1] at hplace
    | owned h _ _ | part h _ =>
      rcases Operation.place_of_selected h with ⟨member, rfl, -⟩ | ⟨indices, rfl⟩ <;> cases hplace
    | _ => cases hplace

/-- A value is written to the slot of the returned value as it is. -/
theorem returns_write_result {value : PointsTo} (hvalue : routine.Obtains value)
    (state : PointsToState) :
    routine.Returns value (pointsToAnalysis.write (.ofResult routine.returnType) value state) := by
  have hassigned : assignedValue (.ofResult routine.returnType) value = value :=
    if_neg (Bool.eq_false_iff.1 hcopied)
  refine ⟨value, ?_, (PointsTo.joinOn_over {l | routine.MayRefer l}).subset_refl hvalue⟩
  show (Environment.insert _ (Entity.ofResult routine.returnType)
    (assignedValue (.ofResult routine.returnType) value)).get? _ = _
  rw [Environment.get?_insert_self, hassigned]

/-! ## Blocks that return values -/

variable (routine) in
/-- The invariant while the routine does not return another value. -/
def returned (value : PointsTo) : Invariant PointsTo PointsToState :=
  routine.admitted.keeping (routine.Returns value) (fun e => e.place ≠ .result)
    fun operation => ∀ returned, operation.form ≠ .returning (some returned)

omit hcopied in
theorem returned_operation {value : PointsTo} {operation : Operation}
    (h : routine.admitted.operation operation) (hreturns : ¬operation.ReturnsValue) :
    (routine.returned value).operation operation :=
  ⟨h, fun node hnode returned hform => hreturns ⟨node, hnode, returned, hform⟩⟩

theorem maintains_returned {value : PointsTo} (hvalue : routine.Obtains value) :
    pointsToAnalysis.Maintains (routine.returned value) :=
  maintains_admitted.keeping (keeps_returns hcopied hvalue)

/-- A block that returns no value leaves what the routine may have returned as it is. -/
theorem returns_exit {value : PointsTo} (hvalue : routine.Obtains value) {id : BlockId}
    {visit : Visit PointsToState}
    (hinterpreted : Solver.Interpreted pointsToAnalysis routine.admitted id visit)
    (hnone : ∀ block, routine.graph.block? id = some block → ¬block.ReturnsValue)
    (h : routine.Returns value visit.entry) : routine.Returns value visit.exit := by
  obtain ⟨block, machine, hblock, hmachine, heq⟩ := hinterpreted.exists_machine
  have hoperations : ∀ operation ∈ block.statements, (routine.returned value).operation operation :=
    fun operation hmem => returned_operation
      (routine.upholds_admitted.operations hinterpreted.reached hblock operation hmem)
      fun hreturns => hnone block hblock ⟨operation, hmem, hreturns⟩
  have hholds := Solver.holds_interpret (maintains_returned hcopied hvalue) hoperations
    (Invariant.holds_keeping_iff.2 ⟨hmachine, h⟩)
  rw [heq]
  exact (Invariant.holds_keeping_iff.1 hholds).2

variable (hvoid : routine.returnType.isVoid = false) {returning operand : Operation}
  (hform : returning.form = .returning (some operand)) (hne : returning.id ≠ operand.id)
include hvoid hform hne

/-- After a value has been returned, it is the value of the operand, and the routine may have
returned it. -/
theorem holds_evaluateStatement_returning (hoperation : routine.admitted.operation returning)
    {m : Machine PointsTo PointsToState} (hm : routine.admitted.Holds m.toFrame) :
    ∃ value, routine.Obtains value ∧
      ((routine.returned value).freezing operand.id (some value)).Holds
        (outcome (pointsToAnalysis.evaluateStatement returning) m).2.toFrame := by
  let m₀ := { m with data := pointsToAnalysis.beforeStatement m.toFrame }
  have hm₀ : routine.admitted.Holds m₀.toFrame :=
    hm.withData (maintains_admitted.beforeStatement hm)
  have hmem : operand ∈ returning.children := by simp [Operation.children, hform, Form.children]
  have hoperand := Analysis.preserves_evaluate maintains_admitted
    (routine.admitted.part hoperation operand hmem)
  obtain ⟨hvalue, hm₁⟩ := hoperand m₀ hm₀
  have hcached := Analysis.get?_values_evaluate (A := pointsToAnalysis) operand m₀
  have hstatement := Analysis.outcome_evaluateStatement_returning (A := pointsToAnalysis) hform
    (m := m) (by rw [hm₁.routine]; exact hvoid)
  rw [hstatement]
  generalize outcome (pointsToAnalysis.evaluate operand) m₀ = o at hvalue hm₁ hcached
  obtain ⟨value, m₁⟩ := o
  have hroutine : m₁.routine = routine := hm₁.routine
  have hentity : routine.Knows (.ofResult m₁.routine.returnType) := by
    rw [hroutine]
    exact knows_ofResult
  have hwritten : routine.Returns value
      (pointsToAnalysis.write (.ofResult m₁.routine.returnType) value m₁.data) := by
    rw [hroutine]
    exact returns_write_result hcopied hvalue m₁.data
  have hm₂ := hm₁.withData (maintains_admitted.write hentity hvalue hm₁.state)
  have hsettled := (Analysis.preserves_settle (maintains_admitted.maintainsAt hoperation) hvalue
    { m₁ with data := pointsToAnalysis.write (.ofResult m₁.routine.returnType) value m₁.data }
    hm₂).2
  refine ⟨value, hvalue, Invariant.holds_freezing_iff.2 ⟨Invariant.holds_keeping_iff.2
    ⟨hsettled, hwritten⟩, ?_⟩⟩
  rw [← hcached]
  exact Analysis.get?_values_settle_of_ne hne value _

/-- A block leaves the value that it returns last as a value that the routine may have returned. -/
theorem holds_interpret_returning {block : Block} {before after : List Operation}
    (hstatements : block.statements = before ++ returning :: after)
    (hoperations : ∀ operation ∈ block.statements, routine.admitted.operation operation)
    (hafter : ∀ operation ∈ after, ¬operation.ReturnsValue ∧
      ∀ node ∈ operation.nodes, node.id ≠ operand.id)
    {machine : Machine PointsTo PointsToState} {entry : PointsToState}
    (hmachine : routine.admitted.Holds { machine.toFrame with data := entry }) :
    ∃ value, routine.Obtains value ∧
      ((routine.returned value).freezing operand.id (some value)).Holds
        (Solver.interpret pointsToAnalysis machine block entry).2.toFrame := by
  rw [hstatements] at hoperations
  have hfirst : ∀ operation ∈ before, routine.admitted.operation operation :=
    fun operation hmem => hoperations operation (List.mem_append_left _ hmem)
  have hbefore := (Analysis.preserves_forM_evaluateStatement maintains_admitted hfirst
    { machine with data := entry } hmachine).2
  obtain ⟨value, hvalue, hreturned⟩ := holds_evaluateStatement_returning hcopied hvoid hform hne
    (hoperations returning (by simp)) hbefore
  have hlast : ∀ operation ∈ after,
      ((routine.returned value).freezing operand.id (some value)).operation operation :=
    fun operation hmem => ⟨returned_operation (hoperations operation (by simp [hmem]))
      (hafter operation hmem).1, (hafter operation hmem).2⟩
  have hrest := (Analysis.preserves_forM_evaluateStatement
    ((maintains_returned hcopied hvalue).freezing operand.id (some value)) hlast _ hreturned).2
  refine ⟨value, hvalue, ?_⟩
  have hinterpret : (Solver.interpret pointsToAnalysis machine block entry).2 =
      (outcome ((before ++ returning :: after).forM pointsToAnalysis.evaluateStatement)
        { machine with data := entry }).2 := by
    rw [← hstatements]
    rfl
  rw [hinterpret, List.forM_eq_forM, List.forM_append, List.forM_cons]
  exact hrest

end Copied

/-! ## What the solver records of the returned value -/

section Recorded

variable {block : Block} {operand : Operation}

/-- The operand has an id of its own. -/
theorem HasUniqueIds.ne_operand (hids : routine.HasUniqueIds)
    (hblock : block ∈ routine.graph.blocks) {before after : List Operation} {returning : Operation}
    (hstatements : block.statements = before ++ returning :: after)
    (hform : returning.form = .returning (some operand)) :
    returning.id ≠ operand.id ∧ ∀ operation ∈ after, ∀ node ∈ operation.nodes,
      node.id ≠ operand.id := by
  have hnodup := hids.nodup_nodes hblock
  rw [hstatements, List.flatMap_append, List.flatMap_cons, List.map_append,
    List.map_append] at hnodup
  obtain ⟨hreturning, -, hdisjoint⟩ := List.nodup_append.1 (List.nodup_append.1 hnodup).2.1
  have hmem : operand ∈ returning.children.flatMap Operation.nodes :=
    List.mem_flatMap.2 ⟨operand, by simp [Operation.children, hform, Form.children],
      operand.self_mem_nodes⟩
  rw [Operation.nodes_eq, List.map_cons] at hreturning hdisjoint
  refine ⟨fun heq => ?_, fun operation hoperation node hnode heq => ?_⟩
  · exact (List.nodup_cons.1 hreturning).1 (heq ▸ List.mem_map_of_mem hmem)
  · refine hdisjoint _ (List.mem_cons_of_mem _ (List.mem_map_of_mem hmem)) _
      (List.mem_map_of_mem (List.mem_flatMap.2 ⟨operation, hoperation, hnode⟩)) heq.symm

/-- No other block evaluates the operand. -/
theorem HasUniqueIds.ne_operand_of_ne (hids : routine.HasUniqueIds)
    (hblock : block ∈ routine.graph.blocks) (hreturns : block.ReturnsLast operand) {other : Block}
    (hother : other ∈ routine.graph.blocks) (hne : other ≠ block) :
    ∀ operation ∈ other.statements, ∀ node ∈ operation.nodes, node.id ≠ operand.id := by
  intro operation hoperation node hnode heq
  obtain ⟨before, returning, after, hstatements, hform, -⟩ := hreturns
  have hmem : operand ∈ block.statements.flatMap Operation.nodes := by
    refine List.mem_flatMap.2 ⟨returning, by simp [hstatements], ?_⟩
    rw [Operation.nodes_eq]
    exact List.mem_cons_of_mem _ (List.mem_flatMap.2 ⟨operand,
      by simp [Operation.children, hform, Form.children], operand.self_mem_nodes⟩)
  refine hne (hids.eq_of_mem_nodes hother hblock
    (List.mem_map_of_mem (List.mem_flatMap.2 ⟨operation, hoperation, hnode⟩)) ?_)
  rw [heq]
  exact List.mem_map_of_mem hmem

variable (routine block operand) in
/-- The operand has a value if and only if the block has been visited, and then the routine may have
returned the value at the end of the latest visit. -/
structure Recorded (state : Solver.State PointsTo PointsToState) : Prop where
  visited : ∀ value, state.machine.values.get? operand.id = some value →
    routine.graph.block? block.id = some block ∧ (state.visits.get? block.id).isSome = true
  exit : routine.graph.block? block.id = some block → ∀ visit,
    state.visits.get? block.id = some visit → ∃ value, routine.Obtains value ∧
      state.machine.values.get? operand.id = some value ∧ routine.Returns value visit.exit

variable (hids : routine.HasUniqueIds) (hvoid : routine.returnType.isVoid = false)
  (hcopied : routine.returnType.isCopied = false) (hblock : block ∈ routine.graph.blocks)
  (hreturns : block.ReturnsLast operand)
include hids hvoid hcopied hblock hreturns

section Visit

variable {machine machine' : Machine PointsTo PointsToState} {entry : PointsToState}
  {visit : Visit PointsToState}

/-- Each visit of the block comes to a value of the operand, and at the end of the visit the routine
may have returned it. -/
theorem exit_of_visit
    (hoperations : ∀ operation ∈ block.statements, routine.admitted.operation operation)
    (hmachine : routine.admitted.Holds { machine.toFrame with data := entry })
    (hvisit : Solver.interpret pointsToAnalysis machine block entry = (visit, machine')) :
    ∃ value, routine.Obtains value ∧ machine'.values.get? operand.id = some value ∧
      routine.Returns value visit.exit := by
  obtain ⟨before, returning, after, hstatements, hform, hlast⟩ := hreturns
  obtain ⟨hne, hafter⟩ := hids.ne_operand hblock hstatements hform
  obtain ⟨value, hvalue, hholds⟩ := holds_interpret_returning hcopied hvoid hform hne hstatements
    hoperations (fun operation hmem => ⟨hlast operation hmem, hafter operation hmem⟩) hmachine
  obtain ⟨hholds, hexit⟩ := Solver.holds_of_interpret hvisit hholds
  obtain ⟨hkept, hget⟩ := Invariant.holds_freezing_iff.1 hholds
  refine ⟨value, hvalue, hget, ?_⟩
  rw [hexit]
  exact (Invariant.holds_keeping_iff.1 hkept).2

omit hvoid hcopied in
/-- A visit of another block leaves the value of the operand as it is. -/
theorem get?_values_of_visit {other : Block} (hother : other ∈ routine.graph.blocks)
    (hne : other ≠ block)
    (hoperations : ∀ operation ∈ other.statements, routine.admitted.operation operation)
    (hmachine : routine.admitted.Holds { machine.toFrame with data := entry })
    (hvisit : Solver.interpret pointsToAnalysis machine other entry = (visit, machine')) :
    machine'.values.get? operand.id = machine.values.get? operand.id := by
  have hnodes := hids.ne_operand_of_ne hblock hreturns hother hne
  have hfrozen := Solver.holds_interpret
    (maintains_admitted.freezing operand.id (machine.values.get? operand.id))
    (fun operation hmem => ⟨hoperations operation hmem, hnodes operation hmem⟩)
    (Invariant.holds_freezing_iff.2 ⟨hmachine, rfl⟩)
  exact (Solver.holds_of_interpret hvisit hfrozen).1.values.2

end Visit

/-- **Each visit of the block records what it returns**, and no other visit changes it. -/
theorem Recorded.turn {options : Options} {log : List (BlockId × Visit PointsToState)}
    {before after : Solver.State PointsTo PointsToState} {position : Nat}
    {made : Option (BlockId × Visit PointsToState)}
    (htraced : Solver.Traced routine.schedule log before) (hposition : position ∈ before.pending)
    (hupheld : Solver.Upheld pointsToAnalysis routine.admitted before)
    (hturn : Solver.Turn pointsToAnalysis options routine.schedule (initialState routine) before
      position made after)
    (h : routine.Recorded block operand before) : routine.Recorded block operand after := by
  cases hturn with
  | overrun id hid hlimit => exact ⟨h.visited, h.exit⟩
  | visit id taken visit machine hid htaken hlimit hvisit =>
    obtain ⟨hmachine, hinterpreted⟩ := hupheld.interpreted htraced hposition hid htaken
      (hupheld.state_entryState routine.upholds_admitted htraced hposition hid options
        (Solver.turns before id + 1))
    have hoperations := routine.upholds_admitted.operations hinterpreted.reached htaken
    by_cases heq : taken = block
    · subst heq
      obtain rfl : taken.id = id := routine.graph.block?_id htaken
      have hexit := exit_of_visit hids hvoid hcopied hblock hreturns hoperations hmachine hvisit
      refine ⟨fun _ _ => ⟨htaken, by simp⟩, fun _ found hfound => ?_⟩
      obtain rfl : visit = found := by simpa using hfound
      exact hexit
    · have hvalue := get?_values_of_visit hids hblock hreturns
        (routine.graph.mem_blocks_of_block? htaken) heq hoperations hmachine hvisit
      refine ⟨fun value hget => ?_, fun hfound found hget => ?_⟩
      · obtain ⟨hfound, hvisited⟩ := h.visited value (hvalue ▸ hget)
        exact ⟨hfound, before.visits.isSome_get?_insert id visit hvisited⟩
      · have hne : id ≠ block.id := by
          rintro rfl
          exact heq (Option.some.inj (htaken.symm.trans hfound))
        rw [Solver.get?_insert_of_ne before.visits visit hne] at hget
        rw [hvalue]
        exact h.exit hfound found hget

theorem recorded_finalState (options : Options) :
    routine.Recorded block operand (pointsToAnalysis.finalState routine options) := by
  have hs := routine.schedule_sound
  let P := fun log (state : Solver.State PointsTo PointsToState) =>
    Solver.Traced routine.schedule log state ∧
      Solver.Upheld pointsToAnalysis routine.admitted state ∧ routine.Recorded block operand state
  have hstart : P [] (Solver.start routine) :=
    ⟨Solver.traced_start hs routine, Solver.upheld_start routine.upholds_admitted,
      fun _ h => by simp [Solver.start, Machine.initial, Frame.initial] at h,
      fun _ _ h => by simp [Solver.start] at h⟩
  have hfinal : P (pointsToAnalysis.visitLog routine options)
      (pointsToAnalysis.finalState routine options) := by
    refine Analysis.finalState_induction hstart fun log before position made after hready hturn h =>
      ?_
    obtain ⟨htraced, hupheld, hrecorded⟩ := h
    exact ⟨htraced.turn hs hturn, hupheld.turn routine.upholds_admitted htraced hready.1 hturn,
      hrecorded.turn hids hvoid hcopied hblock hreturns htraced hready.1 hupheld hturn⟩
  exact hfinal.2.2

/-! ## The summary -/

omit hids hblock hreturns in
theorem returnValue?_eq (options : Options) : (routine.analyze options).summary.returnValue? =
    some (Summary.valueAt (routine.analyze options).flow.finalState?
      (.ofResult routine.returnType)) := by
  show Summary.returnValueOf? _ _ = _
  rw [Summary.returnValueOf?, if_neg (Bool.eq_false_iff.1 hvoid),
    if_neg (Bool.eq_false_iff.1 hcopied)]
  rfl

omit hids hvoid hcopied hblock hreturns in
/-- The summary takes values from the end of the latest visit of the exit. -/
theorem valueAt_of_exit {options : Options} {visit : Visit PointsToState}
    (hvisit : (pointsToAnalysis.finalState routine options).visits.get? routine.graph.exit =
      some visit) {e : Entity} {value : PointsTo} (hvalue : visit.exit.get? e = some value) :
    Summary.valueAt (routine.analyze options).flow.finalState? e = value := by
  have hfinal : (routine.analyze options).flow.finalState? = some visit.exit :=
    congrArg (Option.map Visit.exit) hvisit
  rw [Summary.valueAt, hfinal]
  show (visit.exit.get? e).getD _ = value
  rw [hvalue]
  rfl

/-- **A returned value is not dropped from the summary.**  If no value is returned after a statement
that returns the value of an operand, neither in its block nor on some path to the exit, then the
summary has a returned value, which covers the value of the operand; and the operand has a value if
control can reach its block. -/
theorem analyze_returnValue {options : Options}
    (hlimit : (routine.analyze options).flow.reachedLimit = false)
    (hpath : Relation.ReflTransGen (fun source target =>
      routine.graph.HasFeasibleEdge source target ∧
        ∀ next, routine.graph.block? target = some next → ¬next.ReturnsValue)
      block.id routine.graph.exit) :
    ∃ returned, (routine.analyze options).summary.returnValue? = some returned ∧
      (∀ value, (routine.analyze options).flow.valueOf? operand.id = some value →
        AbstractValue.subset value returned = true) ∧
      (routine.graph.block? block.id = some block →
        Relation.ReflTransGen routine.graph.HasFeasibleEdge routine.graph.entry block.id →
          ((routine.analyze options).flow.valueOf? operand.id).isSome = true) := by
  have hoverruns := (Analysis.reachedLimit_eq_false_iff pointsToAnalysis routine options).1 hlimit
  have hrecorded := recorded_finalState hids hvoid hcopied hblock hreturns options
  refine ⟨_, returnValue?_eq hvoid hcopied options, fun value hvalue => ?_,
    fun hfound hreached => ?_⟩
  · obtain ⟨hfound, hvisited⟩ := hrecorded.visited value hvalue
    obtain ⟨visit, hvisit⟩ := Option.isSome_iff_exists.1 hvisited
    obtain ⟨value', hobtains, hvalue', hexit⟩ := hrecorded.exit hfound visit hvisit
    obtain rfl : value = value' := Option.some.inj (hvalue.symm.trans hvalue')
    obtain ⟨last, hlast, returned, hreturned, hle⟩ := Analysis.exit_of_path
      routine.upholds_admitted (persists_returns hcopied hobtains) hoverruns
      (fun hnone hinterpreted hentry => returns_exit hcopied hobtains hinterpreted hnone hentry)
      hpath ⟨visit, hvisit, hexit⟩
    have hvalueAt : Summary.valueAt (routine.analyze options).flow.finalState?
        (.ofResult routine.returnType) = returned := valueAt_of_exit hlast hreturned
    rw [hvalueAt]
    exact hle
  · have hvisited := (Analysis.isSome_visits_iff hoverruns).2 (routine.graph.reached_iff.2 hreached)
    obtain ⟨visit, hvisit⟩ := Option.isSome_iff_exists.1 hvisited
    obtain ⟨value, -, hvalue, -⟩ := hrecorded.exit hfound visit hvisit
    exact Option.isSome_iff_exists.2 ⟨value, hvalue⟩

end Recorded

/-- A routine that returns a new object, by way of an empty loop. -/
def createRoutine : Routine where
  name := ""
  containingType? := none
  parameters := []
  returnType := .reference "A"
  graph := ⟨[⟨⟨0⟩, [.ofForm ⟨1⟩ (.returning (some (.ofForm ⟨0⟩ (.objectCreation none [] none))))],
      none, [.always ⟨1⟩]⟩,
    ⟨⟨1⟩, [], none, [.always ⟨1⟩, .always ⟨2⟩]⟩, ⟨⟨2⟩, [], none, []⟩], by simp⟩

theorem createRoutine_returnValue :
    (createRoutine.analyze {}).flow.reachedLimit = false ∧
      ∃ returned, (createRoutine.analyze {}).summary.returnValue? = some returned ∧
        AbstractValue.subset (PointsTo.ofLocation (.creation ⟨0⟩ .unknown)) returned = true := by
  have hlimit : (createRoutine.analyze {}).flow.reachedLimit = false := by decide
  have hreturns : (createRoutine.graph.blocks.head (by simp [createRoutine])).ReturnsLast
      (.ofForm ⟨0⟩ (.objectCreation none [] none)) := ⟨[], _, [], rfl, rfl, by simp⟩
  have hedge : ∀ {source target : BlockId}, createRoutine.graph.canFlow source target = true ∧
      createRoutine.graph.contains target = true →
        createRoutine.graph.HasFeasibleEdge source target := fun h =>
    createRoutine.graph.hasFeasibleEdge_iff.2 h
  have hempty : ∀ {block : Block}, block.statements = [] → ¬block.ReturnsValue := by
    rintro block hnil ⟨operation, hmem, -⟩
    simp [hnil] at hmem
  obtain ⟨returned, hreturned, hcovers, -⟩ := createRoutine.analyze_returnValue (by decide)
    (by decide) (by decide) List.mem_cons_self hreturns hlimit
    (.tail (.single (b := ⟨1⟩) ⟨hedge (by decide), fun next hnext => hempty (by
      obtain rfl := Option.some.inj hnext
      rfl)⟩) ⟨hedge (by decide), fun next hnext => hempty (by
      obtain rfl := Option.some.inj hnext
      rfl)⟩)
  exact ⟨hlimit, returned, hreturned, hcovers _ (by decide)⟩

end Routine
end HeapFlow
