import HeapFlow.Client.PointsTo
import HeapFlow.Proofs.Client.TrackedKeys
import HeapFlow.Proofs.Client.TrackedStorage
import HeapFlow.Proofs.Solver.OperationValues

/-! # The self instance

The self instance is pinned: what a callee may have changed is forgotten, but not what the self
reference refers to.  Assignments do not respect this.  An assignment to the self reference, be it
by deconstruction or through an argument that a callee can write to, binds the self instance to the
assigned value until the next statement begins, which binds it to what it is again
(`Routine.SelfBound.bindSelf`).

So the self instance is settled at the end of a block unless the last statement assigns to it, or
the block has no statements and the self instance is not settled where control comes from
(`Routine.UnsettlesSelf`).  Wherever it is settled, the self reference refers to one location
throughout the routine (`Routine.analyze_self`).  Where it is not, it may refer to anything
(`Routine.replacedSelf_changes`).
-/
namespace HeapFlow

namespace Operation

/-- True for the self reference, and for tuples that hold it, possibly within other tuples. -/
def holdsSelf (operation : Operation) : Bool :=
  operation.fold fun _ parts => match parts with
    | .instanceReference none => true
    | .tuple elements => elements.any fun holds => holds
    | _ => false

theorem holdsSelf_of_form {operation : Operation} (h : operation.form = .instanceReference none) :
    operation.holdsSelf = true := by
  obtain ⟨id, form, type?, constant?⟩ := operation
  obtain rfl : form = .instanceReference none := h
  rfl

theorem holdsSelf_of_element {operation : Operation} {elements : List Operation}
    (h : operation.holdsSelf = false) (hform : operation.form = .tuple elements) :
    ∀ element ∈ elements, element.holdsSelf = false := by
  intro element hmem
  obtain ⟨id, form, type?, constant?⟩ := operation
  obtain rfl : form = .tuple elements := hform
  have hany : (foldList _ elements).any (fun holds => holds) = false := h
  rw [foldList_eq, List.any_map, List.any_eq_false] at hany
  exact Bool.eq_false_iff.2 (hany element hmem)

/-- True if the evaluation of the operation assigns to the self reference: as the target of an
assignment, by deconstruction, or through an argument that a callee can write to. -/
def assignsSelf (operation : Operation) : Bool :=
  operation.performed.any fun node => node.form.assignees.any holdsSelf

theorem holdsSelf_of_assignee {operation : Operation} (h : operation.assignsSelf = false)
    {node : Operation} (hnode : node ∈ operation.performed) :
    ∀ target ∈ node.form.assignees, target.holdsSelf = false := by
  intro target htarget
  have hany := List.any_eq_false.1 h node hnode
  exact Bool.eq_false_iff.2 (List.any_eq_false.1 (Bool.eq_false_iff.2 hany) target htarget)

end Operation

namespace Routine

open PointsToAnalysis

/-- At the end of the block the self instance may still be bound to what the last statement has
assigned to it, or the last statement on the way to the block. -/
inductive UnsettlesSelf (routine : Routine) : BlockId → Prop
  | assigns {id : BlockId} {block : Block} {statement : Operation}
    (hreached : routine.graph.Reached id) (hblock : routine.graph.block? id = some block)
    (hlast : block.statements.getLast? = some statement) (h : statement.assignsSelf = true) :
    UnsettlesSelf routine id
  | passes {source id : BlockId} {block : Block} (hsource : UnsettlesSelf routine source)
    (hedge : routine.graph.HasFeasibleEdge source id)
    (hblock : routine.graph.block? id = some block) (h : block.statements = []) :
    UnsettlesSelf routine id

/-- All operations of the id that are given a value are self references, in statements that do not
assign to the self reference. -/
def ReadsSelf (routine : Routine) (id : OperationId) : Prop :=
  ∀ source block, routine.graph.Reached source → routine.graph.block? source = some block →
    ∀ statement ∈ block.statements, ∀ node ∈ statement.performed,
      ∀ recipient ∈ node.recipients, recipient.id = id →
        recipient.form = .instanceReference none ∧ hasNoLocation recipient = false ∧
          statement.assignsSelf = false

/-- If no block ends with an assignment to the self reference, then the self instance is settled at
the end of all blocks. -/
theorem not_unsettlesSelf {routine : Routine}
    (h : ∀ block ∈ routine.graph.blocks, ∀ statement, block.statements.getLast? = some statement →
      statement.assignsSelf = false) (id : BlockId) : ¬routine.UnsettlesSelf id := by
  intro hunsettles
  induction hunsettles with
  | assigns _ hblock hlast hassigns =>
    rw [h _ (ControlFlowGraph.mem_blocks_of_block? routine.graph hblock) _ hlast] at hassigns
    cases hassigns
  | passes _ _ _ _ ih => exact ih

/-- If the operations have different ids, then a self reference stands for itself only. -/
theorem HasUniqueIds.readsSelf {routine : Routine} (hids : routine.HasUniqueIds) {block : Block}
    (hblock : block ∈ routine.graph.blocks) {statement : Operation}
    (hstatement : statement ∈ block.statements) (hassigns : statement.assignsSelf = false)
    {reference : Operation} (hreference : reference ∈ statement.performed)
    (hform : reference.form = .instanceReference none)
    (hlocation : hasNoLocation reference = false) : routine.ReadsSelf reference.id := by
  intro source other _ hother statement' hstatement' node hnode recipient hrecipient hid
  have hother := ControlFlowGraph.mem_blocks_of_block? routine.graph hother
  obtain rfl : node = reference := hids.eq_of_recipient (mem_performed hother hstatement' hnode)
    (mem_performed hblock hstatement hreference) hrecipient reference.self_mem_recipients hid
  obtain rfl : statement' = statement :=
    hids.eq_of_statement (List.mem_flatMap.2 ⟨other, hother, hstatement'⟩)
      (List.mem_flatMap.2 ⟨block, hblock, hstatement⟩) hnode hreference
  rw [Operation.recipients, hform] at hrecipient
  obtain rfl := List.mem_singleton.1 hrecipient
  exact ⟨hform, hlocation, hassigns⟩

/-! ## States that bind the self instance -/

/-- A binding of the self instance, to what it is if that is settled, or a binding of something
else. -/
def BindsSelf (me : Entity) (settled : Prop) (e : Entity) (value : PointsTo) : Prop :=
  e.place = .self → e.same me = true ∧ (settled → value = me.owner)

/-- The state binds the self instance, and to what it is if that is settled.  There is no other
entity for it. -/
structure SelfBound (me : Entity) (settled : Prop) (state : PointsToState) : Prop where
  each : state.EachBinding (BindsSelf me settled)
  contains : state.contains me = true

variable {routine : Routine} {me : Entity} {settled : Prop} {state : PointsToState}

section Bindings

variable (hself : routine.self? = some me)
include hself

theorem wellFormed_owner : me.owner.WellFormed := by
  rw [(self?_eq_some hself).2.2]
  exact refers_selfValue.wellFormed

namespace BindsSelf

variable {k l : Entity} {v w : PointsTo}

/-- Another value of an entity may be merged into its value. -/
theorem add (hk : BindsSelf me settled k v) (hl : BindsSelf me settled l w)
    (hsame : Key.same l k = true) : BindsSelf me settled k (AbstractValue.merge v w) := by
  intro hplace
  obtain ⟨hksame, hv⟩ := hk hplace
  obtain ⟨-, hw⟩ := hl ((Entity.same_iff.1 hsame).1.trans hplace)
  refine ⟨hksame, fun hsettled => ?_⟩
  rw [hv hsettled, hw hsettled]
  exact (wellFormed_owner hself).merge_self

theorem widen (hk : BindsSelf me settled k v) (hl : BindsSelf me settled l w)
    (hsame : Key.same l k = true) : BindsSelf me settled k (AbstractValue.widen v w) := by
  intro hplace
  obtain ⟨hksame, hv⟩ := hk hplace
  obtain ⟨-, hw⟩ := hl ((Entity.same_iff.1 hsame).1.trans hplace)
  refine ⟨hksame, fun hsettled => ?_⟩
  rw [hv hsettled, hw hsettled]
  exact (wellFormed_owner hself).widen_self

/-- Bindings of the self instance are bindings of one entity, so they are merged in place. -/
theorem landing (hk : BindsSelf me settled k v) (hl : BindsSelf me settled l w)
    (hfamily : InstanceKey.sameFamily k l = true) :
    BindsSelf me settled (Environment.landing k l) (AbstractValue.merge v w) := by
  intro hplace
  have hkplace : k.place = .self := by rwa [Entity.landing_eq] at hplace
  have hlplace : l.place = .self :=
    (Entity.family_eq_iff.1 (of_decide_eq_true hfamily)).1.symm.trans hkplace
  have hksame := (hk hkplace).1
  have hsame : Key.same l k = true := Key.same_trans (hl hlplace).1 (Key.same_symm hksame)
  have hlanding := (Entity.same_landing_of_same (Key.same_symm hsame)).2
  exact ⟨Key.same_trans hlanding hksame, (hk.add hself hl hsame hkplace).2⟩

end BindsSelf
end Bindings

namespace SelfBound

theorem mono (h : SelfBound me settled state) {settled' : Prop} (himp : settled' → settled) :
    SelfBound me settled' state where
  each x hx hplace := ((h.each x hx) hplace).imp_right fun hvalue hsettled => hvalue (himp hsettled)
  contains := h.contains

theorem insert (h : SelfBound me settled state) {e : Entity} {value : PointsTo}
    (hnew : BindsSelf me settled e value) : SelfBound me settled (state.insert e value) where
  each := h.each.insert hnew
  contains := state.isSome_get?_insert _ _ h.contains

theorem resetEntities (h : SelfBound me settled state) {condition : Entity → Bool} :
    SelfBound me settled (pointsToAnalysis.resetEntities condition state) where
  each := by
    refine h.each.mapValues fun e value he hplace => ?_
    show e.same me = true ∧ (settled →
      (if !isPinned e && condition e then AbstractValue.unknown else value) = me.owner)
    have hpinned : isPinned e = true := by simp [isPinned, Entity.isSelf, hplace]
    rw [hpinned, Bool.not_true, Bool.false_and, if_neg Bool.false_ne_true]
    exact he hplace
  contains := contains_resetEntities h.contains

theorem write (h : SelfBound me settled state) {e : Entity} {value : PointsTo}
    (he : e.place = .self → e.same me = true ∧ ¬settled) :
    SelfBound me settled (pointsToAnalysis.write e value state) :=
  h.resetEntities.insert fun hplace =>
    ⟨(he hplace).1, fun hsettled => absurd hsettled (he hplace).2⟩

theorem contains_of_same (h : SelfBound me settled state) {e : Entity} (hsame : e.same me = true) :
    state.contains e = true := by
  rw [Environment.contains, state.get?_congr hsame]
  exact h.contains

/-- A binding of the self instance replaces what it has been bound to. -/
theorem of_get? (h : SelfBound me settled state) (hvalue : state.get? me = some me.owner)
    (settled' : Prop) : SelfBound me settled' state where
  each x hx hplace := by
    obtain ⟨hsame, -⟩ := h.each x hx hplace
    have hget := state.get?_eq_some_of_mem hx
    rw [state.get?_congr hsame, hvalue] at hget
    exact ⟨hsame, fun _ => (Option.some.inj hget).symm⟩
  contains := h.contains

section Self

variable (hself : routine.self? = some me)
include hself

/-- Before a statement the self instance is bound to what it is. -/
theorem bindSelf (h : SelfBound me settled state) (settled' : Prop) :
    SelfBound me settled' (PointsToAnalysis.bindSelf routine state) := by
  have heq : PointsToAnalysis.bindSelf routine state = state.insert me me.owner := by
    rw [PointsToAnalysis.bindSelf, hself]
  rw [heq]
  exact (h.insert fun _ => ⟨Key.same_refl me, fun _ => rfl⟩).of_get?
    (state.get?_insert_self me me.owner) settled'

theorem get? (h : SelfBound me settled state) (hsettled : settled) :
    state.get? me = some me.owner := by
  obtain ⟨value, hvalue⟩ := Option.isSome_iff_exists.1 h.contains
  obtain ⟨e, hsame, he⟩ := h.each.exists_key hvalue
  have hplace : e.place = .self := (Entity.same_iff.1 hsame).1.trans (self?_eq_some hself).1
  rw [hvalue, (he hplace).2 hsettled]

/-- The self instance is bound on entry to the routine, and the parameters are not taken for it. -/
theorem initialState : SelfBound me settled (PointsToAnalysis.initialState routine) := by
  rw [PointsToAnalysis.initialState, hself]
  refine List.foldlRecOn (motive := SelfBound me settled) routine.parameters _
    ⟨Environment.eachBinding_empty.insert fun _ => ⟨Key.same_refl me, fun _ => rfl⟩, ?_⟩
    fun state hstate parameter _ => hstate.insert fun hplace => by cases hplace
  rw [Environment.contains, Environment.get?_insert_self]
  rfl

/-- What is known of the self instance does not get lost where states are merged: both sides bind
it. -/
theorem mergeWith {a b : PointsToState} (ha : SelfBound me settled a)
    (hb : SelfBound me settled b) (absent : Entity → PointsTo → PointsTo) :
    SelfBound me settled (a.mergeWith b absent) where
  each := by
    refine Environment.EachBinding.mergeWith_of_observed (BindsSelf.landing hself)
      (BindsSelf.add hself) Entity.same_landing_of_same ha.each hb.each fun x hx hplace => ?_
    rcases hx with ⟨hmem, hfree⟩ | ⟨hmem, hfree⟩
    · rw [hb.contains_of_same (ha.each x hmem hplace).1] at hfree
      cases hfree
    · rw [ha.contains_of_same (hb.each x hmem hplace).1] at hfree
      cases hfree
  contains := Environment.contains_mergeWith (.inl ha.contains)

theorem widenData {previous : PointsToState} (h : SelfBound me settled state)
    (hprevious : SelfBound me settled previous) :
    SelfBound me settled (PointsToAnalysis.widenData state previous) where
  each := (hprevious.mergeWith hself h _).each.widenWith_of_merge (BindsSelf.widen hself)
    hprevious.each
  contains := Environment.contains_widenWith (.inl h.contains)

end Self
end SelfBound

/-! ## Evaluation -/

section Evaluation

variable (hself : routine.self? = some me)
include hself

/-- A single step keeps what is known of the self instance, if it assigns to the self reference only
where the self instance is not settled. -/
theorem maintainsAt_selfBound {operation : Operation}
    (h : settled → ∀ target ∈ operation.form.assignees, target.holdsSelf = false) :
    pointsToAnalysis.MaintainsAt (.ofState routine (SelfBound me settled)) operation where
  unknown := trivial
  mergeValue _ _ := trivial
  defaultValue _ := trivial
  creationValue _ _ := trivial
  invocationValue _ hf := ⟨trivial, hf.state⟩
  conversionValue _ _ _ := trivial
  finalValue _ _ := trivial
  assigned _ _ := trivial
  read _ _ := trivial
  writeCapture {capture captured f e value} hform hf he _ := by
    refine hf.state.write fun hplace => ?_
    have hreference := (Operation.self_of_denoted? he hplace).2
    rw [hform] at hreference
    cases hreference
  declare _ _ ha := ha.write fun hplace => by cases hplace
  writeResult _ _ ha := ha.write fun hplace => by cases hplace
  assign {target f value} hmem hvalue hf := by
    let P (target : Operation) : Prop := settled → target.holdsSelf = false
    have helements : ∀ {o elements}, P o → o.form = .tuple elements →
        ∀ element ∈ elements, P element := fun ho hform element hmem hsettled =>
      Operation.holdsSelf_of_element (ho hsettled) hform element hmem
    refine Analysis.holds_assign (P := P) trivial helements (fun {o f e value} ho hf he _ => ?_)
      (fun {_ a} (ha : SelfBound me settled a) => ha.resetEntities) target
      (fun hsettled => h hsettled target hmem) hvalue hf
    refine hf.state.write fun hplace => ?_
    obtain ⟨hsome, hform⟩ := Operation.self_of_denoted? he hplace
    rw [hf.routine] at hsome
    have hme : e = me := (Option.some.inj (hself.symm.trans hsome)).symm
    refine ⟨hme ▸ Key.same_refl me, fun hsettled => ?_⟩
    exact Bool.false_ne_true ((ho hsettled).symm.trans (Operation.holdsSelf_of_form hform))
  reset ha := ha.resetEntities
  merge ha hb := ha.mergeWith hself hb _

/-- The evaluation of the self reference reads the self instance, unless the operation is known not
to refer to anything. -/
theorem outcome_evaluate_self {operation : Operation}
    (hform : operation.form = .instanceReference none) {m : Machine PointsTo PointsToState}
    (hroutine : m.routine = routine) {value : PointsTo}
    (hvalue : value =
      if hasNoLocation operation then .noLocation else pointsToAnalysis.read m.data me) :
    outcome (pointsToAnalysis.evaluate operation) m =
      (value, { m with
        values := m.values.insert operation.id value
        visited := operation.id :: m.visited }) := by
  have hdenoted : pointsToAnalysis.denoted? m.toFrame operation = some me := by
    obtain ⟨id, form, type?, constant?⟩ := operation
    obtain rfl : form = .instanceReference none := hform
    rw [← hself, ← hroutine]
    rfl
  have hread : pointsToAnalysis.referenceValue operation m.toFrame =
      pointsToAnalysis.read m.data me := by
    rw [Analysis.referenceValue, hdenoted]
    rfl
  have hsettle : outcome (pointsToAnalysis.evaluate operation) m =
      outcome (pointsToAnalysis.settle operation
        (pointsToAnalysis.referenceValue operation m.toFrame)) m := by
    rw [Analysis.evaluate_eq, hform, Analysis.evaluateForm]
    show outcome (pointsToAnalysis.settle operation
      (outcome (pointsToAnalysis.readReference operation) m).1)
        (outcome (pointsToAnalysis.readReference operation) m).2 = _
    rw [Analysis.outcome_readReference]
  rw [hsettle, hread, hvalue]
  rfl

/-- Where the self instance is bound to what it is, the self reference refers to that. -/
theorem outcome_evaluate_selfReference {operation : Operation}
    (hform : operation.form = .instanceReference none) (hlocation : hasNoLocation operation = false)
    {m : Machine PointsTo PointsToState} (hroutine : m.routine = routine)
    (hbound : m.data.get? me = some me.owner) :
    outcome (pointsToAnalysis.evaluate operation) m =
      (me.owner, { m with
        values := m.values.insert operation.id me.owner
        visited := operation.id :: m.visited }) := by
  refine outcome_evaluate_self hself hform hroutine ?_
  have hentities : (EntityState.entities m.data).get? me = some me.owner := hbound
  rw [if_neg (by simp [hlocation]), Analysis.read, hentities]

omit hself

/-- The values of the operations that only stand for the self reference. -/
def selfValues (routine : Routine) (me : Entity) : TableInvariant PointsTo :=
  .ofValues fun id value => routine.ReadsSelf id → value = me.owner

/-- The self instance is bound, and to what it is if that is settled, and this is also the value of
the operations that only stand for the self reference. -/
abbrev selfInvariant (routine : Routine) (me : Entity) (settled : Prop) :
    Invariant PointsTo PointsToState :=
  .ofTable routine (SelfBound me settled) (selfValues routine me)

theorem holds_selfInvariant_mono {f : Frame PointsTo PointsToState}
    (h : (selfInvariant routine me settled).Holds f) {settled' : Prop}
    (himp : settled' → settled) : (selfInvariant routine me settled').Holds f :=
  ⟨h.routine, h.state.mono himp, h.values⟩

include hself

variable {id : BlockId} {block : Block} (hreached : routine.graph.Reached id)
  (hblock : routine.graph.block? id = some block)
include hreached hblock

/-- The evaluation of a statement keeps what is known of the self instance. -/
theorem accepts_evaluate_selfBound {statement : Operation}
    (hstatement : statement ∈ block.statements) :
    (selfInvariant routine me (statement.assignsSelf = false)).logic.AcceptsAt pointsToAnalysis
      statement := by
  refine Logic.accepts_evaluate fun node hnode => ?_
  have hassignees : statement.assignsSelf = false →
      ∀ target ∈ node.form.assignees, target.holdsSelf = false :=
    fun hsettled => Operation.holdsSelf_of_assignee hsettled hnode
  have hgiven : ∀ recipient ∈ node.recipients, routine.ReadsSelf recipient.id →
      recipient.form = .instanceReference none ∧ hasNoLocation recipient = false ∧
        statement.assignsSelf = false := fun recipient hrecipient h =>
    h id block hreached hblock statement hstatement node hnode recipient hrecipient rfl
  by_cases hreads : routine.ReadsSelf node.id
  · obtain ⟨hform, hlocation, hassigns⟩ := hgiven node node.self_mem_recipients hreads
    refine .inl fun m hm => ?_
    rw [outcome_evaluate_selfReference hself hform hlocation hm.routine
      (hm.state.get? hself hassigns)]
    have hvalues : (selfValues routine me).table (m.values.insert node.id me.owner) :=
      (selfValues routine me).insert hm.values fun _ => rfl
    exact ⟨fun _ => rfl, hm.routine, hm.state, hvalues⟩
  · refine .inr (Analysis.rules_of_maintainsAt ((maintainsAt_selfBound hself hassignees).ofTable
      fun recipient hrecipient v h => ?_))
    -- The recipient is the target of an assignment, so that it is not the self reference.
    obtain ⟨hform, -, hassigns⟩ := hgiven recipient hrecipient h
    unfold Operation.recipients at hrecipient
    split at hrecipient
    · next target assigned hassignment =>
      rcases List.mem_pair.1 hrecipient with rfl | rfl
      · exact absurd h hreads
      · have hholds := hassignees hassigns recipient (by simp [hassignment, Form.assignees])
        rw [Operation.holdsSelf_of_form hform] at hholds
        cases hholds
    · obtain rfl := List.mem_singleton.1 hrecipient
      exact absurd h hreads

/-- After a statement the self instance is settled unless the statement assigns to it, whatever it
has been bound to before. -/
theorem holds_evaluateStatement {statement : Operation} (hstatement : statement ∈ block.statements)
    {m : Machine PointsTo PointsToState}
    (hm : (selfInvariant routine me settled).Holds m.toFrame) :
    (selfInvariant routine me (statement.assignsSelf = false)).Holds
      (outcome (pointsToAnalysis.evaluateStatement statement) m).2.toFrame := by
  have hstart : SelfBound me (statement.assignsSelf = false)
      (PointsToAnalysis.bindSelf m.routine m.data) := by
    rw [hm.routine]
    exact SelfBound.bindSelf hself hm.state _
  exact (accepts_evaluate_selfBound hself hreached hblock hstatement
    { m with data := PointsToAnalysis.bindSelf m.routine m.data }
      ⟨hm.routine, hstart, hm.values⟩).2

/-- At the end of a block the self instance is settled unless the last statement assigns to it.  A
block without statements leaves it as it is. -/
theorem holds_evaluateBlock {m : Machine PointsTo PointsToState}
    (hm : (selfInvariant routine me settled).Holds m.toFrame) :
    (selfInvariant routine me
      ((∀ statement, block.statements.getLast? = some statement → statement.assignsSelf = false) ∧
        (block.statements = [] → settled))).Holds
          (outcome (pointsToAnalysis.evaluateBlock block) m).2.toFrame := by
  have hrun : (outcome (pointsToAnalysis.evaluateBlock block) m).2 =
      (outcome (block.statements.forM pointsToAnalysis.evaluateStatement) m).2 := rfl
  rw [hrun]
  rcases List.eq_nil_or_concat' block.statements with hnil | ⟨before, last, hconcat⟩
  · rw [hnil]
    exact holds_selfInvariant_mono hm fun h => h.2 rfl
  · have hmem : ∀ statement ∈ before ++ [last], statement ∈ block.statements := by
      rw [hconcat]
      exact fun _ h => h
    -- Of what comes before the last statement it only matters that the self instance stays bound.
    have hbefore : Preserves (selfInvariant routine me False) (fun _ => True)
        (before.forM pointsToAnalysis.evaluateStatement) := by
      refine Logic.runs_forM (L := Invariant.logic _) fun statement hstatement m hm => ?_
      have hafter := holds_evaluateStatement hself hreached hblock
        (hmem statement (List.mem_append_left _ hstatement)) hm
      exact ⟨trivial, holds_selfInvariant_mono hafter False.elim⟩
    have hlast := (hbefore m (holds_selfInvariant_mono hm False.elim)).2
    have hsplit : (outcome (block.statements.forM pointsToAnalysis.evaluateStatement) m).2 =
        (outcome (pointsToAnalysis.evaluateStatement last)
          (outcome (before.forM pointsToAnalysis.evaluateStatement) m).2).2 := by
      rw [hconcat, List.forM_eq_forM, List.forM_append, List.forM_cons]
      rfl
    rw [hsplit]
    have hafter := holds_evaluateStatement hself hreached hblock (hmem last (by simp)) hlast
    refine holds_selfInvariant_mono hafter fun h => h.1 last ?_
    rw [hconcat]
    simp

omit hreached hblock

/-- What is known of the self instance on entry to each block, and on exit from it. -/
theorem annotates_selfBound : pointsToAnalysis.Annotates routine
    (fun id => SelfBound me
      (∀ source, routine.graph.HasFeasibleEdge source id → ¬routine.UnsettlesSelf source))
    (fun id => SelfBound me (¬routine.UnsettlesSelf id)) (selfValues routine me).table where
  merge ha hb := ha.mergeWith hself hb _
  widen ha hp := ha.widenData hself hp
  first := SelfBound.initialState hself
  edge _ hedge ha := ha.mono fun h => h _ hedge
  noValues id v hv := by simp at hv
  block {id block m} hreached hblock hroutine hentry hvalues := by
    have hafter := holds_evaluateBlock hself hreached hblock ⟨hroutine, hentry, hvalues⟩
    refine ⟨hafter.state.mono fun hsettled => ⟨fun statement hlast => ?_, fun hnil => ?_⟩,
      hafter.values⟩
    · exact Bool.eq_false_iff.2 fun h => hsettled (.assigns hreached hblock hlast h)
    · exact fun source hedge hsource => hsettled (.passes hsource hedge hblock hnil)

end Evaluation

/-- **The self reference refers to one location throughout the routine**, wherever the self instance
is settled: on entry to a block if it is settled at the end of all blocks that control may come
from, on exit from a block if it is settled there, and for the operations that only stand for the
self reference. -/
theorem analyze_self (options : Options) (hself : routine.self? = some me) :
    (∀ id state, (∀ source, routine.graph.HasFeasibleEdge source id →
      ¬routine.UnsettlesSelf source) →
        (routine.analyze options).flow.entryState? id = some state →
          state.get? me = some (routine.analyze options).selfValue) ∧
    (∀ id state, ¬routine.UnsettlesSelf id →
      (routine.analyze options).flow.exitState? id = some state →
        state.get? me = some (routine.analyze options).selfValue) ∧
    ∀ id value, routine.ReadsSelf id → (routine.analyze options).flow.valueOf? id = some value →
      value = (routine.analyze options).selfValue := by
  obtain ⟨hvisits, hvalues⟩ := (annotates_selfBound hself).holds options
  have howner : me.owner = (routine.analyze options).selfValue := (self?_eq_some hself).2.2
  rw [← howner]
  refine ⟨fun id state hsettled hstate => ?_, fun id state hsettled hstate => ?_,
    fun id value hreads hvalue => hvalues id value hvalue hreads⟩
  · obtain ⟨visit, hvisit, rfl⟩ := Option.map_eq_some_iff.1 hstate
    exact (hvisits id visit hvisit).1.get? hself hsettled
  · obtain ⟨visit, hvisit, rfl⟩ := Option.map_eq_some_iff.1 hstate
    exact (hvisits id visit hvisit).2.get? hself hsettled

/-- The self reference. -/
def selfReference (id : OperationId) : Operation :=
  (Operation.ofForm id (.instanceReference none)).withType (.reference "Node")

/-- A call that may assign to the self reference. -/
def replacement : Operation :=
  .ofForm ⟨1⟩ (.invocation (.method (.method ⟨1⟩ "Replace" .void)) none
    [⟨none, .byReference, selfReference ⟨0⟩⟩])

/-- A routine of an instance that consists of the given statements. -/
def instanceRoutine (statements : List Operation) : Routine where
  name := ""
  containingType? := some (.reference "Node")
  parameters := []
  returnType := .void
  graph := ⟨[⟨⟨0⟩, statements, none, [.always ⟨1⟩]⟩, ⟨⟨1⟩, [], none, []⟩], by simp⟩

/-- The self instance is settled again once the statement with the call is over. -/
theorem replacedSelf_settles :
    let routine := instanceRoutine [replacement, .ofForm ⟨3⟩ (.other [selfReference ⟨2⟩])]
    (∃ state, (routine.analyze {}).flow.entryState? ⟨1⟩ = some state ∧
      state.get? (.ofSelf (.reference "Node") routine.selfValue) = some routine.selfValue) ∧
    ∃ value, (routine.analyze {}).flow.valueOf? ⟨2⟩ = some value ∧ value = routine.selfValue := by
  intro routine
  have hself : routine.self? = some (.ofSelf (.reference "Node") routine.selfValue) := rfl
  have hsettled : ∀ id, ¬routine.UnsettlesSelf id := not_unsettlesSelf (by decide)
  have hids : routine.HasUniqueIds := by decide
  have hreads : routine.ReadsSelf ⟨2⟩ := hids.readsSelf List.mem_cons_self
    (.tail _ (.head _)) (by decide) (.tail _ (.head _)) rfl (by decide)
  obtain ⟨hentry, -, hvalue⟩ := analyze_self {} hself
  obtain ⟨state, hstate⟩ : ∃ state, (routine.analyze {}).flow.entryState? ⟨1⟩ = some state :=
    Option.isSome_iff_exists.1 (by decide)
  obtain ⟨value, hfound⟩ : ∃ value, (routine.analyze {}).flow.valueOf? ⟨2⟩ = some value :=
    Option.isSome_iff_exists.1 (by decide)
  exact ⟨⟨state, hstate, hentry _ state (fun _ _ => hsettled _) hstate⟩,
    value, hfound, hvalue _ value hreads hfound⟩

/-- **The self reference may refer to anything** after a call within the same statement that may
have assigned to it. -/
theorem replacedSelf_changes :
    ¬∀ (routine : Routine) (options : Options) (me : Entity), routine.self? = some me →
      (∀ id state, (routine.analyze options).flow.entryState? id = some state →
        state.get? me = some (routine.analyze options).selfValue) ∧
      (∀ id state, (routine.analyze options).flow.exitState? id = some state →
        state.get? me = some (routine.analyze options).selfValue) ∧
      ∀ reference ∈ routine.nodes, reference.form = .instanceReference none →
        hasNoLocation reference = false → ∀ value,
          (routine.analyze options).flow.valueOf? reference.id = some value →
            value = (routine.analyze options).selfValue := by
  intro h
  have hreference : selfReference ⟨2⟩ ∈
      (instanceRoutine [.ofForm ⟨3⟩ (.other [replacement, selfReference ⟨2⟩])]).nodes :=
    .tail _ (.tail _ (.tail _ (.head _)))
  have hvalue := (h (instanceRoutine [.ofForm ⟨3⟩ (.other [replacement, selfReference ⟨2⟩])]) {} _
    rfl).2.2 _ hreference rfl (by decide) .unknown (by decide)
  cases hvalue

end Routine
end HeapFlow
