import HeapFlow.Proofs.Solver.Invariant

/-! # Where the value of an operation comes from

In a routine whose operations have ids of their own, each operation is given its value by one
operation only: by itself, or by the assignment that it is the target of.  So whatever analysis is
run, and however often a block is interpreted, the value that an operation has in the end is one
that the analysis has settled on for it (`Analysis.value_of_settled`), unless the operation is the
target of an assignment.  Then it has the value of the operation that is assigned
(`Analysis.valueOf_target`).
-/
namespace HeapFlow

namespace Routine

/-- The operations of the body of a routine that are performed if control reaches them. -/
def performed (routine : Routine) : List Operation :=
  routine.graph.blocks.flatMap fun block => block.statements.flatMap Operation.performed

variable {routine : Routine}

theorem mem_performed {block : Block} (hblock : block ∈ routine.graph.blocks)
    {statement : Operation} (hstatement : statement ∈ block.statements) {node : Operation}
    (hnode : node ∈ statement.performed) : node ∈ routine.performed :=
  List.mem_flatMap.2 ⟨block, hblock, List.mem_flatMap.2 ⟨statement, hstatement, hnode⟩⟩

theorem performed_sublist (routine : Routine) : routine.performed.Sublist routine.nodes :=
  List.Sublist.flatMap_right _ fun _ _ =>
    List.Sublist.flatMap_right _ fun statement _ => statement.performed_sublist

/-- All operations that are given values are different operations of the body. -/
theorem flatMap_recipients_sublist (routine : Routine) :
    (routine.performed.flatMap Operation.recipients).Sublist routine.nodes := by
  rw [performed, List.flatMap_assoc]
  refine List.Sublist.flatMap_right _ fun block _ => ?_
  rw [List.flatMap_assoc]
  exact List.Sublist.flatMap_right _ fun statement _ => statement.flatMap_recipients_sublist

/-- An operation that is performed is a statement, or is performed as a part of another one. -/
theorem performed_perm (routine : Routine) :
    routine.performed.Perm (routine.graph.blocks.flatMap Block.statements ++
      routine.performed.flatMap Operation.performedChildren) := by
  have hperformed : routine.performed =
      (routine.graph.blocks.flatMap Block.statements).flatMap Operation.performed := by
    rw [performed, List.flatMap_assoc]
  have hsplit := List.flatMap_append_perm (routine.graph.blocks.flatMap Block.statements)
    (fun statement => [statement])
    fun statement => statement.performed.flatMap Operation.performedChildren
  rw [List.flatMap_singleton', ← List.flatMap_assoc, ← hperformed] at hsplit
  refine List.Perm.trans ?_ hsplit.symm
  rw [hperformed]
  exact List.Perm.flatMap_left _ fun statement _ => statement.performed_perm

theorem performed_of_part (routine : Routine) {o part : Operation} (ho : o ∈ routine.performed)
    (hpart : part ∈ o.performedChildren) : part ∈ routine.performed :=
  routine.performed_perm.mem_iff.2
    (List.mem_append_right _ (List.mem_flatMap.2 ⟨o, ho, hpart⟩))

namespace HasUniqueIds

variable (hids : routine.HasUniqueIds)
include hids

theorem eq_of_id_eq {o o' : Operation} (ho : o ∈ routine.nodes) (ho' : o' ∈ routine.nodes)
    (hid : o.id = o'.id) : o = o' := List.inj_on_of_nodup_map hids ho ho' hid

theorem nodup_recipients :
    (routine.performed.flatMap fun o => o.recipients.map (·.id)).Nodup := by
  have h := (routine.flatMap_recipients_sublist.map Operation.id).nodup hids
  rwa [List.map_flatMap] at h

/-- An operation is given its value by one operation only. -/
theorem eq_of_recipient {o o' recipient recipient' : Operation} (ho : o ∈ routine.performed)
    (ho' : o' ∈ routine.performed) (hrecipient : recipient ∈ o.recipients)
    (hrecipient' : recipient' ∈ o'.recipients) (hid : recipient.id = recipient'.id) : o = o' :=
  eq_of_nodup_flatMap hids.nodup_recipients ho ho' (List.mem_map_of_mem hrecipient)
    (hid ▸ List.mem_map_of_mem hrecipient')

/-- The target of an assignment is not performed. -/
theorem ne_target {o assignment target assigned : Operation} (ho : o ∈ routine.performed)
    (hassignment : assignment ∈ routine.performed)
    (hform : assignment.form = .simpleAssignment target assigned) : o.id ≠ target.id := by
  have hrecipients : assignment.recipients = [assignment, target] := by
    rw [Operation.recipients, hform]
  intro hid
  obtain rfl := hids.eq_of_recipient ho hassignment o.self_mem_recipients (by simp [hrecipients])
    hid
  have hnodup := (List.nodup_flatMap.1 hids.nodup_recipients).1 o ho
  simp [hrecipients, hid] at hnodup

theorem nodup_performed : routine.performed.Nodup :=
  routine.performed_sublist.nodup (List.Nodup.of_map _ hids)

/-- An operation is performed as a part of one operation only, and a statement of none. -/
theorem nodup_parts : (routine.graph.blocks.flatMap Block.statements ++
    routine.performed.flatMap Operation.performedChildren).Nodup :=
  routine.performed_perm.nodup_iff.1 hids.nodup_performed

theorem eq_of_part {o o' part : Operation} (ho : o ∈ routine.performed)
    (ho' : o' ∈ routine.performed) (hpart : part ∈ o.performedChildren)
    (hpart' : part ∈ o'.performedChildren) : o = o' :=
  eq_of_nodup_flatMap (List.nodup_append.1 hids.nodup_parts).2.1 ho ho' hpart hpart'

/-- An operation is performed along with one statement only. -/
theorem eq_of_statement {statement statement' node : Operation}
    (hstatement : statement ∈ routine.graph.blocks.flatMap Block.statements)
    (hstatement' : statement' ∈ routine.graph.blocks.flatMap Block.statements)
    (hnode : node ∈ statement.performed) (hnode' : node ∈ statement'.performed) :
    statement = statement' := by
  have hnodup := hids.nodup_performed
  rw [performed, ← List.flatMap_assoc] at hnodup
  exact eq_of_nodup_flatMap hnodup hstatement hstatement' hnode hnode'

end HasUniqueIds
end Routine

namespace Analysis

variable {V D : Type} [AbstractValue V] [EntityState D V] [BEq D]
variable (A : Analysis V D) {routine : Routine} {options : Options}

/-- What all statements keep of the table of values, from whatever state, holds of the values in the
end. -/
theorem values_of_statements (T : TableInvariant V) (hstart : T.table .empty)
    (h : ∀ block ∈ routine.graph.blocks, ∀ statement ∈ block.statements,
      (Invariant.ofTable routine (fun _ : D => True) T).logic.AcceptsAt A statement) :
    T.table (A.finalState routine options).machine.values := by
  have hfirst : (Invariant.ofTable routine (fun _ : D => True) T).logic.AcceptsStart A :=
    preserves_frame.bind fun _ _ => preserves_changeData fun _ _ => trivial
  have hannotates : A.Annotates routine (fun _ _ => True) (fun _ _ => True) T.table :=
    { merge := fun _ _ => trivial
      widen := fun _ _ => trivial
      first := trivial
      edge := fun _ _ _ => trivial
      noValues := hstart
      block := fun _ hblock hroutine _ hvalues => ⟨trivial, (Logic.accepts_evaluateBlock hfirst
        (h _ (ControlFlowGraph.mem_blocks_of_block? routine.graph hblock)) _
          ⟨hroutine, trivial, hvalues⟩).2.values⟩ }
  exact (hannotates.holds options).2

variable (hids : routine.HasUniqueIds)
include hids

/-- **The value of an operation is one that the analysis has settled on for it**, unless it is the
target of an assignment. -/
theorem value_of_settled {Q : V → Prop} {operation : Operation}
    (hoperation : operation ∈ routine.nodes) (hQ : ∀ f v, Q (A.finalValue f operation v))
    (htarget : ∀ assignment ∈ routine.performed, ∀ assigned,
      assignment.form ≠ .simpleAssignment operation assigned) {v : V}
    (hvalue : (A.solve routine options).valueOf? operation.id = some v) : Q v := by
  let T : TableInvariant V := .ofValues fun id v => id = operation.id → Q v
  let I : Invariant V D := .ofTable routine (fun _ => True) T
  have hmaintains := (A.upholds_unrestricted routine).maintains
  have hnode : ∀ node ∈ routine.performed, I.logic.AcceptsAt A node ∨ I.logic.Rules A node := by
    intro node hnode
    by_cases heq : node = operation
    · subst heq
      refine .inl (preserves_evaluate_ofValue fun m hm =>
        ⟨?_, (preserves_evaluate hmaintains trivial m hm).2⟩)
      obtain ⟨f, v, hsettled⟩ := A.exists_finalValue_evaluate node m
      rw [hsettled]
      exact hQ f v
    · refine .inr (rules_of_maintainsAt ((hmaintains.maintainsAt trivial).ofTable
        fun recipient hrecipient v hid => absurd hid ?_))
      intro hid
      have hmem : recipient ∈ routine.nodes := routine.flatMap_recipients_sublist.subset
        (List.mem_flatMap.2 ⟨node, hnode, hrecipient⟩)
      obtain rfl := hids.eq_of_id_eq hmem hoperation hid
      unfold Operation.recipients at hrecipient
      split at hrecipient
      · next target assigned hform =>
        rcases List.mem_pair.1 hrecipient with rfl | rfl
        · exact heq rfl
        · exact htarget node hnode assigned hform
      · exact heq (List.mem_singleton.1 hrecipient).symm
  refine A.values_of_statements T (fun id v hv => by simp at hv)
    (fun block hblock statement hstatement => Logic.accepts_evaluate fun node hperformed =>
      hnode node (Routine.mem_performed hblock hstatement hperformed)) operation.id v hvalue rfl

/-- **The target of an assignment has the value of the operation that is assigned.** -/
theorem valueOf_target {assignment target assigned : Operation}
    (hassignment : assignment ∈ routine.performed)
    (hform : assignment.form = .simpleAssignment target assigned) :
    (A.solve routine options).valueOf? target.id =
      (A.solve routine options).valueOf? assigned.id := by
  have hrecipients : assignment.recipients = [assignment, target] := by
    rw [Operation.recipients, hform]
  have hpart : assigned ∈ assignment.performedChildren := by
    rw [Operation.performedChildren, hform]
    simp
  have hassigned := routine.performed_of_part hassignment hpart
  have hne : assignment ≠ assigned := by
    rintro rfl
    have hmem : assignment ∈ assignment.children := by
      simp [Operation.children, hform, Form.children]
    exact absurd (Operation.sizeOf_lt_of_part hmem) (lt_irrefl _)
  have hnotAssigned : ∀ {o recipient}, o ∈ routine.performed → o ≠ assigned →
      recipient ∈ o.recipients → recipient.id ≠ assigned.id := fun ho hne hrecipient hid =>
    hne (hids.eq_of_recipient ho hassigned hrecipient assigned.self_mem_recipients hid)
  have hnotTarget : ∀ {o recipient}, o ∈ routine.performed → o ≠ assignment →
      recipient ∈ o.recipients → recipient.id ≠ target.id := fun ho hne hrecipient hid =>
    hne (hids.eq_of_recipient ho hassignment hrecipient (by simp [hrecipients]) hid)
  have hmaintains := (A.upholds_unrestricted routine).maintains
  refine A.values_of_statements (.ofSame V target.id assigned.id) rfl
    fun block hblock statement hmem => ?_
  refine Logic.accepts_evaluate_of (fun o => o ∈ routine.performed ∧ o ≠ assigned)
    (fun {o} hallowed => ?_) statement ⟨?_, ?_⟩
  · obtain ⟨ho, hoassigned⟩ := hallowed
    by_cases heq : o = assignment
    · subst heq
      refine .inl (preserves_evaluate_ofSame hform ⟨?_, ?_⟩ ?_
        (preserves_evaluate hmaintains trivial))
      · exact hids.ne_target ho ho hform
      · exact hnotAssigned ho hoassigned o.self_mem_recipients
      · exact hnotAssigned ho hoassigned (by simp [hrecipients])
    · refine .inr ⟨rules_of_maintainsAt ((hmaintains.maintainsAt trivial).ofTable
        fun recipient hrecipient v => ⟨hnotTarget ho heq hrecipient,
          hnotAssigned ho hoassigned hrecipient⟩), fun part hpart' => ⟨?_, ?_⟩⟩
      · exact routine.performed_of_part ho hpart'
      · rintro rfl
        exact heq (hids.eq_of_part ho hassignment hpart' hpart)
  · exact Routine.mem_performed hblock hmem statement.self_mem_performed
  · rintro rfl
    exact (List.nodup_append.1 hids.nodup_parts).2.2 _
      (List.mem_flatMap.2 ⟨block, hblock, hmem⟩) _
      (List.mem_flatMap.2 ⟨assignment, hassignment, hpart⟩) rfl

end Analysis
end HeapFlow
