import HeapFlow.Proofs.Client.JoinedReads
import HeapFlow.Proofs.Entity.Reference
import HeapFlow.Proofs.Interpreter.Invariant

/-! # What a call does to a state

A call forgets the heap, or everything if the callee can reach the variables of its caller, and then
assigns an unknown value to each piece of storage that it was given to write to, in order.  Each of
these steps takes the state before it to a state with some storage overwritten and some storage
forgotten (`CallEffect`).  Two such steps come to a step of the same kind (`CallEffect.trans`): what
has been overwritten by the first step and is forgotten by the second one is unknown either way.  So
no storage ceases to be bound, and the order of the arguments matters to what a call does only where
they refer to the same storage with different types, of which the last one counts
(`PointsToAnalysis.applyCall_effect`, `PointsToAnalysis.applyCall_counts_lastType`).

Storage that is not bound is not forgotten, as there is nothing to forget: it keeps its default.
For a local variable that has not been assigned that is the undefined value, although a callee that
can reach the variables of its caller may have assigned it
(`PointsToAnalysis.read_local_after_call`).
-/
namespace HeapFlow

namespace Operation

/-! ## Targets -/

/-- The operations that are assigned to when an operation is: the elements of a tuple, and in turn
the elements of these, or else the operation itself. -/
def targets (operation : Operation) : List Operation :=
  operation.fold fun node parts =>
    match parts with
    | .tuple elements => elements.flatten
    | _ => [node]

theorem targets_of_tuple {operation : Operation} {elements : List Operation}
    (h : operation.form = .tuple elements) : operation.targets = elements.flatMap targets := by
  obtain ⟨id, form, type?, constant?⟩ := operation
  obtain rfl : form = .tuple elements := h
  show (foldList _ elements).flatten = _
  rw [foldList_eq, List.flatMap_def]
  rfl

theorem targets_of_not_tuple {operation : Operation}
    (h : ∀ elements, operation.form ≠ .tuple elements) : operation.targets = [operation] := by
  obtain ⟨id, form, type?, constant?⟩ := operation
  cases form with
  | tuple elements => exact absurd rfl (h elements)
  | _ => rfl

/-- True for the storage that an operation may stand for if the storage cannot be tracked: the same
member of some instance, or an element of some array. -/
def mayStandFor (operation : Operation) (e : Entity) : Bool :=
  match operation.form with
  | .fieldReference _ member | .propertyReference _ member [] => e.isMember member
  | .arrayElementReference _ _ => e.isElement
  | _ => false

/-- True for a property with arguments, which is assigned to by a call. -/
def isIndexer (operation : Operation) : Bool :=
  match operation.form with
  | .propertyReference _ _ (_ :: _) => true
  | _ => false

end Operation

/-! ## Effects -/

/-- The entity is in the list, and nothing that comes after it is the same storage. -/
def Entity.ComesLast (e : Entity) (entities : List Entity) : Prop :=
  ∃ earlier later, entities = earlier ++ e :: later ∧ ∀ other ∈ later, other.same e = false

namespace Entity

variable {e : Entity} {entities later : List Entity}

theorem ComesLast.mem (h : e.ComesLast entities) : e ∈ entities := by
  obtain ⟨earlier, later, rfl, -⟩ := h
  simp

theorem comesLast_singleton {k : Entity} : e.ComesLast [k] ↔ e = k := by
  constructor
  · exact fun h => List.mem_singleton.1 h.mem
  · rintro rfl
    exact ⟨[], [], rfl, by simp⟩

theorem ComesLast.of_append (h : e.ComesLast (entities ++ later)) :
    e.ComesLast later ∨ e.ComesLast entities ∧ ∀ other ∈ later, other.same e = false := by
  obtain ⟨before, after, hsplit, hafter⟩ := h
  rcases List.append_eq_append_iff.1 hsplit with ⟨gap, hbefore, hlater⟩ | ⟨gap, hentities, hgap⟩
  · exact .inl ⟨gap, after, hlater, hafter⟩
  · cases gap with
    | nil => exact .inl ⟨[], after, by simpa using hgap.symm, hafter⟩
    | cons k gap =>
      obtain ⟨rfl, rfl⟩ := List.cons.inj hgap
      have hall := List.forall_mem_append.1 hafter
      exact .inr ⟨⟨before, gap, hentities, hall.1⟩, hall.2⟩

/-- Among the entities of a list that are the same storage, one comes last. -/
theorem exists_comesLast {other : Entity} (hother : other ∈ entities)
    (hsame : other.same e = true) : ∃ k, k.ComesLast entities ∧ e.same k = true := by
  induction entities generalizing other with
  | nil => cases hother
  | cons first rest ih =>
    by_cases hrest : ∃ next ∈ rest, next.same e = true
    · obtain ⟨next, hnext, hnextSame⟩ := hrest
      obtain ⟨k, ⟨earlier, later, rfl, hlater⟩, hk⟩ := ih hnext hnextSame
      exact ⟨k, ⟨first :: earlier, later, rfl, hlater⟩, hk⟩
    · have hfirst : Key.same first e = true := by
        rcases List.mem_cons.1 hother with rfl | h
        · exact hsame
        · exact absurd ⟨other, h, hsame⟩ hrest
      refine ⟨first, ⟨[], rest, rfl, fun next hnext => ?_⟩, Key.same_symm hfirst⟩
      refine Bool.eq_false_iff.2 fun h => hrest ⟨next, hnext, ?_⟩
      exact Key.same_trans h hfirst

end Entity

open PointsToAnalysis (isPinned assignedValue)

/-- The later state is the earlier one after storage has been overwritten with unknown values, in
the order of a list, and storage has been forgotten.  Together with the bindings of the earlier
state, this says what all bindings of the later state are. -/
structure CallEffect (overwritten : List Entity) (forgotten : Entity → Prop)
    (before after : PointsToState) : Prop where
  /-- No storage is bound but what has been bound and what has been overwritten. -/
  bound : ∀ k ∈ after.keys, k ∈ overwritten ∨ k ∈ before.keys
  /-- No storage ceases to be bound. -/
  contains : ∀ e, before.contains e = true → after.contains e = true
  /-- What has been overwritten is bound to an unknown value, or to no object at all if its data is
  copied.  The type of storage is not part of its identity: if storage has been overwritten under
  several types, the last one counts. -/
  assigned : ∀ e, e.ComesLast overwritten → (e, assignedValue e .unknown) ∈ after.entries
  /-- What has been forgotten is bound to an unknown value unless it is pinned. -/
  unknown : ∀ k v, (k, v) ∈ after.entries → isPinned k = false → forgotten k → v = .unknown
  /-- All other storage keeps its value. -/
  kept : ∀ k v, (k, v) ∈ before.entries → (∀ e ∈ overwritten, e.same k = false) →
    (isPinned k = true ∨ ¬forgotten k) → (k, v) ∈ after.entries

namespace CallEffect

variable {overwritten overwritten' : List Entity} {forgotten forgotten' : Entity → Prop}
variable {a b c : PointsToState}

theorem refl : CallEffect [] (fun _ => False) a a where
  bound _ hk := .inr hk
  contains _ h := h
  assigned _ h := nomatch h.mem
  unknown _ _ _ _ h := h.elim
  kept _ _ hentry _ _ := hentry

theorem congr (h : CallEffect overwritten forgotten a b)
    (hforgotten : ∀ e, forgotten e ↔ forgotten' e) : CallEffect overwritten forgotten' a b := by
  obtain rfl : forgotten = forgotten' := funext fun e => propext (hforgotten e)
  exact h

/-- What has been overwritten is bound under the last type that it has been overwritten with. -/
theorem exists_entry (h : CallEffect overwritten forgotten a b) {e k : Entity}
    (he : e ∈ overwritten) (hsame : e.same k = true) :
    ∃ k' ∈ overwritten, k.same k' = true ∧ (k', assignedValue k' .unknown) ∈ b.entries := by
  obtain ⟨k', hlast, hk'⟩ := Entity.exists_comesLast he hsame
  exact ⟨k', hlast.mem, hk', h.assigned k' hlast⟩

/-- What an effect overwrites is unknown if it is not pinned. -/
theorem eq_unknown_of_overwritten (h : CallEffect overwritten forgotten a b) {k : Entity}
    {v : PointsTo} (hentry : (k, v) ∈ b.entries) (hpinned : isPinned k = false) {e : Entity}
    (he : e ∈ overwritten) (hsame : e.same k = true) : v = .unknown := by
  obtain ⟨k', -, hkeys, hentry'⟩ := h.exists_entry he hsame
  obtain ⟨rfl, rfl⟩ := Prod.mk.inj (b.eq_of_same hentry hentry' hkeys)
  simp only [isPinned, Bool.or_eq_false_iff] at hpinned
  simp [assignedValue, hpinned.1]

/-- What is bound after an effect has been bound before, or it has been overwritten. -/
theorem contains_iff (h : CallEffect overwritten forgotten a b) (e : Entity) :
    b.contains e = true ↔ a.contains e = true ∨ ∃ k ∈ overwritten, k.same e = true := by
  constructor
  · intro he
    obtain ⟨k, hk, hsame⟩ := b.isSome_get?_iff.1 he
    rcases h.bound k hk with hnew | hold
    · exact .inr ⟨k, hnew, hsame⟩
    · exact .inl (a.isSome_get?_iff.2 ⟨k, hold, hsame⟩)
  · rintro (he | ⟨k, hk, hsame⟩)
    · exact h.contains e he
    · obtain ⟨k', -, hsame', hentry⟩ := h.exists_entry hk hsame
      exact b.isSome_get?_iff.2 ⟨k', List.mem_map_of_mem hentry, Key.same_symm hsame'⟩

/-- What is bound after an effect and is not the same as anything that has been overwritten is bound
under the key that it was bound under before. -/
theorem mem_keys_of_not_overwritten (h : CallEffect overwritten forgotten a b) {k : Entity}
    (hk : k ∈ a.keys) (hother : ∀ e ∈ overwritten, e.same k = false) :
    ∃ v, (k, v) ∈ b.entries := by
  have hcontains : b.contains k = true :=
    h.contains k (a.isSome_get?_iff.2 ⟨k, hk, Key.same_refl k⟩)
  obtain ⟨k', hk', hsame⟩ := b.isSome_get?_iff.1 hcontains
  obtain ⟨⟨_, v⟩, hentry, rfl⟩ := List.mem_map.1 hk'
  rcases h.bound _ hk' with hnew | hold
  · have hfalse := hother _ hnew
    rw [show Entity.same _ k = true from hsame] at hfalse
    cases hfalse
  · obtain ⟨x, hx, hxk⟩ := List.mem_map.1 hk
    obtain ⟨y, hy, hyk⟩ := List.mem_map.1 hold
    have hxy : x = y := a.eq_of_same hx hy (by rw [hxk, hyk]; exact Key.same_symm hsame)
    exact ⟨v, by rwa [← hxk, hxy, hyk]⟩

/-- Two effects in a row are an effect. -/
theorem trans (hab : CallEffect overwritten forgotten a b)
    (hbc : CallEffect overwritten' forgotten' b c) :
    CallEffect (overwritten ++ overwritten') (fun e => forgotten e ∨ forgotten' e) a c where
  bound k hk := by
    rcases hbc.bound k hk with hnew | hk
    · exact .inl (List.mem_append_right _ hnew)
    · exact (hab.bound k hk).imp_left (List.mem_append_left _)
  contains e he := hbc.contains e (hab.contains e he)
  assigned e he := by
    rcases he.of_append with he | ⟨he, hother⟩
    · exact hbc.assigned e he
    · have hentry := hab.assigned e he
      by_cases hkept : isPinned e = true ∨ ¬forgotten' e
      · exact hbc.kept e _ hentry hother hkept
      · -- The binding has been forgotten, and forgetting it does not change its value.
        obtain ⟨hpinned, hforgotten⟩ := not_or.1 hkept
        have hpinned := Bool.eq_false_iff.2 hpinned
        obtain ⟨v, hv⟩ := hbc.mem_keys_of_not_overwritten (List.mem_map_of_mem hentry) hother
        have hunknown := hbc.unknown e v hv hpinned (Classical.not_not.1 hforgotten)
        have hvalue := hab.eq_unknown_of_overwritten hentry hpinned he.mem (Key.same_refl e)
        rwa [hvalue, ← hunknown]
  unknown k v hentry hpinned hk := by
    by_cases hagain : forgotten' k
    · exact hbc.unknown k v hentry hpinned hagain
    · have hk := hk.resolve_right hagain
      by_cases hnew : ∃ e ∈ overwritten', e.same k = true
      · obtain ⟨e, he, hsame⟩ := hnew
        exact hbc.eq_unknown_of_overwritten hentry hpinned he hsame
      · have hother : ∀ e ∈ overwritten', e.same k = false := fun e he =>
          Bool.eq_false_iff.2 fun hsame => hnew ⟨e, he, hsame⟩
        have hkb : k ∈ b.keys := (hbc.bound k (List.mem_map_of_mem hentry)).resolve_left
          fun hk => hnew ⟨k, hk, Key.same_refl k⟩
        obtain ⟨⟨_, w⟩, hw, rfl⟩ := List.mem_map.1 hkb
        have hkept := hbc.kept _ w hw hother (.inr hagain)
        obtain ⟨-, rfl⟩ := Prod.mk.inj (c.eq_of_same hentry hkept (Key.same_refl _))
        exact hab.unknown _ _ hw hpinned hk
  kept k v hentry hother hkept := by
    obtain ⟨hfirst, hsecond⟩ := List.forall_mem_append.1 hother
    refine hbc.kept k v (hab.kept k v hentry hfirst ?_) hsecond ?_
    · exact hkept.imp_right fun hforgotten h => hforgotten (.inl h)
    · exact hkept.imp_right fun hforgotten h => hforgotten (.inr h)

/-- Forgetting storage. -/
theorem ofReset (condition : Entity → Bool) (a : PointsToState) :
    CallEffect [] (fun e => condition e = true) a
      (pointsToAnalysis.resetEntities condition a) where
  bound k hk := by
    refine .inr ?_
    obtain ⟨_, hx, rfl⟩ := List.mem_map.1 hk
    obtain ⟨y, hy, rfl⟩ := List.mem_map.1 hx
    show y.1 ∈ a.keys
    exact List.mem_map_of_mem hy
  contains e he := (Environment.isSome_get?_mapValues _ e).trans he
  assigned _ h := nomatch h.mem
  unknown k v hentry hpinned hk := by
    obtain ⟨y, -, hy⟩ := List.mem_map.1 hentry
    obtain ⟨rfl, rfl⟩ := Prod.mk.inj hy
    have hforget : (!pointsToAnalysis.isPinned y.1 && condition y.1) = true := by
      show (!isPinned y.1 && condition y.1) = true
      rw [hpinned, hk]
      rfl
    exact if_pos hforget
  kept k v hentry _ hkept := by
    refine List.mem_map.2 ⟨(k, v), hentry, ?_⟩
    have hkeep : ¬(!pointsToAnalysis.isPinned k && condition k) = true := by
      show ¬(!isPinned k && condition k) = true
      rcases hkept with hpinned | hcondition
      · simp [hpinned]
      · simp [hcondition]
    dsimp only
    rw [if_neg hkeep]

/-- Binding storage. -/
theorem ofInsert (e : Entity) (a : PointsToState) :
    CallEffect [e] (fun _ => False) a (a.insert e (assignedValue e .unknown)) where
  bound k hk := by
    obtain ⟨x, hx, rfl⟩ := List.mem_map.1 hk
    rcases Environment.mem_bind hx with rfl | hx
    · exact .inl (List.mem_singleton.2 rfl)
    · exact .inr (List.mem_map_of_mem hx)
  contains k hk := a.isSome_get?_insert e _ hk
  assigned k hk := by
    obtain rfl := Entity.comesLast_singleton.1 hk
    exact Environment.mem_bind_self k _ a.entries
  unknown _ _ _ _ h := h.elim
  kept k v hentry hother _ := Environment.mem_bind_of_other _ hentry (hother e List.mem_cons_self)

/-- Assigning an unknown value. -/
theorem ofWrite (e : Entity) (a : PointsToState) :
    CallEffect [e] (fun k => e.mayOverlap k = true ∨ e.isAncestorOf k = true) a
      (pointsToAnalysis.write e .unknown a) :=
  ((ofReset (fun k => e.mayOverlap k || e.isAncestorOf k) a).trans (ofInsert e _)).congr (by simp)

end CallEffect

namespace PointsToAnalysis

/-! ## Assignments of unknown values -/

section Assignments

variable (f : Frame PointsTo PointsToState)

/-- The state after an unknown value is assigned to an operation that is not a tuple. -/
def overwrite (data : PointsToState) (target : Operation) : PointsToState :=
  match pointsToAnalysis.denoted? f target with
  | some e => pointsToAnalysis.write e .unknown data
  | none => pointsToAnalysis.resetEntities
      (fun e => target.mayStandFor e || target.isIndexer && e.isHeapMember) data

/-- Some of the operations denotes the entity. -/
def Overwrites (targets : List Operation) (e : Entity) : Prop :=
  ∃ target ∈ targets, pointsToAnalysis.denoted? f target = some e

/-- The entities that the operations denote, in the order of the operations. -/
def overwrittenBy (targets : List Operation) : List Entity :=
  targets.filterMap (pointsToAnalysis.denoted? f)

theorem mem_overwrittenBy {targets : List Operation} {e : Entity} :
    e ∈ overwrittenBy f targets ↔ Overwrites f targets e :=
  List.mem_filterMap

/-- The entity may be the same storage as an entity that some of the operations denotes, or is part
of it, or some of the operations may stand for it and denotes nothing that is tracked. -/
def Disturbs (targets : List Operation) (k : Entity) : Prop :=
  (∃ e, Overwrites f targets e ∧ (e.mayOverlap k = true ∨ e.isAncestorOf k = true)) ∨
    ∃ target ∈ targets, pointsToAnalysis.denoted? f target = none ∧ target.mayStandFor k = true

/-- What an indexer stands for is not tracked. -/
theorem denoted?_of_isIndexer {target : Operation} (h : target.isIndexer = true) :
    pointsToAnalysis.denoted? f target = none := by
  obtain ⟨id, form, type?, constant?⟩ := target
  cases form with
  | propertyReference instance? property arguments =>
    cases arguments with
    | nil => cases h
    | cons argument arguments =>
      unfold Analysis.denoted?
      cases instance? <;> rw [Operation.denoted?] <;> simp
  | _ => cases h

/-- Some of the operations is an indexer, so that the heap is forgotten when it is assigned to. -/
def Indexes (targets : List Operation) : Prop := ∃ target ∈ targets, target.isIndexer = true

variable {f}

theorem resetEntities_false (data : PointsToState) :
    pointsToAnalysis.resetEntities (fun _ => false) data = data := by
  obtain ⟨entries, hdistinct⟩ := data
  have hentries : (entries.map fun x : Entity × PointsTo =>
      (x.1, if (!isPinned x.1 && false) = true then PointsTo.unknown else x.2)) = entries := by
    simp
  show Environment.mk _ _ = _
  congr 1

/-- An unknown value is assigned to an operation that is not a tuple in one step. -/
theorem assign_unknown_of_not_tuple {target : Operation}
    (h : ∀ elements, target.form ≠ .tuple elements) (data : PointsToState) :
    pointsToAnalysis.assign target .unknown { f with data } =
      { f with data := overwrite f data target } := by
  obtain ⟨id, form, type?, constant?⟩ := target
  have hdenoted : pointsToAnalysis.denoted? { f with data } ⟨id, form, type?, constant?⟩ =
      pointsToAnalysis.denoted? f ⟨id, form, type?, constant?⟩ := rfl
  unfold Analysis.assign overwrite
  rw [hdenoted]
  cases pointsToAnalysis.denoted? f ⟨id, form, type?, constant?⟩ with
  | some e => rfl
  | none =>
    cases form with
    | tuple elements => exact absurd rfl (h elements)
    | fieldReference | arrayElementReference =>
      simp [Operation.mayStandFor, Operation.isIndexer, Analysis.forgetMembers]
    | propertyReference instance? property arguments =>
      cases arguments with
      | nil => simp [Operation.mayStandFor, Operation.isIndexer, Analysis.forgetMembers]
      | cons => simp [Operation.mayStandFor, Operation.isIndexer, Analysis.resetHeap]
    | _ =>
      simp [Operation.mayStandFor, Operation.isIndexer, Analysis.forgetMembers,
        resetEntities_false]

theorem assignUnknown_eq {operations : List Operation}
    (h : ∀ operation ∈ operations, ∀ data,
      pointsToAnalysis.assign operation .unknown { f with data } =
        { f with data := operation.targets.foldl (overwrite f) data }) (data : PointsToState) :
    pointsToAnalysis.assignUnknown operations { f with data } =
      { f with data := (operations.flatMap Operation.targets).foldl (overwrite f) data } := by
  induction operations generalizing data with
  | nil => rfl
  | cons operation operations ih =>
    have hrest := ih fun other hother => h other (List.mem_cons_of_mem operation hother)
    show pointsToAnalysis.assignUnknown operations
      (pointsToAnalysis.assign operation .unknown { f with data }) = _
    rw [h operation List.mem_cons_self, hrest, List.flatMap_cons, List.foldl_append]

/-- An unknown value is assigned to each of the targets in turn. -/
theorem assign_unknown_eq (target : Operation) (data : PointsToState) :
    pointsToAnalysis.assign target .unknown { f with data } =
      { f with data := target.targets.foldl (overwrite f) data } := by
  induction target using Operation.induction_children generalizing data with
  | h target ih =>
    by_cases htuple : ∃ elements, target.form = .tuple elements
    · obtain ⟨elements, hform⟩ := htuple
      rw [Operation.targets_of_tuple hform]
      rw [Operation.children, hform] at ih
      obtain ⟨id, form, type?, constant?⟩ := target
      obtain rfl : form = .tuple elements := hform
      exact assignUnknown_eq ih data
    · have hform : ∀ elements, target.form ≠ .tuple elements := fun elements h =>
        htuple ⟨elements, h⟩
      rw [Operation.targets_of_not_tuple hform]
      exact assign_unknown_of_not_tuple hform data

/-- The step that overwrites one target. -/
theorem callEffect_overwrite (data : PointsToState) (target : Operation) :
    CallEffect (overwrittenBy f [target])
      (fun k => Disturbs f [target] k ∨ Indexes [target] ∧ k.isHeapMember = true)
      data (overwrite f data target) := by
  unfold overwrite
  cases hdenoted : pointsToAnalysis.denoted? f target with
  | some e =>
    have hlist : overwrittenBy f [target] = [e] := by simp [overwrittenBy, hdenoted]
    have hindexer : target.isIndexer = false :=
      Bool.eq_false_iff.2 fun h => by rw [denoted?_of_isIndexer f h] at hdenoted; cases hdenoted
    rw [hlist]
    refine (CallEffect.ofWrite e data).congr fun k => ?_
    simp [Disturbs, Overwrites, hdenoted, Indexes, hindexer]
  | none =>
    have hlist : overwrittenBy f [target] = [] := by simp [overwrittenBy, hdenoted]
    rw [hlist]
    refine (CallEffect.ofReset _ data).congr fun k => ?_
    simp [Disturbs, Overwrites, hdenoted, Indexes]

theorem overwrites_cons (target : Operation) (targets : List Operation) (e : Entity) :
    Overwrites f (target :: targets) e ↔ Overwrites f [target] e ∨ Overwrites f targets e := by
  simp [Overwrites]

theorem disturbs_cons (target : Operation) (targets : List Operation) (k : Entity) :
    Disturbs f (target :: targets) k ↔ Disturbs f [target] k ∨ Disturbs f targets k := by
  simp only [Disturbs, overwrites_cons target targets]
  grind

/-- The steps that overwrite one target after the other. -/
theorem callEffect_foldl (targets : List Operation) (data : PointsToState) :
    CallEffect (overwrittenBy f targets)
      (fun k => Disturbs f targets k ∨ Indexes targets ∧ k.isHeapMember = true)
      data (targets.foldl (overwrite f) data) := by
  induction targets generalizing data with
  | nil =>
    refine CallEffect.refl.congr fun k => ?_
    simp [Disturbs, Overwrites, Indexes]
  | cons target targets ih =>
    have hlist : overwrittenBy f (target :: targets) =
        overwrittenBy f [target] ++ overwrittenBy f targets :=
      List.filterMap_append (l := [target])
    rw [hlist]
    refine ((callEffect_overwrite data target).trans (ih _)).congr fun k => ?_
    simp only [disturbs_cons target targets, Indexes, List.exists_mem_cons_iff]
    grind

end Assignments

/-! ## Calls -/

section Calls

/-- The operations that a callee can assign to, each element of a tuple on its own. -/
def callTargets (arguments : List (Argument Operation)) : List Operation :=
  (Form.writableValues arguments).flatMap Operation.targets

/-- Forgetting comes first, and then the callee overwrites one target after the other. -/
theorem outcome_applyCall (arguments : List (Argument Operation)) (mayUpdateLocals : Bool)
    (m : Machine PointsTo PointsToState) :
    outcome (pointsToAnalysis.applyCall arguments mayUpdateLocals) m =
      ((), { m with
        data := (callTargets arguments).foldl (overwrite m.toFrame)
          ((if mayUpdateLocals then pointsToAnalysis.resetAll else pointsToAnalysis.resetHeap)
            m.data) }) := by
  have hassign : ∀ data, pointsToAnalysis.assignUnknown (Form.writableValues arguments)
      { m.toFrame with data } = { m.toFrame with
        data := (callTargets arguments).foldl (overwrite m.toFrame) data } :=
    assignUnknown_eq fun operation _ => assign_unknown_eq operation
  show ((), { m with
    toFrame := pointsToAnalysis.assignUnknown (Form.writableValues arguments)
      { m.toFrame with data := _ } }) = _
  rw [hassign]

/-- What a call overwrites and forgets, for callees of both kinds. -/
theorem callEffect_applyCall (arguments : List (Argument Operation)) (mayUpdateLocals : Bool)
    (m : Machine PointsTo PointsToState) :
    CallEffect (overwrittenBy m.toFrame (callTargets arguments))
      (fun k => (mayUpdateLocals = true ∨ k.isHeapMember = true) ∨
        Disturbs m.toFrame (callTargets arguments) k) m.data
      (outcome (pointsToAnalysis.applyCall arguments mayUpdateLocals) m).2.data := by
  rw [outcome_applyCall]
  have hforget : CallEffect []
      (fun k => (mayUpdateLocals || k.isHeapMember) = true) m.data
      ((if mayUpdateLocals then pointsToAnalysis.resetAll else pointsToAnalysis.resetHeap)
        m.data) := by
    cases mayUpdateLocals with
    | true => exact CallEffect.ofReset _ m.data
    | false => exact CallEffect.ofReset _ m.data
  refine (hforget.trans (callEffect_foldl (callTargets arguments) _)).congr fun k => ?_
  -- An indexer forgets nothing but the heap, which has been forgotten to begin with.
  simp only [Bool.or_eq_true]
  constructor
  · rintro (h | h | ⟨-, hheap⟩)
    · exact .inl h
    · exact .inr h
    · exact .inl (.inr hheap)
  · rintro (h | h)
    · exact .inl h
    · exact .inr (.inl h)

/-- **What a call of a method does.**  It changes nothing but the state.  All entities that an
argument denotes that the callee can write to are overwritten with unknown values, and these are
forgotten: members and elements of heap objects, static members, whatever may be the same storage as
an entity that is overwritten or is part of it, and the members or elements that an argument may
stand for that denotes nothing that is tracked.  All other storage keeps its value, and no storage
ceases to be bound. -/
theorem applyCall_effect (arguments : List (Argument Operation))
    (m : Machine PointsTo PointsToState) :
    let after := (outcome (pointsToAnalysis.applyCall arguments false) m).2
    after = { m with data := after.data } ∧
      CallEffect (overwrittenBy m.toFrame (callTargets arguments))
        (fun k => k.isHeapMember = true ∨ Disturbs m.toFrame (callTargets arguments) k)
        m.data after.data := by
  intro after
  refine ⟨?_, (callEffect_applyCall arguments false m).congr fun k => by simp⟩
  show (outcome (pointsToAnalysis.applyCall arguments false) m).2 =
    { m with data := (outcome (pointsToAnalysis.applyCall arguments false) m).2.data }
  rw [outcome_applyCall]

/-- The entry of a routine that has neither parameters nor a self instance. -/
def callerEntry : Machine PointsTo PointsToState :=
  .initial ⟨"", none, [], .void, ⟨[⟨⟨0⟩, [], none, []⟩], List.cons_ne_nil _ _⟩⟩

/-- The argument that lets a callee write to the capture, which is referred to with some type. -/
def capturedArgument (type : StaticType) : Argument Operation :=
  ⟨none, .byReference, ⟨⟨0⟩, .flowCaptureReference ⟨0⟩, some type, none⟩⟩

/-- **What storage is bound to does not follow from the type that one argument refers to it with.**
If a capture is passed as an object first and as a number later, it refers to no object after the
call, for an entity is the same under all its types. -/
theorem applyCall_counts_lastType :
    ¬∀ (arguments : List (Argument Operation)) (m : Machine PointsTo PointsToState) (e : Entity),
      Overwrites m.toFrame (callTargets arguments) e →
        (outcome (pointsToAnalysis.applyCall arguments false) m).2.data.get? e =
          some (assignedValue e .unknown) := by
  intro h
  have hdenoted : Overwrites callerEntry.toFrame
      (callTargets [capturedArgument (.reference "Node"), capturedArgument (.value "int")])
      (.ofCapture ⟨0⟩ (.reference "Node")) := ⟨_, List.mem_cons_self, by decide⟩
  exact absurd (h _ callerEntry _ hdenoted) (by decide)

end Calls

/-! ## Local variables -/

section Locals

/-- Storage of a local variable has the type of the variable. -/
def HasLocalType (e : Entity) : Prop :=
  ∀ {symbol}, e.place = .localVariable symbol → e.type = symbol.type

/-- The storage of all local variables that are bound has the type of the variable. -/
abbrev HasLocalTypes (state : PointsToState) : Prop := state.EachBinding fun e _ => HasLocalType e

/-- Only the reference to a local variable denotes it. -/
theorem eq_ofLocal_of_denoted? {f : Frame PointsTo PointsToState} {operation : Operation}
    {e : Entity} (h : pointsToAnalysis.denoted? f operation = some e) {symbol : Symbol}
    (hplace : e.place = .localVariable symbol) : e = .ofLocal symbol := by
  cases Operation.denotesBy_of_denoted? h with
  | localVariable other =>
    obtain rfl : other = symbol := Place.localVariable.inj hplace
    rfl
  | self hself =>
    obtain ⟨type, -, rfl⟩ := Option.map_eq_some_iff.1 hself
    cases hplace
  | owned hselected | part hselected =>
    rcases Operation.place_of_selected hselected with ⟨member, rfl, -⟩ | ⟨indices, rfl⟩ <;>
      cases hplace
  | _ => cases hplace

theorem hasLocalType_of_denoted? {f : Frame PointsTo PointsToState} {operation : Operation}
    {e : Entity} (h : pointsToAnalysis.denoted? f operation = some e) : HasLocalType e := by
  intro symbol hplace
  rw [eq_ofLocal_of_denoted? h hplace]
  rfl

/-- Storage that has the type of its local variable, whatever is evaluated. -/
def localTypes (routine : Routine) : Invariant PointsTo PointsToState where
  routine
  state := HasLocalTypes
  value _ := True
  values _ := True
  given _ _ := True
  entity := HasLocalType
  operation _ := True
  part _ _ _ := trivial
  value_of_given _ := trivial
  value_of_values _ _ := trivial
  insert _ _ := trivial

theorem hasLocalTypes_resetEntities {condition : Entity → Bool} {state : PointsToState}
    (h : HasLocalTypes state) :
    HasLocalTypes (pointsToAnalysis.resetEntities condition state) :=
  h.mapValues fun _ _ hk => hk

theorem mergeClosed_hasLocalType :
    Environment.MergeClosed (fun e (_ : PointsTo) => HasLocalType e) unobservedValue where
  landing {a b v w} ha hb hfamily := by
    rw [Entity.landing_eq]
    exact ha
  add ha _ _ := ha
  absent ha := ha

/-- The analysis binds local variables with their types. -/
theorem maintains_localTypes (routine : Routine) :
    pointsToAnalysis.Maintains (localTypes routine) where
  unknown := trivial
  mergeValue _ _ := trivial
  defaultValue _ _ := trivial
  creationValue _ _ _ := trivial
  invocationValue _ _ hf := ⟨trivial, hf.state⟩
  conversionValue _ _ _ _ := trivial
  finalValue _ _ _ := trivial
  assigned _ _ _ := trivial
  beforeStatement {f} hf := by
    show HasLocalTypes (bindSelf f.routine f.data)
    unfold bindSelf
    split
    · next self hself =>
      have hstate : HasLocalTypes f.data := hf.state
      refine hstate.insert fun {symbol} hplace => ?_
      obtain ⟨type, -, rfl⟩ := Option.map_eq_some_iff.1 hself
      cases hplace
    · exact hf.state
  denoted _ _ he := ⟨hasLocalType_of_denoted? he, trivial⟩
  declared _ _ := fun {symbol} hplace => by
    obtain rfl := Place.localVariable.inj hplace
    rfl
  result _ _ := fun {symbol} hplace => by cases hplace
  write he _ ha := (hasLocalTypes_resetEntities ha).insert he
  reset ha := hasLocalTypes_resetEntities ha
  merge ha hb := ha.mergeWith mergeClosed_hasLocalType hb

/-- The machine at the point of a call, after what is called, its instance and its arguments have
been evaluated. -/
def atCall (callee : Callee Operation) (instance? : Option Operation)
    (arguments : List (Argument Operation)) (m : Machine PointsTo PointsToState) :
    Machine PointsTo PointsToState :=
  (outcome (do
    pointsToAnalysis.evaluateCallee callee
    pointsToAnalysis.evaluateOption instance?
    pointsToAnalysis.evaluateArguments arguments) m).2

/-- The machine after a call. -/
def afterCall (operation : Operation) (callee : Callee Operation) (instance? : Option Operation)
    (arguments : List (Argument Operation)) (m : Machine PointsTo PointsToState) :
    Machine PointsTo PointsToState :=
  (outcome (pointsToAnalysis.evaluateForm operation (.invocation callee instance? arguments)) m).2

variable {callee : Callee Operation} {instance? : Option Operation}
variable {arguments : List (Argument Operation)} {m : Machine PointsTo PointsToState}

theorem hasLocalTypes_atCall (h : HasLocalTypes m.data) :
    HasLocalTypes (atCall callee instance? arguments m).data := by
  let L := (localTypes m.routine).logic
  have hevaluate : ∀ operation, L.AcceptsAt pointsToAnalysis operation := fun operation =>
    Analysis.preserves_evaluate (maintains_localTypes m.routine) trivial
  have hrun : L.Runs (do
      pointsToAnalysis.evaluateCallee callee
      pointsToAnalysis.evaluateOption instance?
      pointsToAnalysis.evaluateArguments arguments) :=
    L.bind (Logic.runs_evaluateCallee fun part _ => hevaluate part) fun _ _ =>
      L.bind (Logic.runs_evaluateOption fun part _ => hevaluate part) fun _ _ =>
        Logic.runs_evaluateArguments fun part _ => hevaluate part
  exact (hrun m ⟨rfl, h, trivial⟩).2.state

theorem afterCall_eq (operation : Operation) :
    afterCall operation callee instance? arguments m =
      (outcome (pointsToAnalysis.applyCall arguments callee.mayUpdateLocals)
        (atCall callee instance? arguments m)).2 := by
  unfold afterCall
  rw [Analysis.evaluateForm]
  rfl

theorem hasLocalTypes_afterCall (operation : Operation) (h : HasLocalTypes m.data) :
    HasLocalTypes (afterCall operation callee instance? arguments m).data := by
  have heffect := callEffect_applyCall arguments callee.mayUpdateLocals
    (atCall callee instance? arguments m)
  rw [← afterCall_eq operation] at heffect
  intro x hx
  rcases heffect.bound x.1 (List.mem_map_of_mem hx) with hnew | hold
  · obtain ⟨target, -, hdenoted⟩ := (mem_overwrittenBy _).1 hnew
    exact hasLocalType_of_denoted? hdenoted
  · obtain ⟨y, hy, hyx⟩ := List.mem_map.1 hold
    rw [← hyx]
    exact hasLocalTypes_atCall h y hy

/-- A local variable is undefined where it is not bound. -/
theorem read_local {state : PointsToState} {symbol : Symbol}
    (htype : symbol.type.isCopied = false) :
    pointsToAnalysis.read state (.ofLocal symbol) =
      (state.get? (.ofLocal symbol)).getD .undefined := by
  have hcopied : (Entity.ofLocal symbol).isCopied = false := htype
  rw [read_eq, defaultEntityValue, hcopied]
  rfl

/-- **What is known of a local variable after a call of a local function or a delegate.**  A
variable whose data is not copied is unknown if it has been bound by the time of the call, or if an
argument denotes it that the callee can write to.  Otherwise it is still undefined. -/
theorem read_local_after_call (operation : Operation) {symbol : Symbol}
    (hcallee : callee.mayUpdateLocals = true) (htype : symbol.type.isCopied = false)
    (hstate : HasLocalTypes m.data) :
    let called := atCall callee instance? arguments m
    let after := afterCall operation callee instance? arguments m
    (pointsToAnalysis.read after.data (.ofLocal symbol) = .unknown ↔
      called.data.contains (.ofLocal symbol) = true ∨
        Overwrites called.toFrame (callTargets arguments) (.ofLocal symbol)) ∧
    (pointsToAnalysis.read after.data (.ofLocal symbol) ≠ .unknown →
      pointsToAnalysis.read after.data (.ofLocal symbol) = .undefined) := by
  intro called after
  have heffect : CallEffect (overwrittenBy called.toFrame (callTargets arguments))
      (fun _ => True) called.data after.data := by
    have h := callEffect_applyCall arguments callee.mayUpdateLocals called
    rw [← afterCall_eq operation] at h
    exact h.congr fun k => by simp [hcallee]
  have hbound : after.data.contains (.ofLocal symbol) = true ↔
      called.data.contains (.ofLocal symbol) = true ∨
        Overwrites called.toFrame (callTargets arguments) (.ofLocal symbol) := by
    have hself : (Entity.ofLocal symbol).same (.ofLocal symbol) = true :=
      Key.same_refl (Entity.ofLocal symbol)
    refine (heffect.contains_iff _).trans (or_congr_right
      ⟨?_, fun h => ⟨_, (mem_overwrittenBy _).2 h, hself⟩⟩)
    rintro ⟨k, hk, hsame⟩
    obtain ⟨target, htarget, hdenoted⟩ := (mem_overwrittenBy _).1 hk
    rw [eq_ofLocal_of_denoted? hdenoted (Entity.same_iff.1 hsame).1] at hdenoted
    exact ⟨target, htarget, hdenoted⟩
  rw [← hbound, read_local htype, Environment.contains]
  cases hget : after.data.get? (.ofLocal symbol) with
  | none => simp
  | some v =>
    -- A stored key of the variable has the type of the variable, so that it is not pinned.
    obtain ⟨k, hsame, hentry⟩ := after.data.get?_eq_some_iff.1 hget
    have hplace : k.place = .localVariable symbol := (Entity.same_iff.1 hsame).1
    have hktype : k.type = symbol.type :=
      hasLocalTypes_afterCall operation hstate (k, v) hentry hplace
    have hpinned : isPinned k = false := by
      simp [isPinned, Entity.isCopied, Entity.isSelf, hktype, htype, hplace]
    have hunknown := heffect.unknown k v hentry hpinned trivial
    simp [hunknown]

/-! ## A variable that is not assigned before the call -/

/-- A local variable. -/
def capturedVariable : Symbol := .localVariable ⟨1⟩ "x" (.reference "A")

/-- A local function that may assign to the variables of the routine. -/
def callback : Callee Operation := .localFunction ⟨⟨2⟩, "Callback", .localFunction, .void⟩

/-- The call of the local function with some arguments. -/
def callbackCall (arguments : List (Argument Operation)) : Operation :=
  .ofForm ⟨1⟩ (.invocation callback none arguments)

/-- The argument that lets a callee write to the local variable. -/
def outputArgument : Argument Operation :=
  ⟨none, .output, .ofForm ⟨0⟩ (.localReference capturedVariable)⟩

/-- The local variable is unknown after a call that it is passed to, and undefined after one that it
is not passed to. -/
theorem read_capturedVariable :
    callback.mayUpdateLocals = true ∧ capturedVariable.type.isCopied = false ∧
      HasLocalTypes callerEntry.data ∧
      pointsToAnalysis.read (afterCall (callbackCall [outputArgument]) callback none
        [outputArgument] callerEntry).data (.ofLocal capturedVariable) = .unknown ∧
      pointsToAnalysis.read (afterCall (callbackCall []) callback none [] callerEntry).data
        (.ofLocal capturedVariable) = .undefined := by
  have hstate : HasLocalTypes callerEntry.data := Environment.eachBinding_empty
  have hpassed := @read_local_after_call callback none [outputArgument] callerEntry
    (callbackCall [outputArgument]) capturedVariable rfl rfl hstate
  have hunpassed := @read_local_after_call callback none [] callerEntry (callbackCall [])
    capturedVariable rfl rfl hstate
  have htarget : outputArgument.value ∈ callTargets [outputArgument] := List.mem_cons_self
  exact ⟨rfl, rfl, hstate, hpassed.1.2 (.inr ⟨_, htarget, by decide⟩), hunpassed.2 (by decide)⟩

/-- **A call does not forget all local variables.**  A variable that has not been assigned stays
undefined after the call of a local function that may have assigned it. -/
theorem call_keeps_unbound_local :
    ¬∀ (operation : Operation) (callee : Callee Operation) (instance? : Option Operation)
        (arguments : List (Argument Operation)) (m : Machine PointsTo PointsToState)
        (symbol : Symbol), callee.mayUpdateLocals = true → symbol.type.isCopied = false →
      HasLocalTypes m.data →
        pointsToAnalysis.read (afterCall operation callee instance? arguments m).data
          (.ofLocal symbol) = .unknown := by
  intro h
  have hread := h (callbackCall []) callback none [] callerEntry capturedVariable rfl rfl
    Environment.eachBinding_empty
  exact absurd hread (by decide)

end Locals
end PointsToAnalysis
end HeapFlow
