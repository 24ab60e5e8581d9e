import HeapFlow.Proofs.Client.CopiedStorage
import HeapFlow.Proofs.Environment.MergeBounds
import HeapFlow.Proofs.Interpreter.Fork
import HeapFlow.Proofs.Solver.Evaluations

/-! # Effects within alternatives are weak

Control takes one of two paths through a conditional, a coalescing operation or a short-circuit
operator.  What is known afterwards should be no more precise than what is known at the end of
either path.

For values this is so.  For states there is an exception (`PointsToAnalysis.Loses`): storage that
was not observed on one of the paths may be anything there, unless its data is copied, as it refers
to nothing then.  Whether it is copied is up to the type of the storage, and storage of several
owners has the type of one of them, although it may be bound to what the others refer to.  Such a
binding is lost where the paths meet, and all others are covered
(`Routine.alternatives_covered_iff`).  Nothing is lost if the references of the body agree on which
storage is copied whatever the owners are.

It does not suffice that they agree for each owner: the elements of two arrays may have different
types, and be covered by one key nevertheless (`Routine.mixedElements_lost`).
-/
namespace HeapFlow

/-- True for values that say that there may be something to refer to. -/
def PointsTo.isReference : PointsTo → Bool
  | .known _ | .unknown => true
  | .undefined | .noLocation => false

namespace PointsToAnalysis

/-- The state binds storage that differs from the given storage at most in the owner, and whose
owner is covered. -/
def Observes (state : PointsToState) (e : Entity) : Prop :=
  ∃ y ∈ state.entries, e.family = y.1.family ∧ e.owner.cover y.1.owner = e.owner

/-- Storage of copied data that refers to something in a state is not observed by another one. -/
def Loses (state other : PointsToState) : Prop :=
  ∃ x ∈ state.entries, x.1.isCopied = true ∧ x.2.isReference = true ∧ ¬Observes other x.1

instance (state : PointsToState) (e : Entity) : Decidable (Observes state e) :=
  inferInstanceAs (Decidable (∃ y ∈ state.entries, _))

instance (state other : PointsToState) : Decidable (Loses state other) :=
  inferInstanceAs (Decidable (∃ x ∈ state.entries, _))

/-- The value of storage that was not observed covers all values, but for those of storage of copied
data that refer to something. -/
theorem unobserved_covers_iff {e : Entity} {value : PointsTo} (hvalue : value.WellFormed) :
    (AbstractValue.isBottom value = true ∨
      AbstractValue.subset value (unobservedValue e value) = true) ↔
        ¬(e.isCopied = true ∧ value.isReference = true) := by
  unfold unobservedValue assignedValue
  by_cases hcopied : e.isCopied = true
  · rw [if_pos hcopied]
    cases value <;> simp [hcopied, AbstractValue.isBottom, AbstractValue.subset,
      AbstractValue.merge, AbstractValue.bottom, PointsTo.merge, PointsTo.isReference]
  · rw [if_neg hcopied, PointsTo.merge_unknown]
    exact iff_of_true (.inr (PointsTo.joinOn_wellFormed.subset_unknown hvalue))
      fun h => hcopied h.1

theorem observes_iff_left {state : PointsToState} {e : Entity} :
    (∃ y ∈ state.entries, InstanceKey.sameFamily e y.1 = true ∧
      Key.same (Environment.landing e y.1) e = true) ↔ Observes state e := by
  refine exists_congr fun y => and_congr_right fun _ => ?_
  refine and_congr (decide_eq_true_iff (p := e.family = y.1.family)) ?_
  exact Entity.same_landing_iff.trans (and_iff_right rfl)

theorem observes_iff_right {state : PointsToState} {e : Entity} :
    (∃ x ∈ state.entries, InstanceKey.sameFamily x.1 e = true ∧
      Key.same (Environment.landing x.1 e) e = true) ↔ Observes state e := by
  rw [← observes_iff_left]
  refine exists_congr fun x => and_congr_right fun _ => ?_
  have hswap : ∀ {a b k : Entity}, InstanceKey.sameFamily a b = true ∧
      Key.same (Environment.landing a b) k = true → InstanceKey.sameFamily b a = true ∧
        Key.same (Environment.landing b a) k = true := fun h =>
    have hcomm := Entity.landing_comm h.1
    ⟨hcomm.1, Key.same_trans hcomm.2 h.2⟩
  exact ⟨hswap, hswap⟩

/-- Nothing is lost if all bindings are covered by the value of storage that was not observed, or
observed. -/
theorem not_loses_iff {state other : PointsToState} (hstate : state.AllValid PointsTo.WellFormed) :
    ¬Loses state other ↔ ∀ x ∈ state.entries, AbstractValue.isBottom x.2 = true ∨
      AbstractValue.subset x.2 (unobservedValue x.1 x.2) = true ∨ Observes other x.1 := by
  unfold Loses
  push Not
  refine forall₂_congr fun x hx => ?_
  have hvalue : x.2.WellFormed := hstate _ _ (state.get?_eq_some_of_mem hx)
  rw [← or_assoc, unobserved_covers_iff hvalue, or_iff_not_imp_left, not_not, and_imp]

section Merge

variable {a b : PointsToState} (ha : a.AllValid PointsTo.WellFormed)
  (hb : b.AllValid PointsTo.WellFormed)
include ha hb

theorem isSubsetOf_mergeData_left_iff :
    a.isSubsetOf (mergeData a b) = true ↔ ¬Loses a b := by
  have hkeys : InstanceKey.JoinOn fun _ : Entity => True :=
    Entity.joinOn_keys fun _ _ _ _ _ => trivial
  rw [mergeData, Environment.isSubsetOf_mergeWith_left_iff hkeys ⟨fun _ _ => trivial, ha⟩
    ⟨fun _ _ => trivial, hb⟩ PointsTo.joinOn_wellFormed
    fun e v _ => wellFormed_unobservedValue e v]
  simp only [observes_iff_left]
  exact (not_loses_iff ha).symm

theorem isSubsetOf_mergeData_right_iff :
    b.isSubsetOf (mergeData a b) = true ↔ ¬Loses b a := by
  have hkeys : InstanceKey.JoinOn fun _ : Entity => True :=
    Entity.joinOn_keys fun _ _ _ _ _ => trivial
  rw [mergeData, Environment.isSubsetOf_mergeWith_right_iff hkeys ⟨fun _ _ => trivial, ha⟩
    ⟨fun _ _ => trivial, hb⟩ PointsTo.joinOn_wellFormed
    fun e v _ => wellFormed_unobservedValue e v]
  simp only [observes_iff_right]
  exact (not_loses_iff hb).symm

end Merge
end PointsToAnalysis

namespace Routine

open PointsToAnalysis

variable {routine : Routine}

/-- Nothing is lost between states that bind copied storage to nothing. -/
theorem Bindings.not_loses {state other : PointsToState} (h : routine.Bindings state)
    (hother : routine.Bindings other) : ¬Loses state other := by
  rintro ⟨x, hx, hcopied, hreference, hunobserved⟩
  have hbinds := h.each x hx
  by_cases hplace : x.1.place = .self
  · -- The self instance is bound in both states.
    have hbound := hother.contains (hbinds.stores.self hplace)
    obtain ⟨v, hv⟩ := Option.isSome_iff_exists.1 hbound
    obtain ⟨e, hsame, hmem⟩ := other.get?_eq_some_iff.1 hv
    obtain ⟨hfamily, howner⟩ := Entity.same_iff_family.1 (Key.same_symm hsame)
    refine hunobserved ⟨(e, v), hmem, hfamily, ?_⟩
    rw [← howner, PointsTo.cover_self]
  · rw [hbinds.eq_noLocation hcopied hplace] at hreference
    cases hreference

theorem wellFormed_of_admitted {state : PointsToState} (h : routine.admitted.state state) :
    state.AllValid PointsTo.WellFormed := fun _ _ hv =>
  have ⟨_, _, hbinding⟩ := Environment.EachBinding.exists_key h hv
  hbinding.obtains.wellFormed

variable {options : Options} {operation : Operation} {m : Machine PointsTo PointsToState}
  {fork : Analysis.Fork PointsTo PointsToState}

/-- **Effects within alternatives are weak.**  Let an operation be evaluated while a routine is
analysed, through which there are two paths.  The state afterwards is no more precise than the
state at the end of a path exactly if the other path does not lose anything that it binds.  This
is so on both paths if the references of the body agree on which storage is copied.  The value of
the operation is no more precise than the values at the ends of both paths, if it is the value of
one of them, and unless it is a constant or of a value type. -/
theorem alternatives_covered_iff
    (hinterprets : pointsToAnalysis.Interprets routine options (operation, m))
    (hfork : pointsToAnalysis.fork? operation m = some fork) :
    let after := outcome (pointsToAnalysis.evaluate operation) m
    (fork.first.data.isSubsetOf after.2.data = true ↔
      ¬Loses fork.first.data fork.second.data) ∧
    (fork.second.data.isSubsetOf after.2.data = true ↔
      ¬Loses fork.second.data fork.first.data) ∧
    (routine.HasConsistentTypes → fork.first.data.isSubsetOf after.2.data = true ∧
      fork.second.data.isSubsetOf after.2.data = true) ∧
    ∀ v w, fork.values? = some (v, w) → hasNoLocation operation = false →
      AbstractValue.subset v after.1 = true ∧ AbstractValue.subset w after.1 = true := by
  intro after
  have hadmitted := routine.upholds_admitted
  obtain ⟨hoperation, hm⟩ := Analysis.holds_interprets hadmitted hinterprets
  obtain ⟨hfirst, hsecond, hvalues⟩ :=
    Analysis.holds_of_fork hadmitted.maintains hoperation hm hfork
  have hdata : after.2.data = mergeData fork.first.data fork.second.data :=
    Analysis.data_evaluate_of_fork hfork
  have hleft := isSubsetOf_mergeData_left_iff (wellFormed_of_admitted hfirst.state)
    (wellFormed_of_admitted hsecond.state)
  have hright := isSubsetOf_mergeData_right_iff (wellFormed_of_admitted hfirst.state)
    (wellFormed_of_admitted hsecond.state)
  rw [← hdata] at hleft hright
  refine ⟨hleft, hright, fun htypes => ?_, fun v w hfork' hlocation => ?_⟩
  · have hupheld := upholds_bindings htypes
    obtain ⟨hoperation, hm⟩ := Analysis.holds_interprets hupheld hinterprets
    obtain ⟨hfirst, hsecond, -⟩ :=
      Analysis.holds_of_fork hupheld.maintains hoperation hm hfork
    exact ⟨hleft.2 (hfirst.state.not_loses hsecond.state),
      hright.2 (hsecond.state.not_loses hfirst.state)⟩
  · obtain ⟨f, hvalue⟩ := Analysis.value_evaluate_of_fork hfork hfork'
    have hmerged : after.1 = v.merge w := by
      refine hvalue.trans ?_
      show (if hasNoLocation operation then _ else _) = _
      rw [hlocation, if_neg Bool.false_ne_true]
      rfl
    obtain ⟨hv, hw⟩ := hvalues v w hfork'
    rw [hmerged]
    exact ⟨PointsTo.joinOn_wellFormed.subset_merge_left hv.wellFormed hw.wellFormed,
      PointsTo.joinOn_wellFormed.subset_merge_right hv.wellFormed hw.wellFormed⟩

/-! ## An assignment that may be left out -/

/-- A variable that refers to an object. -/
def chosenVariable : Symbol := .localVariable ⟨1⟩ "chosen" (.reference "Node")

/-- An assignment of a new object to the variable. -/
def chosenAssignment (id created : UInt32) : Operation :=
  .ofForm ⟨id⟩ (.simpleAssignment (.ofForm ⟨id + 1⟩ (.localReference chosenVariable))
    (.ofForm ⟨created⟩ (.objectCreation none [] none)))

/-- An assignment that is only evaluated if a condition holds. -/
def guardedAssignment : Operation :=
  .ofForm ⟨6⟩ (.conditional (.ofForm ⟨7⟩ .literal) (chosenAssignment 4 3) none)

/-- A routine that assigns an object to the variable and then another one under a condition. -/
def guardedRoutine : Routine where
  name := ""
  containingType? := none
  parameters := []
  returnType := .void
  graph := ⟨[⟨⟨0⟩, [chosenAssignment 1 0, guardedAssignment], none, []⟩], by simp⟩

/-- What the variable refers to afterwards covers the object that it referred to before and the one
that it may have been assigned. -/
theorem guardedAssignment_covered :
    ∃ m fork, pointsToAnalysis.Interprets guardedRoutine {} (guardedAssignment, m) ∧
      pointsToAnalysis.fork? guardedAssignment m = some fork ∧
      fork.first.data.get? (.ofLocal chosenVariable) =
        some (.ofLocation (.creation ⟨3⟩ .unknown)) ∧
      fork.second.data.get? (.ofLocal chosenVariable) =
        some (.ofLocation (.creation ⟨0⟩ .unknown)) ∧
      fork.first.data.isSubsetOf
        (outcome (pointsToAnalysis.evaluate guardedAssignment) m).2.data = true ∧
      fork.second.data.isSubsetOf
        (outcome (pointsToAnalysis.evaluate guardedAssignment) m).2.data = true := by
  have htaken : pointsToAnalysis.taken? guardedRoutine {} 0 = some 0 := by decide +kernel
  have hstart : ∀ m, (guardedAssignment, m) ∈ pointsToAnalysis.statementStarts
      [chosenAssignment 1 0, guardedAssignment]
        (pointsToAnalysis.blockStart guardedRoutine {} 0 ⟨0⟩) →
      pointsToAnalysis.Interprets guardedRoutine {} (guardedAssignment, m) := fun m hm =>
    .intro htaken rfl rfl (by decide +kernel) hm .refl
  have hinterprets := hstart _ (List.mem_cons_of_mem _ List.mem_cons_self)
  have hcovered := alternatives_covered_iff hinterprets rfl
  exact ⟨_, _, hinterprets, rfl, by decide +kernel, by decide +kernel,
    hcovered.1.2 (by decide +kernel), hcovered.2.1.2 (by decide +kernel)⟩

/-! ## Elements of arrays of different types -/

variable (routine : Routine) (options : Options)

/-- While the routine is analysed, some operation of its body denotes the entity, in a frame that is
there before or after the evaluation of an operation. -/
def DenotesAtTimes (e : Entity) : Prop :=
  ∃ part, pointsToAnalysis.Interprets routine options part ∧
    ∃ m ∈ [part.2, (outcome (pointsToAnalysis.evaluate part.1) part.2).2],
      ∃ operation ∈ routine.nodes, pointsToAnalysis.denoted? m.toFrame operation = some e

/-- All references to a storage location carry the same static type, where locations are told apart
by what their owners refer to when the references are evaluated.  `HasConsistentTypes` only asks
whether data is copied, but does so for all owners at once. -/
def HasTypedLocations : Prop :=
  ∀ e e', routine.DenotesAtTimes options e → routine.DenotesAtTimes options e' →
    e.same e' = true → e.type = e'.type

section Denoted

variable {routine options} {e e' : Entity}

theorem DenotesAtTimes.tracks (htypes : routine.HasConsistentTypes)
    (h : routine.DenotesAtTimes options e) : routine.Tracks e := by
  obtain ⟨part, hinterprets, m, hm, operation, hoperation, hdenoted⟩ := h
  have hupheld := upholds_bindings htypes
  obtain ⟨hpart, hbefore⟩ := Analysis.holds_interprets hupheld hinterprets
  have hafter := (Analysis.preserves_evaluate hupheld.maintains hpart part.2 hbefore).2
  have hholds : routine.bindings.Holds m.toFrame := by
    rcases List.mem_cons.1 hm with rfl | hm
    · exact hbefore
    · obtain rfl := List.mem_singleton.1 hm
      exact hafter
  exact (stores_of_denoted? hholds.routine hoperation hholds.values hdenoted).tracks

/-- With consistent types, the references of a family agree on whether data is copied. -/
theorem HasConsistentTypes.isCopied_eq (htypes : routine.HasConsistentTypes)
    (he : routine.DenotesAtTimes options e) (he' : routine.DenotesAtTimes options e')
    (hfamily : e.family = e'.family) : e.isCopied = e'.isCopied :=
  (he.tracks htypes).isCopied_eq_of_family htypes (he'.tracks htypes) hfamily

/-- With typed locations, the references to one location agree on whether data is copied. -/
theorem HasTypedLocations.isCopied_eq (htypes : routine.HasTypedLocations options)
    (he : routine.DenotesAtTimes options e) (he' : routine.DenotesAtTimes options e')
    (hsame : e.same e' = true) : e.isCopied = e'.isCopied := by
  unfold Entity.isCopied
  rw [htypes e e' he he' hsame]

end Denoted

/-- An operation of the given type. -/
def typedOperation (id : UInt32) (type : StaticType) (form : Form Operation) : Operation :=
  ⟨⟨id⟩, form, some type, none⟩

/-- A constant of the given type. -/
def typedConstant (id : UInt32) (type : StaticType) (constant : Constant) : Operation :=
  ⟨⟨id⟩, .literal, some type, some constant⟩

/-- A variable that refers to an array of objects. -/
def objectArray : Symbol := .localVariable ⟨1⟩ "objects" (.reference "Node[]")

/-- A variable that refers to an array of numbers. -/
def numberArray : Symbol := .localVariable ⟨2⟩ "numbers" (.reference "int[]")

/-- A declaration of the variable that creates the array. -/
def arrayDeclaration (id created : UInt32) (array : Symbol) : Operation :=
  typedOperation id array.type (.variableDeclarator array
    (some (typedOperation created array.type (.arrayCreation [] none))))

/-- An assignment to the first element of the array. -/
def elementAssignment (id : UInt32) (array : Symbol) (type : StaticType) (assigned : Operation) :
    Operation :=
  typedOperation id type (.simpleAssignment
    (typedOperation (id + 1) type (.arrayElementReference
      (typedOperation (id + 2) array.type (.localReference array))
      [typedConstant (id + 3) (.value "int") (.int 0)])) assigned)

/-- A choice between two operations. -/
def choice (id : UInt32) (whenTrue whenFalse : Operation) : Operation :=
  typedOperation id (.reference "Node") (.conditional
    (typedOperation (id + 1) (.value "bool") .literal) whenTrue (some whenFalse))

/-- An assignment to an element of either array.  Where its alternatives meet, an element of either
array is bound to nothing, and has the type of numbers. -/
def eitherElement : Operation :=
  choice 10
    (elementAssignment 20 numberArray (.value "int") (typedConstant 24 (.value "int") (.int 5)))
    (elementAssignment 30 objectArray (.reference "Node")
      (typedConstant 34 (.reference "Node") .null))

/-- That assignment, or one of an object.  Where its alternatives meet, an element of either array
may refer to anything, and still has the type of numbers. -/
def eitherOrObject : Operation :=
  choice 40 eitherElement (elementAssignment 50 objectArray (.reference "Node")
    (typedOperation 54 (.reference "Node") (.objectCreation none [] none)))

/-- A choice one of whose alternatives has these effects. -/
def outerChoice : Operation :=
  choice 60 eitherOrObject (typedOperation 62 (.reference "Node") .literal)

/-- A routine that creates both arrays and makes the choice. -/
def mixedRoutine : Routine where
  name := ""
  containingType? := none
  parameters := []
  returnType := .void
  graph := ⟨[⟨⟨0⟩, [arrayDeclaration 3 1 objectArray, arrayDeclaration 4 2 numberArray,
    outerChoice], none, []⟩], by simp⟩

/-- The evaluations of the statements of the routine. -/
def mixedStarts : List (Operation × Machine PointsTo PointsToState) :=
  pointsToAnalysis.statementStarts [arrayDeclaration 3 1 objectArray,
    arrayDeclaration 4 2 numberArray, outerChoice]
      (pointsToAnalysis.blockStart mixedRoutine {} 0 ⟨0⟩)

/-- The storage that comes up: the two variables and an element of each array. -/
def mixedStorage : List Entity :=
  [.ofLocal objectArray, .ofLocal numberArray,
    .ofStorage ⟨.element [.constant 0], .reference "Node",
      .ofLocation (.creation ⟨1⟩ (.reference "Node[]"))⟩,
    .ofStorage ⟨.element [.constant 0], .value "int",
      .ofLocation (.creation ⟨2⟩ (.reference "int[]"))⟩]

theorem mem_mixedStorage {e : Entity} (h : mixedRoutine.DenotesAtTimes {} e) :
    e ∈ mixedStorage := by
  obtain ⟨part, hinterprets, m, hm, operation, hoperation, hdenoted⟩ := h
  obtain ⟨start, hstart, hpart⟩ := Analysis.mem_evaluationsFrom_of_interprets
    (by decide +kernel) hinterprets rfl
  have hall : ∀ start ∈ mixedStarts,
      ∀ part ∈ pointsToAnalysis.evaluationsFrom start.1.performed.length start,
        ∀ m ∈ [part.2, (outcome (pointsToAnalysis.evaluate part.1) part.2).2],
          ∀ operation ∈ mixedRoutine.nodes,
            ∀ e ∈ pointsToAnalysis.denoted? m.toFrame operation, e ∈ mixedStorage := by
    decide +kernel
  exact hall start hstart part hpart m hm operation hoperation e hdenoted

theorem mixedRoutine_hasTypedLocations : mixedRoutine.HasTypedLocations {} := by
  have hall : ∀ e ∈ mixedStorage, ∀ e' ∈ mixedStorage, e.same e' = true → e.type = e'.type := by
    decide
  exact fun e e' he he' => hall e (mem_mixedStorage he) e' (mem_mixedStorage he')

/-- Locations may be typed without the types being consistent: the elements of the two arrays are of
one family. -/
theorem mixedRoutine_not_hasConsistentTypes : ¬mixedRoutine.HasConsistentTypes := by
  intro h
  let ownerOf : Operation → PointsTo := fun _ => .ofLocation (.creation ⟨1⟩ (.reference "Node[]"))
  have hall : ∀ reference ∈ mixedRoutine.nodes, ∀ reference' ∈ mixedRoutine.nodes,
      ∀ e ∈ reference.denoted? mixedRoutine.self? ownerOf,
        ∀ e' ∈ reference'.denoted? mixedRoutine.self? ownerOf,
          e.same e' = true → e.isCopied = e'.isCopied :=
    fun reference hmem reference' hmem' e he e' he' =>
      h reference hmem reference' hmem' ownerOf ownerOf e e' he he'
  exact absurd hall (by decide +kernel)

/-- **A merge of states may lose a binding.**  All references to a storage location carry the same
type in a routine that assigns to the elements of an array of objects or of an array of numbers, but
the state after a choice is more precise than the state at the end of its first alternative. -/
theorem mixedElements_lost :
    ¬∀ (routine : Routine) (options : Options), routine.HasTypedLocations options →
      ∀ operation m fork, pointsToAnalysis.Interprets routine options (operation, m) →
        pointsToAnalysis.fork? operation m = some fork →
          fork.first.data.isSubsetOf (outcome (pointsToAnalysis.evaluate operation) m).2.data =
              true ∧
            fork.second.data.isSubsetOf (outcome (pointsToAnalysis.evaluate operation) m).2.data =
              true := by
  intro h
  have htaken : pointsToAnalysis.taken? mixedRoutine {} 0 = some 0 := by decide +kernel
  have hstart : ∀ m, (outerChoice, m) ∈ mixedStarts →
      pointsToAnalysis.Interprets mixedRoutine {} (outerChoice, m) := fun m hm =>
    .intro htaken rfl rfl (by decide +kernel) hm .refl
  have hinterprets := hstart _
    (List.mem_cons_of_mem _ (List.mem_cons_of_mem _ List.mem_cons_self))
  have hcovered := (h mixedRoutine {} mixedRoutine_hasTypedLocations _ _ _ hinterprets rfl).1
  exact absurd hcovered (by decide +kernel)

end Routine

end HeapFlow
