import HeapFlow.Proofs.Client.JoinedReads
import HeapFlow.Proofs.Client.SelfInstance

/-! # Members of the self instance

A member of the self instance is accessed in one of two ways: without an instance, or by way of the
self reference.  Without an instance the member belongs to the object that the self instance is.  By
way of the self reference it belongs to the objects that the self reference has been found to refer
to, or, if the data of the self instance is copied, it is part of the storage of the self instance.

So the two ways lead to one entity exactly if the data of the self instance is not copied and the
self reference has the value that the self instance has throughout the routine
(`Routine.selfMember_agrees_iff`).  If the data is copied, then the two entities have nothing to do
with each other: a write to one of them leaves the other one as it is
(`Routine.selfMember_apart_of_isCopied`).
-/
namespace HeapFlow

/-- The operation selects a member from an instance, or accesses it without one: a field, or a
property without arguments. -/
def Operation.Selects (instance? : Option Operation) (member : Symbol) (operation : Operation) :
    Prop :=
  operation.form = .fieldReference instance? member ∨
    operation.form = .propertyReference instance? member []

namespace PointsToAnalysis

/-- A write leaves other storage as it is that neither may be the same nor is part of what is
written. -/
theorem read_write_of_apart {e other : Entity} (hother : e.same other = false)
    (hoverlap : e.mayOverlap other = false) (hancestor : e.isAncestorOf other = false)
    (value : PointsTo) (data : PointsToState) :
    pointsToAnalysis.read (pointsToAnalysis.write e value data) other =
      pointsToAnalysis.read data other := by
  have hkey : Key.same e other = false := hother
  let forgets (k : Entity) : Bool :=
    !pointsToAnalysis.isPinned k && (e.mayOverlap k || e.isAncestorOf k)
  have hget : (pointsToAnalysis.write e value data).get? other = data.get? other := by
    show ((data.widenMatching (fun k _ => forgets k) _).insert e _).get? other = _
    rw [Environment.get?_insert, hkey, if_neg Bool.false_ne_true]
    obtain ⟨k, hsame, heq⟩ :=
      data.get?_mapValues (fun k v => if forgets k then AbstractValue.unknown else v) other
    have hkept : forgets k = false := by
      have hk : k.same other = true := hsame
      simp only [forgets, Entity.mayOverlap_congr e hk, Entity.isAncestorOf_congr e hk, hoverlap,
        hancestor, Bool.or_self, Bool.and_false]
    rw [Environment.widenMatching, heq, hkept]
    exact Option.map_id'
  rw [read_eq, read_eq, hget]

end PointsToAnalysis

namespace Routine

open PointsToAnalysis

variable {routine : Routine} {type : StaticType} {member : Symbol}
variable {self implicit explicit : Operation}

/-- A member of the self instance that is accessed without an instance. -/
def selfMember (routine : Routine) (member : Symbol) : Entity :=
  .ofStorage ⟨.member member, member.type, routine.selfValue⟩

section References

variable (htype : routine.containingType? = some type)
include htype

theorem selfValue_eq : routine.selfValue = .ofLocation (.self type) := by
  unfold selfValue
  rw [htype]

theorem denoted?_implicit (hmember : member.isStatic = false)
    (himplicit : implicit.Selects none member) {f : Frame PointsTo PointsToState}
    (hf : f.routine = routine) :
    pointsToAnalysis.denoted? f implicit = some (routine.selfMember member) := by
  obtain ⟨id, form, type?, constant?⟩ := implicit
  have hbare : Entity.ofBareMember? routine.self? member = some (routine.selfMember member) := by
    unfold Entity.ofBareMember? self?
    rw [htype, if_neg (by simp [hmember])]
    rfl
  unfold Analysis.denoted?
  rw [hf]
  rcases himplicit with hform | hform
  · obtain rfl : form = .fieldReference none member := hform
    rw [Operation.denoted?]
    exact hbare
  · obtain rfl : form = .propertyReference none member [] := hform
    rw [Operation.denoted?]
    exact hbare

variable (hself : self.form = .instanceReference none)
include hself

theorem denoted?_self {f : Frame PointsTo PointsToState} (hf : f.routine = routine) :
    pointsToAnalysis.denoted? f self = some (.ofSelf type routine.selfValue) := by
  obtain ⟨id, form, type?, constant?⟩ := self
  obtain rfl : form = .instanceReference none := hself
  unfold Analysis.denoted?
  rw [hf, Operation.denoted?, self?, htype]
  rfl

variable (hselfType : self.type? = some type) (hexplicit : explicit.Selects (some self) member)
include hselfType hexplicit

theorem denoted?_explicit {f : Frame PointsTo PointsToState} (hf : f.routine = routine) :
    pointsToAnalysis.denoted? f explicit =
      if type.isCopied then
        some ((Entity.ofSelf type routine.selfValue).part (.member member) member.type)
      else Entity.ofOwner? (.member member) member.type (pointsToAnalysis.pointsTo f self) := by
  have hselected : explicit.selected? = some (self, .member member, member.type) := by
    obtain ⟨id, form, type?, constant?⟩ := explicit
    rcases hexplicit with hform | hform
    · obtain rfl : form = .fieldReference (some self) member := hform
      rfl
    · obtain rfl : form = .propertyReference (some self) member [] := hform
      rfl
  have hcopied : self.isCopied = type.isCopied := by
    unfold Operation.isCopied
    rw [hselfType]
  have hdenoted := denoted?_self htype hself hf
  unfold Analysis.denoted? at hdenoted ⊢
  rw [Operation.denoted?_of_selected hselected, hcopied, hdenoted]
  rfl

/-- **Where the two ways to access a member of the self instance agree.**  They denote the same
entity if and only if the data of the self instance is not copied and the self reference has the
value of the self instance. -/
theorem denoted?_explicit_eq_implicit_iff (hmember : member.isStatic = false)
    (himplicit : implicit.Selects none member) {f : Frame PointsTo PointsToState}
    (hf : f.routine = routine) {value : PointsTo} (hvalue : f.values.get? self.id = some value) :
    pointsToAnalysis.denoted? f explicit = pointsToAnalysis.denoted? f implicit ↔
      type.isCopied = false ∧ value = routine.selfValue := by
  have hpointsTo : pointsToAnalysis.pointsTo f self = value := by
    show (f.values.get? self.id).getD .unknown = value
    rw [hvalue]
    rfl
  rw [denoted?_explicit htype hself hselfType hexplicit hf,
    denoted?_implicit htype hmember himplicit hf, hpointsTo]
  by_cases hcopied : type.isCopied = true
  · rw [if_pos hcopied]
    refine ⟨fun h => ?_, fun h => ?_⟩
    · have henclosing := congrArg Entity.enclosing (Option.some.inj h)
      cases henclosing
    · rw [hcopied] at h
      cases h.1
  · rw [if_neg hcopied, selfMember, selfValue_eq htype]
    simp only [Bool.not_eq_true] at hcopied
    simp only [hcopied, true_and]
    refine ⟨fun h => ?_, fun h => ?_⟩
    · cases value with
      | known locations =>
        have howner := congrArg (fun e : Entity => e.owner) (Option.some.inj h)
        exact howner
      | _ => cases h
    · rw [h]
      rfl

omit htype hself hselfType hexplicit in
/-- If the data of the self instance is copied, then it does not hold the member that is accessed
without an instance. -/
theorem selfMember_apart (value : PointsTo) (data : PointsToState) :
    let e := (Entity.ofSelf type routine.selfValue).part (.member member) member.type
    pointsToAnalysis.read (pointsToAnalysis.write e value data) (routine.selfMember member) =
        pointsToAnalysis.read data (routine.selfMember member) ∧
      pointsToAnalysis.read (pointsToAnalysis.write (routine.selfMember member) value data) e =
        pointsToAnalysis.read data e := by
  intro e
  refine ⟨read_write_of_apart ?_ ?_ ?_ value data, read_write_of_apart ?_ ?_ ?_ value data⟩
  all_goals simp [e, selfMember, Entity.ofStorage, Entity.part, Entity.ofSelf, Entity.same,
    Entity.identity, Entity.mayOverlap, Entity.isAncestorOf, Entity.ancestors, Entity.ancestorsOf,
    Storage.identity]

/-- **Where the two ways to access a member of the self instance agree.**  They denote the same
entity if and only if the data of the self instance is not copied and the self reference has the
value of the self instance.  Right after the evaluation of the self reference that is the case if
and only if the reference is not a constant and the self instance is bound to what it is.  If the
data is copied, then a write by one way is not seen by a read by the other one, and a callee may
update only what is accessed without an instance. -/
theorem selfMember_agrees_iff (hmember : member.isStatic = false)
    (himplicit : implicit.Selects none member) :
    (∀ (f : Frame PointsTo PointsToState) (value : PointsTo), f.routine = routine →
      f.values.get? self.id = some value →
        (pointsToAnalysis.denoted? f explicit = pointsToAnalysis.denoted? f implicit ↔
          type.isCopied = false ∧ value = routine.selfValue)) ∧
    (∀ m : Machine PointsTo PointsToState, m.routine = routine →
      let after := (outcome (pointsToAnalysis.evaluate self) m).2.toFrame
      (pointsToAnalysis.denoted? after explicit = pointsToAnalysis.denoted? after implicit ↔
        type.isCopied = false ∧ self.isConstant = false ∧
          pointsToAnalysis.read m.data (.ofSelf type routine.selfValue) = routine.selfValue)) ∧
    (type.isCopied = true → ∀ f : Frame PointsTo PointsToState, f.routine = routine →
      ∃ e e', pointsToAnalysis.denoted? f explicit = some e ∧
        pointsToAnalysis.denoted? f implicit = some e' ∧
        e.isHeapMember = false ∧ e'.isHeapMember = true ∧
        ∀ value data,
          pointsToAnalysis.read (pointsToAnalysis.write e value data) e' =
            pointsToAnalysis.read data e' ∧
          pointsToAnalysis.read (pointsToAnalysis.write e' value data) e =
            pointsToAnalysis.read data e) := by
  refine ⟨fun f value hf hvalue => ?_, fun m hm => ?_, fun hcopied f hf => ?_⟩
  · exact denoted?_explicit_eq_implicit_iff htype hself hselfType hexplicit hmember himplicit hf
      hvalue
  · have hme : routine.self? = some (.ofSelf type routine.selfValue) := by
      rw [self?, htype]
      rfl
    intro after
    have hroutine : after.routine = routine := by
      show (outcome (pointsToAnalysis.evaluate self) m).2.routine = routine
      rw [outcome_evaluate_self hme hself hm rfl]
      exact hm
    have hvalue : after.values.get? self.id = some (if hasNoLocation self then .noLocation
        else pointsToAnalysis.read m.data (.ofSelf type routine.selfValue)) := by
      show (outcome (pointsToAnalysis.evaluate self) m).2.values.get? self.id = _
      rw [outcome_evaluate_self hme hself hm rfl]
      exact m.values.get?_insert_self _ _
    rw [denoted?_explicit_eq_implicit_iff htype hself hselfType hexplicit hmember himplicit
      hroutine hvalue]
    have hcopied : hasNoLocation self = (self.isConstant || type.isCopied) := by
      unfold hasNoLocation Operation.isCopied
      rw [hselfType]
    have hlocation : PointsTo.noLocation ≠ routine.selfValue := by
      rw [selfValue_eq htype]
      exact nofun
    rw [hcopied]
    cases type.isCopied <;> cases self.isConstant <;> simp [hlocation]
  · have hexplicit := denoted?_explicit htype hself hselfType hexplicit hf
    rw [if_pos hcopied] at hexplicit
    exact ⟨_, _, hexplicit, denoted?_implicit htype hmember himplicit hf, rfl, rfl,
      selfMember_apart⟩

end References

/-! ## Members of a node, and of data -/

/-- The self reference of the given type. -/
def selfOf (type : StaticType) : Operation :=
  (Operation.ofForm ⟨0⟩ (.instanceReference none)).withType type

/-- A field. -/
def nextField : Symbol := .field ⟨1⟩ "next" (.reference "Node")

/-- The field of the given instance, or without one. -/
def nextOf (instance? : Option Operation) : Operation :=
  .ofForm ⟨1⟩ (.fieldReference instance? nextField)

/-- A routine of an instance of the given type, which accesses the field of its instance. -/
def routineOf (type : StaticType) : Routine where
  name := ""
  containingType? := some type
  parameters := []
  returnType := .void
  graph := ⟨[⟨⟨0⟩, [nextOf (some (selfOf type))], none, []⟩], List.cons_ne_nil _ _⟩

/-- The entry of this routine. -/
def entryOf (type : StaticType) : Machine PointsTo PointsToState :=
  let before : Machine PointsTo PointsToState := .initial (routineOf type)
  { before with data := initialState (routineOf type) }

/-- The two ways agree for an instance of a reference type, and not for data. -/
theorem nextField_agrees :
    let holds (type : StaticType) : Prop :=
      let after := (outcome (pointsToAnalysis.evaluate (selfOf type)) (entryOf type)).2.toFrame
      pointsToAnalysis.denoted? after (nextOf (some (selfOf type))) =
        pointsToAnalysis.denoted? after (nextOf none)
    holds (.reference "Node") ∧ ¬holds (.value "Node") := by
  intro holds
  have hagrees := fun type => @selfMember_agrees_iff (routineOf type) type nextField (selfOf type)
    (nextOf none) (nextOf (some (selfOf type))) rfl rfl rfl (.inl rfl) rfl (.inl rfl)
  refine ⟨((hagrees (.reference "Node")).2.1 (entryOf _) rfl).2 ⟨rfl, rfl, by decide⟩, fun h => ?_⟩
  exact absurd (((hagrees (.value "Node")).2.1 (entryOf _) rfl).1 h).1 (by decide)

/-- **The two ways to access a member of the self instance do not always agree.**  They denote
different entities if the data of the self instance is copied, even where the self instance is bound
to what it is. -/
theorem selfMember_disagrees :
    ¬∀ (routine : Routine) (type : StaticType) (member : Symbol)
        (self implicit explicit : Operation) (m : Machine PointsTo PointsToState),
      routine.containingType? = some type → member.isStatic = false →
      self.form = .instanceReference none → self.type? = some type → self.isConstant = false →
      implicit.Selects none member → explicit.Selects (some self) member →
      m.routine = routine →
      m.data.get? (.ofSelf type routine.selfValue) = some routine.selfValue →
        let after := (outcome (pointsToAnalysis.evaluate self) m).2.toFrame
        pointsToAnalysis.denoted? after explicit = pointsToAnalysis.denoted? after implicit := by
  intro h
  have hsame := h (routineOf (.value "Node")) (.value "Node") nextField (selfOf (.value "Node"))
    (nextOf none) (nextOf (some (selfOf (.value "Node")))) (entryOf (.value "Node")) rfl rfl rfl
    rfl rfl (.inl rfl) (.inl rfl) rfl (by decide)
  exact absurd hsame (by decide)

end Routine
end HeapFlow
