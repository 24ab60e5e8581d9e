import HeapFlow.Entity.Denote
import HeapFlow.Program.ControlFlow

/-! # Analyses

The interpreter walks operations and keeps a state that binds entities to abstract values.  All
else is up to an analysis: what values operations have, what entities hold before they are
assigned, and how states combine.

`Frame` is what the interpreter knows at a point of a routine, and `Analysis` is the record of the
decisions that it leaves to its client.  The decisions that are usually made one way have defaults.

The second half of the module derives the effects on a state from these decisions: reading and
writing an entity, and forgetting what may have changed.  A write is exact for the entity that is
written, and forgets the entities that may be the same storage or part of it.
-/
namespace HeapFlow

namespace Routine

variable (routine : Routine)

/-- What the self reference refers to, undefined for static routines. -/
def selfValue : PointsTo :=
  match routine.containingType? with
  | some type => .ofLocation (.self type)
  | none => .undefined

/-- The self instance, which static routines do not have. -/
def self? : Option Entity :=
  routine.containingType?.map fun type => .ofSelf type routine.selfValue

end Routine

/-- States that bind entities to values, possibly among other things. -/
class EntityState (D : Type) (V : outParam Type) where
  /-- The state without any bindings. -/
  empty : D
  /-- The values of entities. -/
  entities : D → Environment Entity V
  /-- The state with other values of entities. -/
  withEntities : D → Environment Entity V → D

instance {V : Type} : EntityState (Environment Entity V) V where
  empty := .empty
  entities env := env
  withEntities _ env := env

/-- What is known at a point of a routine: the state there, the values of the operations that have
been interpreted, and the creations whose initializers are being interpreted, innermost first. -/
structure Frame (V D : Type) where
  routine : Routine
  data : D
  values : Environment OperationId V
  creations : List OperationId

namespace Frame

variable {V D : Type}

/-- The frame at the entry of a routine, before there is a state. -/
def initial [EntityState D V] (routine : Routine) : Frame V D :=
  ⟨routine, EntityState.empty, .empty, []⟩

variable (frame : Frame V D)

/-- The frame with the value of an operation. -/
def cache (id : OperationId) (value : V) : Frame V D :=
  { frame with values := frame.values.insert id value }

/-- The value of the innermost creation whose initializer is being interpreted. -/
def creationValue? : Option V := frame.creations.head? >>= frame.values.get?

end Frame

/-- The decisions that the interpreter leaves to an analysis. -/
structure Analysis (V D : Type) where
  /-- The value of an entity that the state does not bind. -/
  defaultEntityValue : Entity → V
  /-- The state on entry to a routine. -/
  initialState : Routine → D
  /-- The value of an operation that is not modelled more precisely. -/
  defaultValue : Frame V D → Operation → V
  /-- The value of a creation, before its arguments and its initializer are interpreted. -/
  creationValue : Frame V D → Operation → V := defaultValue
  /-- The value that a call returns, and the state that reflects what the callee is known to do. -/
  invocationValue : Frame V D → Operation → StaticType → V × D := fun frame operation _ =>
    (defaultValue frame operation, frame.data)
  /-- The value of a conversion of an operand of the given value. -/
  conversionValue : Frame V D → Operation → ConversionKind → V → V := fun frame operation _ _ =>
    defaultValue frame operation
  /-- The value of an operation, given the value that the interpreter has come up with. -/
  finalValue : Frame V D → Operation → V → V := fun _ _ value => value
  /-- The state before a statement is interpreted. -/
  beforeStatement : Frame V D → D := fun frame => frame.data
  /-- True for entities that keep their values. -/
  isPinned : Entity → Bool := fun _ => false
  /-- The value that an entity has when it is assigned the given value. -/
  assignedValue : Entity → V → V := fun _ value => value
  /-- What an operation that has been interpreted may refer to. -/
  pointsTo : Frame V D → Operation → PointsTo
  /-- The state where two edges meet. -/
  mergeData : D → D → D
  /-- The state of a loop anchor that covers the given state and the previous one, so that the
  states of the anchor become stable. -/
  widenData : D → D → D := fun data previous => mergeData previous data

namespace Analysis

variable {V D : Type} [DecidableEq V] [AbstractValue V] [EntityState D V] (A : Analysis V D)

/-- The entity that an operation denotes. -/
def denoted? (frame : Frame V D) (operation : Operation) : Option Entity :=
  operation.denoted? frame.routine.self? (A.pointsTo frame)

/-- The value of an entity. -/
def read (data : D) (e : Entity) : V :=
  match (EntityState.entities data).get? e with
  | some value => value
  | none => A.defaultEntityValue e

/-- Forgets the values of the entities that satisfy the condition, other than pinned ones. -/
def resetEntities (condition : Entity → Bool) (data : D) : D :=
  EntityState.withEntities data
    ((EntityState.entities data).widenMatching (fun e _ => !A.isPinned e && condition e)
      AbstractValue.unknown)

/-- Forgets the values of all entities other than pinned ones. -/
def resetAll : D → D := A.resetEntities fun _ => true

/-- Forgets the values of members and elements of heap objects and of static members. -/
def resetHeap : D → D := A.resetEntities Entity.isHeapMember

/-- Assigns a value to an entity.  Entities that may be the same storage and entities that are part
of the storage are forgotten. -/
def write (e : Entity) (value : V) (data : D) : D :=
  let data' := A.resetEntities (fun other => e.mayOverlap other || e.isAncestorOf other) data
  EntityState.withEntities data'
    ((EntityState.entities data').insert e (A.assignedValue e value))

/-- Forgets the members or elements that an assignment may have updated whose target denotes no
entity that is tracked. -/
def forgetMembers (target : Operation) : D → D :=
  match target.form with
  | .fieldReference _ member | .propertyReference _ member _ =>
    A.resetEntities fun e => e.isMember member
  | .arrayElementReference _ _ => A.resetEntities Entity.isElement
  | _ => id

mutual

/-- Assigns a value to the storage that an operation denotes.  The parts of the value of a tuple
are not known.  An assignment by way of an indexer is a call that may update the heap. -/
def assign (target : Operation) (value : V) (frame : Frame V D) : Frame V D :=
  match target with
  | ⟨id, form, type?, constant?⟩ =>
    match A.denoted? frame ⟨id, form, type?, constant?⟩ with
    | some e => { frame with data := A.write e value frame.data }
    | none =>
      match form with
      | .tuple elements => assignUnknown elements frame
      | .propertyReference _ _ (_ :: _) => { frame with data := A.resetHeap frame.data }
      | _ => { frame with data := A.forgetMembers ⟨id, form, type?, constant?⟩ frame.data }

/-- Assigns unknown values to the storage that each of the operations denotes. -/
def assignUnknown : List Operation → Frame V D → Frame V D
  | [], frame => frame
  | target :: targets, frame => assignUnknown targets (assign target AbstractValue.unknown frame)

end

end Analysis
end HeapFlow
