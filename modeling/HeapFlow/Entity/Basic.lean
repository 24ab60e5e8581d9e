import HeapFlow.Domain.PointsTo
import HeapFlow.Environment.Merge

/-! # Entities

An entity is storage that the analyses track: a variable, a member of an instance, an element of an
array, the self instance, a slot for an intermediate value, or the slot of the returned value.

Members and elements of heap objects belong to the objects that the reference to their instance may
refer to (`Storage.owner`).  Members of data that is copied are part of the storage that holds the
data: such an entity has a chain of enclosing storage, innermost first.

The static type of storage is not part of its identity (`Entity.identity`).  Entities of one family
(`Entity.family`) differ at most in the owner of their own storage.
-/
namespace HeapFlow

/-- What is known about an index into an array: its value, or the operation that computes it. -/
inductive Index where
  | constant (n : Int64)
  | operation (id : OperationId)
deriving DecidableEq, Repr

namespace Index

/-- True unless the two indices are different constants. -/
def mayEqual : Index → Index → Bool
  | .constant a, .constant b => a = b
  | .constant _, .operation _ | .operation _, _ => true

end Index

/-- What makes storage out among the storage of its owner. -/
inductive Place where
  | localVariable (symbol : Symbol)
  | parameter (symbol : Symbol)
  | member (symbol : Symbol)
  | element (indices : List Index)
  | self
  | capture (id : CaptureId)
  | result
deriving DecidableEq, Repr

namespace Place

/-- The symbol that names the place. -/
def symbol? : Place → Option Symbol
  | .localVariable symbol | .parameter symbol | .member symbol => some symbol
  | .element _ | .self | .capture _ | .result => none

/-- True for members and elements, which are selected from an instance. -/
def isSelector : Place → Bool
  | .member _ | .element _ => true
  | .localVariable _ | .parameter _ | .self | .capture _ | .result => false

/-- True for places that nothing outside of the routine can observe. -/
def isRoutineLocal : Place → Bool
  | .localVariable _ | .capture _ | .result => true
  | .parameter _ | .member _ | .element _ | .self => false

/-- True if the two places select the same member, or elements that may be the same. -/
def maySelectSame : Place → Place → Bool
  | .member s, .member t => s = t
  | .element is, .element js =>
    is.length != js.length || (is.zip js).all fun (i, j) => i.mayEqual j
  | _, _ => false

end Place

/-- A single piece of storage.  The owner says which heap objects it belongs to, and is
`PointsTo.noLocation` for storage that is not part of the heap. -/
structure Storage where
  place : Place
  type : StaticType
  owner : PointsTo
deriving DecidableEq

namespace Storage

/-- What tells a piece of storage from others. -/
def identity (storage : Storage) : Place × PointsTo := (storage.place, storage.owner)

end Storage

/-- Storage that the analyses track, along with the storage that it is part of. -/
structure Entity extends Storage where
  enclosing : List Storage
deriving DecidableEq

namespace Entity

/-- Storage that is not part of other storage. -/
def ofStorage (storage : Storage) : Entity := ⟨storage, []⟩

/-- The entity of a local variable. -/
def ofLocal (symbol : Symbol) : Entity :=
  .ofStorage ⟨.localVariable symbol, symbol.type, .noLocation⟩

/-- The entity of a parameter. -/
def ofParameter (symbol : Symbol) : Entity :=
  .ofStorage ⟨.parameter symbol, symbol.type, .noLocation⟩

/-- The entity of the self instance, which belongs to the objects that it may be. -/
def ofSelf (type : StaticType) (value : PointsTo) : Entity := .ofStorage ⟨.self, type, value⟩

/-- The entity of a slot for an intermediate value. -/
def ofCapture (id : CaptureId) (type : StaticType) : Entity :=
  .ofStorage ⟨.capture id, type, .noLocation⟩

/-- The entity of the slot of the returned value. -/
def ofResult (type : StaticType) : Entity := .ofStorage ⟨.result, type, .noLocation⟩

/-- The storage that is selected from the data held by an entity. -/
def part (parent : Entity) (place : Place) (type : StaticType) : Entity :=
  ⟨⟨place, type, .noLocation⟩, parent.toStorage :: parent.enclosing⟩

/-- The entities that enclose storage with the given chain, innermost first. -/
def ancestorsOf : List Storage → List Entity
  | [] => []
  | storage :: enclosing => ⟨storage, enclosing⟩ :: ancestorsOf enclosing

variable (e : Entity)

/-- The entities that the entity is part of, innermost first. -/
def ancestors : List Entity := ancestorsOf e.enclosing

/-- The entity that the entity is selected from. -/
def parent? : Option Entity := e.ancestors.head?

/-- What identifies the entity: its storage and all enclosing storage, whatever the types. -/
def identity : List (Place × PointsTo) := (e.toStorage :: e.enclosing).map (·.identity)

/-- What the entity has in common with the entities that differ in the owner of their own
storage. -/
def family : Place × List (Place × PointsTo) := (e.place, e.enclosing.map (·.identity))

/-- The symbol that names the entity. -/
def symbol? : Option Symbol := e.place.symbol?

/-- True if the data is copied on assignment. -/
def isCopied : Bool := e.type.isCopied

/-- True for the self instance. -/
def isSelf : Bool := e.place = .self

/-- True for storage that nothing outside of the routine can observe. -/
def isRoutineLocal : Bool := e.place.isRoutineLocal

/-- True for members and elements of heap objects and for static members: storage that a callee can
update without being given a reference to it. -/
def isHeapMember : Bool :=
  e.place.isSelector && e.enclosing.all fun storage => storage.place.isSelector

/-- True for elements of arrays. -/
def isElement : Bool :=
  match e.place with
  | .element _ => true
  | _ => false

/-- True for the given member of some instance. -/
def isMember (symbol : Symbol) : Bool := e.place = .member symbol

/-- True if the two are the same entity. -/
def same (other : Entity) : Bool := e.identity = other.identity

/-- True if the other entity is part of the entity. -/
def isAncestorOf (other : Entity) : Bool := other.ancestors.any fun ancestor => ancestor.same e

/-- True if an update of the entity may also be an update of the other one, because both select the
same from instances that may be the same. -/
def mayOverlap (other : Entity) : Bool :=
  !e.same other && e.enclosing.map (·.identity) = other.enclosing.map (·.identity) &&
    e.place.maySelectSame other.place &&
      (!e.enclosing.isEmpty || e.owner.mayAlias other.owner)

/-- The entity with the owners of both entities. -/
def withMergedOwner (other : Entity) : Entity :=
  { e with owner := e.owner.merge other.owner }

/-- Entities are keys whose instance is the owner of their storage. -/
instance : InstanceKey Entity where
  same := same
  same_refl := by simp [same]
  same_symm := by simp +contextual [same]
  same_trans := by simp +contextual [same]
  sameFamily a b := a.family = b.family
  sameInstance a b := a.owner = b.owner
  withMergedInstance := withMergedOwner

end Entity

/-- Locations are keys that do not belong to an instance. -/
instance : InstanceKey Location := .ofDecidableEq Location

/-- The ids of operations are keys. -/
instance : Key OperationId := .ofDecidableEq OperationId

end HeapFlow
