import HeapFlow.Entity.Basic

/-! # The entities that operations denote

A reference operation denotes an entity.  A member or an element of data that is copied is part of
the storage of the data.  A member or an element of a heap object belongs to the objects that the
instance may refer to, so these have to be known: `ownerOf` gives the points-to value of an
operation that has been interpreted already.

`Operation.consulted` lists the operations whose points-to values matter for what an operation
denotes.  There is at most one: the innermost instance that is not data that is copied.
-/
namespace HeapFlow

namespace Index

/-- What is known about the index that an operation computes. -/
def ofOperation (index : Operation) : Index :=
  match index.constant? with
  | some (.int n) => .constant n
  | _ => .operation index.id

end Index

namespace Entity

/-- The storage that is selected from the heap objects that a value refers to, if they are
known. -/
def ofOwner? (place : Place) (type : StaticType) : PointsTo → Option Entity
  | .known locations => some (.ofStorage ⟨place, type, .known locations⟩)
  | .undefined | .noLocation | .unknown => none

/-- A member that is accessed without an instance: a static member, or a member of the self
instance. -/
def ofBareMember? (self? : Option Entity) (symbol : Symbol) : Option Entity :=
  if symbol.isStatic then some (.ofStorage ⟨.member symbol, symbol.type, .noLocation⟩)
  else self?.map fun self => .ofStorage ⟨.member symbol, symbol.type, self.owner⟩

end Entity

namespace Operation

/-- The entity that an operation denotes, none if it is not a reference or if the storage cannot
be tracked. -/
def denoted? (self? : Option Entity) (ownerOf : Operation → PointsTo) :
    Operation → Option Entity
  | ⟨_, .localReference symbol, _, _⟩ => some (.ofLocal symbol)
  | ⟨_, .parameterReference symbol, _, _⟩ => some (.ofParameter symbol)
  | ⟨_, .instanceReference none, _, _⟩ => self?
  | ⟨_, .flowCapture capture value, type?, _⟩ =>
    some (.ofCapture capture ((value.type?.or type?).getD .unknown))
  | ⟨_, .flowCaptureReference capture, type?, _⟩ =>
    some (.ofCapture capture (type?.getD .unknown))
  | ⟨_, .fieldReference none field, _, _⟩ => Entity.ofBareMember? self? field
  | ⟨_, .fieldReference (some object) field, _, _⟩ =>
    if object.isCopied then
      (denoted? self? ownerOf object).map fun parent => parent.part (.member field) field.type
    else Entity.ofOwner? (.member field) field.type (ownerOf object)
  | ⟨_, .propertyReference none property [], _, _⟩ => Entity.ofBareMember? self? property
  | ⟨_, .propertyReference (some object) property [], _, _⟩ =>
    if object.isCopied then
      (denoted? self? ownerOf object).map fun parent =>
        parent.part (.member property) property.type
    else Entity.ofOwner? (.member property) property.type (ownerOf object)
  | ⟨_, .arrayElementReference array indices, type?, _⟩ =>
    let place := .element (indices.map Index.ofOperation)
    let type := type?.getD .unknown
    if array.isCopied then
      (denoted? self? ownerOf array).map fun parent => parent.part place type
    else Entity.ofOwner? place type (ownerOf array)
  | _ => none

/-- The operations whose points-to values decide what an operation denotes. -/
def consulted : Operation → List Operation
  | ⟨_, .fieldReference (some object) _, _, _⟩
  | ⟨_, .propertyReference (some object) _ [], _, _⟩ =>
    if object.isCopied then consulted object else [object]
  | ⟨_, .arrayElementReference array _, _, _⟩ =>
    if array.isCopied then consulted array else [array]
  | _ => []

end Operation
end HeapFlow
