import HeapFlow.Flow.Analysis

/-! # Facts about heap locations

Some analyses are about what references refer to, and not about the variables that hold the
references.  Their states bind heap locations as well as entities.

An update by way of a reference is exact if the reference refers to a single location.  Otherwise
it is not known which of the locations is updated, and the new value is merged with the old ones.
-/
namespace HeapFlow

/-- A state that binds entities and heap locations to values. -/
structure LocationState (V : Type) where
  entities : Environment Entity V
  locations : Environment Location V

namespace LocationState

variable {V : Type}

/-- The state without any bindings. -/
def empty : LocationState V := ⟨.empty, .empty⟩

instance : EntityState (LocationState V) V where
  empty := empty
  entities state := state.entities
  withEntities state entities := { state with entities }

variable [DecidableEq V]

instance : BEq (LocationState V) where
  beq a b := a.entities == b.entities && a.locations == b.locations

variable [AbstractValue V] (state : LocationState V)

/-- The merge of the values of the locations that a reference may refer to.  Locations without a
value have the default.  A reference to anything has the unknown value, a reference to nothing the
bottom value. -/
def valueAt (pointsTo : PointsTo) (default : Location → V) : V :=
  match pointsTo with
  | .known locations =>
    (locations.toList.map fun location =>
      (state.locations.get? location).getD (default location)).foldl
        AbstractValue.merge AbstractValue.bottom
  | .unknown => AbstractValue.unknown
  | .undefined | .noLocation => AbstractValue.bottom

/-- Merges a value into the value of a location. -/
def mergeAt (value : V) (locations : Environment Location V) (location : Location) :
    Environment Location V :=
  match locations.get? location with
  | some existing => locations.insert location (AbstractValue.merge existing value)
  | none => locations.insert location value

/-- Updates the locations that a reference may refer to. -/
def setValueAt (pointsTo : PointsTo) (value : V) : LocationState V :=
  match pointsTo with
  | .known ⟨[location], _⟩ => { state with locations := state.locations.insert location value }
  | .known locations =>
    { state with locations := locations.toList.foldl (mergeAt value) state.locations }
  | .undefined | .noLocation | .unknown => state

/-- Forgets the values of all locations. -/
def resetLocations : LocationState V :=
  { state with locations := state.locations.widenAllTo AbstractValue.unknown }

/-- The state that covers both states. -/
def merge (other : LocationState V) : LocationState V :=
  ⟨state.entities.merge other.entities, state.locations.merge other.locations⟩

/-- The state that covers this and the previous state. -/
def widen (previous : LocationState V) : LocationState V := previous.merge state

/-- True if all bindings are covered by the other state. -/
def isSubsetOf (other : LocationState V) : Bool :=
  state.entities.isSubsetOf other.entities && state.locations.isSubsetOf other.locations

end LocationState
end HeapFlow
