import HeapFlow.Domain.LocationSet
import HeapFlow.Domain.Value

/-! # Points-to values

A points-to value says which heap objects a reference may refer to.  `undefined` says that nothing
has been assigned on the paths seen so far, `noLocation` is the value of constants and of data that
is copied, `known` lists all locations that the reference may refer to, and `unknown` says that it
may refer to anything.

The value `undefined` is the least one and `unknown` the greatest.  Between them known values are
ordered by inclusion, and `noLocation` is comparable with none of them.  Merging is the union of
sets, and a union of more than `PointsTo.maxLocations` locations is unknown.
-/
namespace HeapFlow

/-- What a reference may refer to. -/
inductive PointsTo where
  | undefined
  | noLocation
  | known (locations : LocationSet)
  | unknown
deriving DecidableEq

namespace PointsTo

/-- The number of locations that are tracked for one reference. -/
def maxLocations : Nat := 16

/-- The value that refers to exactly one location. -/
def ofLocation (location : Location) : PointsTo := .known (.singleton location)

/-- The value that refers to the locations of a set: undefined if there are none, unknown if there
are too many. -/
def ofSet (set : LocationSet) : PointsTo :=
  if set.size = 0 then .undefined
  else if set.size > maxLocations then .unknown
  else .known set

/-- The value that refers to the listed locations. -/
def ofLocations (locations : List Location) : PointsTo := ofSet (.ofList locations)

/-- True if the locations are known. -/
def isKnown : PointsTo → Bool
  | .known _ => true
  | .undefined | .noLocation | .unknown => false

/-- The locations, if they are known. -/
def locations? : PointsTo → Option LocationSet
  | .known locations => some locations
  | .undefined | .noLocation | .unknown => none

/-- True if the value is known and has the location among its locations. -/
def contains (value : PointsTo) (location : Location) : Bool :=
  match value with
  | .known locations => locations.contains location
  | .undefined | .noLocation | .unknown => false

/-- True unless the two values are known to refer to different objects.  A value without identity
is no alias of anything. -/
def mayAlias : PointsTo → PointsTo → Bool
  | .undefined, _ | _, .undefined => false
  | .noLocation, _ | _, .noLocation => false
  | .unknown, _ | _, .unknown => true
  | .known a, .known b => a.meets b

/-- What a reference may refer to that has one of two values. -/
def merge : PointsTo → PointsTo → PointsTo
  | .undefined, b => b
  | a, .undefined => a
  | .unknown, _ | _, .unknown => .unknown
  | .noLocation, .noLocation => .noLocation
  | .noLocation, .known _ | .known _, .noLocation => .unknown
  | .known a, .known b => ofSet (a.union b)

/-- The previous value if nothing is added to it, the value itself if there was nothing before, and
otherwise unknown. -/
def widen (value previous : PointsTo) : PointsTo :=
  if previous = .undefined then value
  else if value.merge previous = previous then previous
  else .unknown

instance : AbstractValue PointsTo where
  bottom := .undefined
  unknown := .unknown
  merge := merge
  widen := widen

end PointsTo
end HeapFlow
