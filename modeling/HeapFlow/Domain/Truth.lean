import HeapFlow.Domain.Value

/-! # Sets of truth values

The four sets of truth values: the empty one, the two singletons and the full one.  They record
facts that may hold or not hold, such as whether an object has been disposed of.
-/
namespace HeapFlow

/-- A set of truth values. -/
inductive Truth where
  | bottom
  | isFalse
  | isTrue
  | top
deriving DecidableEq, Repr

namespace Truth

/-- The set that holds just the given truth value. -/
def ofBool (b : Bool) : Truth := if b then .isTrue else .isFalse

/-- The truth value of a set that holds just one. -/
def toBool? : Truth → Option Bool
  | .isTrue => some true
  | .isFalse => some false
  | .bottom | .top => none

/-- The union of two sets. -/
def join : Truth → Truth → Truth
  | .bottom, b => b
  | a, .bottom => a
  | .isFalse, .isFalse => .isFalse
  | .isTrue, .isTrue => .isTrue
  | _, _ => .top

/-- The place of a set in the listing of all sets. -/
def rank : Truth → Nat
  | .bottom => 0
  | .isFalse => 1
  | .isTrue => 2
  | .top => 3

/-- True if the first set is listed before the second. -/
def isListedBefore (a b : Truth) : Bool := a.rank < b.rank

/-- Sets of truth values are merged by union.  There are only four of them, so widening is merging
too. -/
instance : AbstractValue Truth where
  bottom := .bottom
  unknown := .top
  merge := join
  widen value previous := join previous value

end Truth
end HeapFlow
