/-! # Domains of abstract values

An abstract value describes what is known about a value of the program.  A domain of such values
has a least element, which describes code that was not reached, and an element that says that
nothing is known.  Values that reach a point along different paths are merged.  Widening compares
a value with an earlier one for the same point and jumps ahead, so that a growing chain of values
comes to an end.
-/
namespace HeapFlow

/-- A domain of abstract values. -/
class AbstractValue (V : Type) where
  /-- The value that carries no information. -/
  bottom : V
  /-- The value about which nothing is known. -/
  unknown : V
  /-- A value that covers both values. -/
  merge : V → V → V
  /-- A value that covers the first value and the second, earlier one, and that an ascending chain
  does not exceed forever. -/
  widen : V → V → V

namespace AbstractValue

variable {V : Type} [DecidableEq V] [AbstractValue V]

/-- True if the first value is at least as precise as the second. -/
def subset (a b : V) : Bool := merge a b = b

/-- True for the value that carries no information. -/
def isBottom (a : V) : Bool := a = bottom

/-- True for the value about which nothing is known. -/
def isUnknown (a : V) : Bool := a = unknown

end AbstractValue
end HeapFlow
