import HeapFlow.Domain.Value
import HeapFlow.Environment.Basic

/-! # Merging and widening environments

A key that an environment does not bind was not observed along the paths that led there, which is
not to say that nothing is known about it.  Merging never drops a key: a key that one side does not
bind is given a value by the caller of `mergeWith`.

Keys are matched by family.  Keys of the same instance are merged in place.  Keys of different
instances also give rise to the key of the merged instance, unless that key would be bound to
nothing but the unknown value.

The pairs of bindings are taken up in the order in which the environments list them.  A key that
neither side binds may get another value in another order, as pairs that come to the unknown value
are left out until there is one that does not.
-/
namespace HeapFlow
namespace Environment

variable {K V : Type} [DecidableEq V] [AbstractValue V]

section Change

variable [Key K] (env : Environment K V)

/-- The environment with the value in place of the values of all keys that satisfy the condition. -/
def widenMatching (condition : K → V → Bool) (value : V) : Environment K V :=
  env.mapValues fun k v => if condition k v then value else v

/-- The environment with the value in place of all values. -/
def widenAllTo (value : V) : Environment K V := env.widenMatching (fun _ _ => true) value

/-- True if every key with information is bound by the other environment, to a value that is not
more precise. -/
def isSubsetOf (other : Environment K V) : Bool :=
  env.entries.all fun (k, v) =>
    AbstractValue.isBottom v ||
      match other.get? k with
      | some w => AbstractValue.subset v w
      | none => false

end Change

section Merge

variable [InstanceKey K] (env other : Environment K V)

/-- Adds what follows from a binding of each side, the keys being of one family. -/
def mergePair (result : Environment K V) (x y : K × V) : Environment K V :=
  let merged := AbstractValue.merge x.2 y.2
  if InstanceKey.sameInstance x.1 y.1 then
    match result.get? x.1 with
    | some existing => result.insert x.1 (AbstractValue.merge merged existing)
    | none => result.insert x.1 merged
  else
    let key := InstanceKey.withMergedInstance x.1 y.1
    let existing := [result.get? key, env.get? key, other.get? key].filterMap id
    let value := existing.foldl AbstractValue.merge merged
    if existing.isEmpty && AbstractValue.isUnknown value then result else result.insert key value

/-- Adds a binding that has not been merged with a binding of the other side. -/
def mergeAlone (absent : K → V → V) (result : Environment K V) (x : K × V) : Environment K V :=
  if result.contains x.1 then result else result.insert x.1 (absent x.1 x.2)

/-- Adds what follows from a binding of the first side. -/
def mergeEntry (absent : K → V → V) (result : Environment K V) (x : K × V) : Environment K V :=
  mergeAlone absent
    ((other.entries.filter fun y => InstanceKey.sameFamily x.1 y.1).foldl
      (fun result y => mergePair env other result x y) result) x

/-- The environment that covers both environments.  The value of a key that only one of them binds
is given by `absent`. -/
def mergeWith (absent : K → V → V) : Environment K V :=
  other.entries.foldl (mergeAlone absent)
    (env.entries.foldl (mergeEntry env other absent) empty)

/-- The environment that covers this and the previous environment.  Values that differ from the
previous ones are widened. -/
def widenWith (previous : Environment K V) (absent : K → V → V) : Environment K V :=
  (previous.mergeWith env absent).mapValues fun k v =>
    match previous.get? k with
    | some old => if old = v then v else AbstractValue.widen v old
    | none => v

/-- The value of a key that was not observed on the other side. -/
def mergeUnknown (_ : K) (value : V) : V := AbstractValue.merge value AbstractValue.unknown

/-- The environment that covers both environments, where nothing is known about keys that were not
observed. -/
def merge : Environment K V := env.mergeWith other mergeUnknown

/-- The widening of an environment where nothing is known about keys that were not observed. -/
def widen (previous : Environment K V) : Environment K V := env.widenWith previous mergeUnknown

end Merge
end Environment
end HeapFlow
