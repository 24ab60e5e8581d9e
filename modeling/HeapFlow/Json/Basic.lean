/-! # JSON values

A JSON text denotes a tree: `null`, the two truth values, numbers, strings, arrays and objects.
Nothing that a reader of the tree may want to refuse is thrown away: an object keeps all its
members in order, also those whose names repeat, a number keeps the way it is written, and a
string whose escapes denote no text is present as a string without a text.

Two measures say which trees can be held in memory as plain values: `Json.depth` counts nested
arrays and objects, and `Json.isStorable` asks that every string denotes a text and that every
number is within the range of a double.
-/
namespace HeapFlow

/-- A number as it is written.  The fraction is the list of digits behind the point, empty when
there is no point, and the exponent is absent when none is written. -/
structure Numeral where
  negative : Bool
  whole : Nat
  fraction : List Nat
  exponent : Option Int
deriving DecidableEq, Repr

namespace Numeral

/-- The numeral of an integer has neither fraction nor exponent. -/
def ofInt (n : Int) : Numeral := ⟨n < 0, n.natAbs, [], none⟩

/-- The integer that is written, none for a number with a fraction or an exponent.  A zero with a
minus sign is not an integer either, since no integer is written that way. -/
def toInt? (n : Numeral) : Option Int :=
  if n.fraction.isEmpty && n.exponent.isNone && !(n.negative && n.whole == 0) then
    some (if n.negative then -(n.whole : Int) else n.whole)
  else
    none

/-- Appends digits to a significand for as long as it fits into 64 bits, and returns the digits
that no longer do. -/
def gather : Nat → List Nat → Nat × List Nat
  | acc, [] => (acc, [])
  | acc, d :: ds => if acc * 10 + d < UInt64.size then gather (acc * 10 + d) ds else (acc, d :: ds)

/-- The decimal digits of a natural number, most significant first. -/
def digits (n : Nat) : List Nat := (Nat.toDigits 10 n).map fun c => c.toNat - 48

/-- The significand and the power of ten by which the number is approximated. -/
def scaled (n : Numeral) : Nat × Int :=
  let (significand, surplus) := gather 0 (digits n.whole)
  let (significand, dropped) := gather significand n.fraction
  let taken := n.fraction.length - dropped.length
  (significand, n.exponent.getD 0 + surplus.length - taken)

/-- A natural number rounded to the 53 significant bits of a double, ties going to even. -/
def roundToDouble (n : Nat) : Nat :=
  let bits := n.log2 + 1
  if bits ≤ 53 then n
  else
    let shift := bits - 53
    let kept := n >>> shift
    let lost := n - kept <<< shift
    let half := 1 <<< (shift - 1)
    let rounded := if lost > half || (lost == half && kept % 2 == 1) then kept + 1 else kept
    rounded <<< shift

/-- True if the number is within the range of a double, which is to say that the product of its
rounded significand and its rounded power of ten does not round to infinity. -/
def fitsDouble (n : Numeral) : Bool :=
  let (significand, power) := n.scaled
  if significand == 0 || power ≤ 0 then true
  else if power > 308 then false
  else
    roundToDouble significand * roundToDouble (Nat.pow 10 power.toNat) < 1 <<< 1024 - 1 <<< 970

@[simp] theorem toInt?_ofInt (n : Int) : (ofInt n).toInt? = some n := by
  by_cases h : n < 0
  · have hzero : (n.natAbs == 0) = false := beq_false_of_ne (by omega)
    have hneg : -(n.natAbs : Int) = n := by omega
    simp only [toInt?, ofInt, h, hzero, hneg, decide_true]
    rfl
  · have hpos : (n.natAbs : Int) = n := by omega
    simp only [toInt?, ofInt, h, hpos, decide_false]
    rfl

end Numeral

/-- A JSON value.  A string without a text is one whose escapes leave a surrogate unpaired; the
same holds of the name of a member. -/
inductive Json where
  | null
  | bool (b : Bool)
  | number (n : Numeral)
  | string (text : Option String)
  | array (items : List Json)
  | object (members : List (Option String × Json))

namespace Json

/-- The string that denotes the given text. -/
def text (s : String) : Json := .string (some s)

/-- The number that denotes the given integer. -/
def int (n : Int) : Json := .number (.ofInt n)

/-- The number that denotes the given natural number. -/
def nat (n : Nat) : Json := int n

/-- The object with the given members. -/
def record (fields : List (String × Json)) : Json :=
  .object (fields.map fun (name, value) => (some name, value))

/-- The value itself, or `null` when there is none. -/
def ofOption {α : Type} (encode : α → Json) : Option α → Json
  | none => .null
  | some a => encode a

/-- The array of the encoded elements. -/
def ofList {α : Type} (encode : α → Json) (as : List α) : Json := .array (as.map encode)

mutual

/-- How many arrays and objects are nested in each other. -/
def depth : Json → Nat
  | .array items => depthOfItems items + 1
  | .object members => depthOfMembers members + 1
  | _ => 0

/-- The greatest depth among the items of an array. -/
def depthOfItems : List Json → Nat
  | [] => 0
  | item :: items => max item.depth (depthOfItems items)

/-- The greatest depth among the members of an object. -/
def depthOfMembers : List (Option String × Json) → Nat
  | [] => 0
  | (_, value) :: members => max value.depth (depthOfMembers members)

end

mutual

/-- True if every string denotes a text and every number is within the range of a double. -/
def isStorable : Json → Bool
  | .null | .bool _ => true
  | .number n => n.fitsDouble
  | .string text => text.isSome
  | .array items => itemsAreStorable items
  | .object members => membersAreStorable members

/-- True if all items of an array are storable. -/
def itemsAreStorable : List Json → Bool
  | [] => true
  | item :: items => item.isStorable && itemsAreStorable items

/-- True if the names and the values of all members of an object are storable. -/
def membersAreStorable : List (Option String × Json) → Bool
  | [] => true
  | (name, value) :: members => name.isSome && value.isStorable && membersAreStorable members

end

theorem depthOfItems_le_iff {items : List Json} {n : Nat} :
    depthOfItems items ≤ n ↔ ∀ item ∈ items, item.depth ≤ n := by
  induction items with
  | nil => simp [depthOfItems]
  | cons item items ih => rw [depthOfItems, Nat.max_le, ih, List.forall_mem_cons]

theorem depthOfMembers_le_iff {members : List (Option String × Json)} {n : Nat} :
    depthOfMembers members ≤ n ↔ ∀ member ∈ members, member.2.depth ≤ n := by
  induction members with
  | nil => simp [depthOfMembers]
  | cons member members ih => rw [depthOfMembers, Nat.max_le, ih, List.forall_mem_cons]

end Json
end HeapFlow
