import HeapFlow.Json.Basic

/-! # Records, variants and tagged values

How structured data is laid out in JSON.

A **record** is an object with a member for each field, or an array of the fields in their order.
Members that are not fields are ignored, a field that is given twice is refused.  A field that is
missing may have a default.

A **variant** without data is the string that names it, or an object that maps this name to
`null`.  A variant with data is an object that maps the name to the data.

A **tagged** value is a record whose kind is the value of a special member, or the first item of
the array.  Such a value is looked at as a whole before its kind is known.  In data that has been
looked at that way (`Access.stored`) a kind may also be given by its position in the list of kinds,
and a variant without data may also map its name to an empty object.
-/
namespace HeapFlow
namespace Json

/-- Whether data is read right off the text, or has been stored as part of a tagged value. -/
inductive Access where
  | direct
  | stored
deriving DecidableEq, Repr

/-! ## Simple values -/

/-- A truth value. -/
def bool? : Json → Option Bool
  | .bool b => some b
  | _ => none

/-- A text. -/
def text? : Json → Option String
  | .string text => text
  | _ => none

/-- An integer. -/
def int? : Json → Option Int
  | .number n => n.toInt?
  | _ => none

/-- An integer between zero and the given bound, the bound excluded. -/
def natBelow? (bound : Nat) (value : Json) : Option Nat := do
  let n ← value.int?
  guard (0 ≤ n && n < bound)
  return n.toNat

/-- An integer of 32 bits without a sign. -/
def uint32? (value : Json) : Option UInt32 := UInt32.ofNat <$> value.natBelow? UInt32.size

/-- An integer of 64 bits without a sign. -/
def uint64? (value : Json) : Option UInt64 := UInt64.ofNat <$> value.natBelow? UInt64.size

/-- An integer of 64 bits with a sign. -/
def int64? (value : Json) : Option Int64 := do
  let n ← value.int?
  guard (Int64.minValue.toInt ≤ n && n ≤ Int64.maxValue.toInt)
  return Int64.ofInt n

/-- A text of exactly one character. -/
def char? (value : Json) : Option Char := do
  match (← value.text?).toList with
  | [c] => return c
  | _ => none

/-- An array, each of whose items is read with `read`. -/
def list? {α : Type} (read : Json → Option α) : Json → Option (List α)
  | .array items => items.mapM read
  | _ => none

/-- Either `null` or a value that is read with `read`. -/
def option? {α : Type} (read : Json → Option α) : Json → Option (Option α)
  | .null => some none
  | value => some <$> read value

/-! ## Records -/

/-- What a record has at a field: a value, nothing because the object has no such member, or
nothing because the array is too short. -/
inductive Cell where
  | given (value : Json)
  | absent
  | cut

/-- The fields of a record in their order. -/
structure Record where
  cells : List (String × Cell)

/-- The cells of an array, field by field. -/
def positional : List String → List Json → List (String × Cell)
  | [], _ => []
  | name :: names, [] => (name, .cut) :: positional names []
  | name :: names, item :: items => (name, .given item) :: positional names items

/-- The values of all members with the given name. -/
def valuesOf (members : List (Option String × Json)) (name : String) : List Json :=
  (members.filter fun member => member.1 == some name).map Prod.snd

/-- True if every member has a readable name and no field is given twice. -/
def namesAreProper (fields : List String) (members : List (Option String × Json)) : Bool :=
  members.all (fun member => member.1.isSome) &&
    fields.all fun name => (valuesOf members name).length ≤ 1

/-- The cell of a field of an object. -/
def cellOf (members : List (Option String × Json)) (name : String) : Cell :=
  match valuesOf members name with
  | value :: _ => .given value
  | [] => .absent

/-- The record with the given fields that a value denotes. -/
def record? (fields : List String) : Json → Option Record
  | .object members =>
    if namesAreProper fields members then
      some ⟨fields.map fun name => (name, cellOf members name)⟩
    else none
  | .array items =>
    if items.length ≤ fields.length then some ⟨positional fields items⟩ else none
  | _ => none

namespace Record

variable {α : Type} (record : Record) (name : String) (read : Json → Option α)

/-- What the record has at a field. -/
def cell : Cell := (record.cells.lookup name).getD .cut

/-- A field that has to be given. -/
def required : Option α :=
  match record.cell name with
  | .given value => read value
  | _ => none

/-- A field that may be `null`, or missing from an object. -/
def optional : Option (Option α) :=
  match record.cell name with
  | .given value => option? read value
  | .absent => some none
  | .cut => none

/-- A field with a default. -/
def withDefault (default : α) : Option α :=
  match record.cell name with
  | .given value => read value
  | _ => some default

end Record

/-! ## Variants -/

/-- The name of a variant, and its data if there is any. -/
def variant? : Json → Option (String × Option Json)
  | .string (some name) => some (name, none)
  | .object [(some name, data)] => some (name, some data)
  | _ => none

/-- True if the data says that there is none. -/
def isUnit (access : Access) : Option Json → Bool
  | none => true
  | some .null => true
  | some (.object []) => access == .stored
  | _ => false

/-- One of the given variants without data. -/
def choice? {α : Type} (access : Access) (choices : List (String × α)) (value : Json) :
    Option α := do
  let (name, data) ← value.variant?
  guard (isUnit access data)
  choices.lookup name

/-! ## Tagged values -/

/-- The tag of a value and the rest of the value without it. -/
def tagged? (tag : String) : Json → Option (Json × Json)
  | .object members =>
    match valuesOf members tag with
    | [kind] => some (kind, .object (members.filter fun member => member.1 != some tag))
    | _ => none
  | .array (kind :: items) => some (kind, .array items)
  | _ => none

/-- The kind that a tag denotes. -/
def kind? (access : Access) (kinds : List String) : Json → Option String
  | .string (some name) => if kinds.contains name then some name else none
  | .number n =>
    match access, n.toInt? with
    | .stored, some (.ofNat i) => kinds[i]?
    | _, _ => none
  | _ => none

end Json
end HeapFlow
