import HeapFlow.Program.Operation

/-! # Abstract heap locations

An abstract location stands for the heap objects that one cause brings about: an allocation site,
a symbol that refers to objects on entry to the routine, or the self instance.

Locations are ordered: first by the cause in the order of the constructors, then by its data, part
by part.  `Location.sortKey` spells this order out as a word of numbers, and words are compared
lexicographically.  A name contributes its characters, each greater than the mark at its end, so
that a name comes before the names that continue it.
-/
namespace HeapFlow

/-- An abstract heap location. -/
inductive Location where
  | null
  | referent (symbol : Symbol)
  | creation (operation : OperationId) (type : StaticType)
  | self (type : StaticType)
deriving DecidableEq, Repr

/-- A text as part of a sort key. -/
def textKey (s : String) : List Nat := s.toList.map (fun c => c.toNat + 1) ++ [0]

/-- A truth value as part of a sort key. -/
def truthKey (b : Bool) : List Nat := [if b then 1 else 0]

namespace TypeKind

/-- A type kind as part of a sort key. -/
def sortKey : TypeKind → List Nat
  | .value => [0]
  | .reference => [1]
  | .typeParameter => [2]
  | .void => [3]

end TypeKind

namespace StaticType

/-- A type as part of a sort key. -/
def sortKey (type : StaticType) : List Nat := textKey type.name ++ type.kind.sortKey

end StaticType

namespace Passing

/-- A way to pass an argument as part of a sort key. -/
def sortKey : Passing → List Nat
  | .byValue => [0]
  | .readOnly => [1]
  | .byReference => [2]
  | .output => [3]

end Passing

namespace SymbolKind

/-- A symbol kind as part of a sort key. -/
def sortKey : SymbolKind → List Nat
  | .localVariable => [0]
  | .parameter ordinal passing => 1 :: ordinal.toNat :: passing.sortKey
  | .field isStatic => 2 :: truthKey isStatic
  | .property isStatic => 3 :: truthKey isStatic
  | .method isStatic => 4 :: truthKey isStatic
  | .localFunction => [5]

end SymbolKind

namespace Symbol

/-- A symbol as part of a sort key. -/
def sortKey (symbol : Symbol) : List Nat :=
  symbol.id.number.toNat :: (textKey symbol.name ++ (symbol.kind.sortKey ++ symbol.type.sortKey))

end Symbol

namespace Location

/-- The word of numbers by which locations are ordered. -/
def sortKey : Location → List Nat
  | .null => [0]
  | .referent symbol => 1 :: symbol.sortKey
  | .creation operation type => 2 :: operation.number.toNat :: type.sortKey
  | .self type => 3 :: type.sortKey

instance : LT Location := ⟨fun a b => a.sortKey < b.sortKey⟩

instance (a b : Location) : Decidable (a < b) :=
  inferInstanceAs (Decidable (a.sortKey < b.sortKey))

theorem lt_trans {a b c : Location} (hab : a < b) (hbc : b < c) : a < c :=
  List.lt_trans hab hbc

theorem lt_irrefl (a : Location) : ¬a < a := List.lt_irrefl a.sortKey

/-- True for locations that stand for objects that the routine allocates. -/
def isAllocationSite : Location → Bool
  | .creation _ _ => true
  | .null | .referent _ | .self _ => false

/-- The static type of the objects at a location, if it is known. -/
def type? : Location → Option StaticType
  | .null => none
  | .referent symbol => some symbol.type
  | .creation _ type | .self type => some type

end Location
end HeapFlow
