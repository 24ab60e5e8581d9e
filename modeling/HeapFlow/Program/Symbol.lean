/-! # Types and symbols

What the analyses know about the declarations of a program: the coarse shape of static types, and
the symbols that stand for variables, members and routines.
-/
namespace HeapFlow

/-- The shape of a type.  Values of a value type are copied on assignment and have no identity,
values of a reference type are references to heap objects, a type parameter may stand for either,
and `void` is the return type of routines that return nothing. -/
inductive TypeKind where
  | value
  | reference
  | typeParameter
  | void
deriving DecidableEq, Repr

/-- A static type. -/
structure StaticType where
  name : String
  kind : TypeKind
deriving DecidableEq, Repr

namespace StaticType

/-- The value type of the given name. -/
def value (name : String) : StaticType := ⟨name, .value⟩

/-- The reference type of the given name. -/
def reference (name : String) : StaticType := ⟨name, .reference⟩

/-- The type parameter of the given name. -/
def typeParameter (name : String) : StaticType := ⟨name, .typeParameter⟩

/-- The return type of routines that return nothing. -/
def void : StaticType := ⟨"void", .void⟩

/-- The type of storage whose type is not known. -/
def unknown : StaticType := typeParameter "?"

/-- True if values of the type are copied on assignment. -/
def isCopied (type : StaticType) : Bool := type.kind == .value

/-- True for the return type of routines that return nothing. -/
def isVoid (type : StaticType) : Bool := type.kind == .void

end StaticType

/-- How an argument is passed to a routine. -/
inductive Passing where
  | byValue
  | readOnly
  | byReference
  | output
deriving DecidableEq, Repr

namespace Passing

/-- True if the callee can assign to the storage of its caller. -/
def isWritable : Passing → Bool
  | .byReference | .output => true
  | .byValue | .readOnly => false

end Passing

/-- Identifies a symbol within a routine. -/
structure SymbolId where
  number : UInt32
deriving DecidableEq, Repr

/-- What a symbol declares. -/
inductive SymbolKind where
  | localVariable
  | parameter (ordinal : UInt64) (passing : Passing)
  | field (isStatic : Bool)
  | property (isStatic : Bool)
  | method (isStatic : Bool)
  | localFunction
deriving DecidableEq, Repr

/-- A declared entity of the program.  The type of a method or a local function is its return
type. -/
structure Symbol where
  id : SymbolId
  name : String
  kind : SymbolKind
  type : StaticType
deriving DecidableEq, Repr

namespace Symbol

/-- The local variable with the given id, name and type. -/
def localVariable (id : SymbolId) (name : String) (type : StaticType) : Symbol :=
  ⟨id, name, .localVariable, type⟩

/-- The parameter at the given position. -/
def parameter (id : SymbolId) (name : String) (ordinal : UInt64) (passing : Passing)
    (type : StaticType) : Symbol :=
  ⟨id, name, .parameter ordinal passing, type⟩

/-- The field of an instance. -/
def field (id : SymbolId) (name : String) (type : StaticType) : Symbol :=
  ⟨id, name, .field false, type⟩

/-- The field that all instances share. -/
def staticField (id : SymbolId) (name : String) (type : StaticType) : Symbol :=
  ⟨id, name, .field true, type⟩

/-- The method of an instance. -/
def method (id : SymbolId) (name : String) (returnType : StaticType) : Symbol :=
  ⟨id, name, .method false, returnType⟩

/-- True for members that do not belong to an instance. -/
def isStatic (symbol : Symbol) : Bool :=
  match symbol.kind with
  | .field isStatic | .property isStatic | .method isStatic => isStatic
  | .localVariable | .parameter _ _ | .localFunction => false

/-- How a parameter is passed.  All other symbols count as passed by value. -/
def passing (symbol : Symbol) : Passing :=
  match symbol.kind with
  | .parameter _ passing => passing
  | _ => .byValue

end Symbol
end HeapFlow
