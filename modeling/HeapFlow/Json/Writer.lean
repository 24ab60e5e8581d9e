import HeapFlow.Json.Basic

/-! # Writing JSON texts

`Json.toText` writes a value without any blank space.  In strings a quote, a backslash and the
control characters are escaped, the common ones by a letter, and all else stands for itself.
-/
namespace HeapFlow
namespace Json

/-- The digit that stands for a number below sixteen. -/
def hexDigit (n : Nat) : Char := Nat.digitChar n

/-- A character as it is written inside a string. -/
def quoteChar (c : Char) : List Char :=
  match c with
  | '"' => ['\\', '"']
  | '\\' => ['\\', '\\']
  | '\x08' => ['\\', 'b']
  | '\x0c' => ['\\', 'f']
  | '\n' => ['\\', 'n']
  | '\r' => ['\\', 'r']
  | '\t' => ['\\', 't']
  | _ =>
    if c < ' ' then ['\\', 'u', '0', '0', hexDigit (c.toNat / 16), hexDigit (c.toNat % 16)]
    else [c]

/-- A string in quotes.  A string without a text is written as a surrogate on its own. -/
def quote : Option String → List Char
  | some s => '"' :: (s.toList.flatMap quoteChar ++ ['"'])
  | none => "\"\\ud800\"".toList

/-- A number as it is written. -/
def writeNumeral (n : Numeral) : List Char :=
  let sign := if n.negative then ['-'] else []
  let fraction := if n.fraction.isEmpty then [] else '.' :: n.fraction.map Nat.digitChar
  let exponent := match n.exponent with
    | none => []
    | some power => 'e' :: (toString power).toList
  sign ++ Nat.toDigits 10 n.whole ++ fraction ++ exponent

mutual

/-- The characters of a value. -/
def write : Json → List Char
  | .null => "null".toList
  | .bool true => "true".toList
  | .bool false => "false".toList
  | .number n => writeNumeral n
  | .string text => quote text
  | .array items => '[' :: (writeItems items ++ [']'])
  | .object members => '{' :: (writeMembers members ++ ['}'])

/-- The items of an array, with commas between them. -/
def writeItems : List Json → List Char
  | [] => []
  | [item] => item.write
  | item :: items => item.write ++ ',' :: writeItems items

/-- The members of an object, with commas between them. -/
def writeMembers : List (Option String × Json) → List Char
  | [] => []
  | [(name, value)] => quote name ++ ':' :: value.write
  | (name, value) :: members => quote name ++ ':' :: (value.write ++ ',' :: writeMembers members)

end

/-- The text of a value. -/
def toText (value : Json) : String := String.ofList value.write

end Json
end HeapFlow
