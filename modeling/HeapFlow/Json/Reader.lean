import HeapFlow.Json.Basic

/-! # Reading JSON texts

`Json.ofText?` reads a strict JSON text: one value with blank space around it and nothing else.
Strings go through two stages, first the pieces that are written, then the characters that they
denote, because a character beyond the basic plane may be written as two escapes.

A text that is cut off or turns bad somewhere still has a readable beginning.  `Json.leading`
gives the items or members of the outermost array or object that are complete; some readers can
answer from these alone.

The reading functions carry a bound on the number of their calls.  Every call consumes a character
or is made by one that does, so twice the length of the text is always enough.
-/
namespace HeapFlow
namespace Json

/-- The four characters that may stand between the parts of a text. -/
def isBlank (c : Char) : Bool := c == ' ' || c == '\n' || c == '\r' || c == '\t'

/-- The rest of a text behind its leading blank space. -/
def skipBlank (cs : List Char) : List Char := cs.dropWhile isBlank

/-! ## Strings -/

/-- A part of a string: a character, or the code unit of a numeric escape. -/
inductive Piece where
  | char (c : Char)
  | unit (n : Nat)
deriving DecidableEq, Repr

/-- The value of a hexadecimal digit. -/
def hexDigit? (c : Char) : Option Nat :=
  if '0' ≤ c ∧ c ≤ '9' then some (c.toNat - '0'.toNat)
  else if 'a' ≤ c ∧ c ≤ 'f' then some (c.toNat - 'a'.toNat + 10)
  else if 'A' ≤ c ∧ c ≤ 'F' then some (c.toNat - 'A'.toNat + 10)
  else none

/-- The character that a one letter escape stands for. -/
def escape? : Char → Option Char
  | '"' => some '"'
  | '\\' => some '\\'
  | '/' => some '/'
  | 'b' => some '\x08'
  | 'f' => some '\x0c'
  | 'n' => some '\n'
  | 'r' => some '\r'
  | 't' => some '\t'
  | _ => none

/-- The pieces up to the closing quote, and what follows it.  Control characters have to be
escaped. -/
def pieces? : List Char → Option (List Piece × List Char)
  | [] => none
  | '"' :: rest => some ([], rest)
  | '\\' :: 'u' :: a :: b :: c :: d :: rest => do
    let a ← hexDigit? a
    let b ← hexDigit? b
    let c ← hexDigit? c
    let d ← hexDigit? d
    let (pieces, rest) ← pieces? rest
    return (.unit (((a * 16 + b) * 16 + c) * 16 + d) :: pieces, rest)
  | '\\' :: c :: rest => do
    let c ← escape? c
    let (pieces, rest) ← pieces? rest
    return (.char c :: pieces, rest)
  | c :: rest =>
    if c < ' ' || c == '\\' then none
    else do
      let (pieces, rest) ← pieces? rest
      return (.char c :: pieces, rest)

/-- True for the first half of a surrogate pair. -/
def isHighSurrogate (n : Nat) : Bool := 0xD800 ≤ n && n < 0xDC00

/-- True for the second half of a surrogate pair. -/
def isLowSurrogate (n : Nat) : Bool := 0xDC00 ≤ n && n < 0xE000

/-- The characters that the pieces denote, none if a surrogate is not part of a pair. -/
def joinPieces? : List Piece → Option (List Char)
  | [] => some []
  | .char c :: pieces => (c :: ·) <$> joinPieces? pieces
  | .unit high :: .unit low :: pieces =>
    if isHighSurrogate high && isLowSurrogate low then
      (Char.ofNat (0x10000 + (high - 0xD800) * 0x400 + (low - 0xDC00)) :: ·) <$>
        joinPieces? pieces
    else if isHighSurrogate high || isLowSurrogate high then none
    else (Char.ofNat high :: ·) <$> joinPieces? (.unit low :: pieces)
  | .unit n :: pieces =>
    if isHighSurrogate n || isLowSurrogate n then none
    else (Char.ofNat n :: ·) <$> joinPieces? pieces

/-- Reads a string behind its opening quote. -/
def readString? (cs : List Char) : Option (Option String × List Char) := do
  let (pieces, rest) ← pieces? cs
  return (String.ofList <$> joinPieces? pieces, rest)

/-! ## Numbers -/

/-- True for the ten decimal digits. -/
def isDigit (c : Char) : Bool := '0' ≤ c && c ≤ '9'

/-- The leading decimal digits and what follows them. -/
def readDigits (cs : List Char) : List Nat × List Char :=
  ((cs.takeWhile isDigit).map fun c => c.toNat - '0'.toNat, cs.dropWhile isDigit)

/-- The number that the digits denote. -/
def ofDigits (digits : List Nat) : Nat := digits.foldl (fun n d => n * 10 + d) 0

/-- The part of a number before the point.  No digit follows a leading zero. -/
def readWhole? (cs : List Char) : Option (Nat × List Char) :=
  match cs with
  | '0' :: rest => some (0, rest)
  | _ =>
    match readDigits cs with
    | ([], _) => none
    | (digits, rest) => some (ofDigits digits, rest)

/-- The digits behind the point, if there is a point. -/
def readFraction? : List Char → Option (List Nat × List Char)
  | '.' :: rest =>
    match readDigits rest with
    | ([], _) => none
    | (digits, rest) => some (digits, rest)
  | rest => some ([], rest)

/-- The digits of an exponent behind its sign. -/
def readPower? (sign : Int) (cs : List Char) : Option (Option Int × List Char) :=
  match readDigits cs with
  | ([], _) => none
  | (digits, rest) => some (some (sign * ofDigits digits), rest)

/-- The exponent, if there is one. -/
def readExponent? : List Char → Option (Option Int × List Char)
  | [] => some (none, [])
  | c :: rest =>
    if c == 'e' || c == 'E' then
      match rest with
      | '+' :: rest => readPower? 1 rest
      | '-' :: rest => readPower? (-1) rest
      | rest => readPower? 1 rest
    else some (none, c :: rest)

/-- Reads a number. -/
def readNumeral? (cs : List Char) : Option (Numeral × List Char) := do
  let (negative, cs) := match cs with
    | '-' :: rest => (true, rest)
    | cs => (false, cs)
  let (whole, cs) ← readWhole? cs
  let (fraction, cs) ← readFraction? cs
  let (exponent, cs) ← readExponent? cs
  return (⟨negative, whole, fraction, exponent⟩, cs)

/-! ## Values -/

mutual

/-- Reads a value, and returns what follows it. -/
def readValue? : Nat → List Char → Option (Json × List Char)
  | 0, _ => none
  | bound + 1, cs =>
    match skipBlank cs with
    | '"' :: rest => do
      let (text, rest) ← readString? rest
      return (.string text, rest)
    | '[' :: rest =>
      match skipBlank rest with
      | ']' :: rest => some (.array [], rest)
      | _ =>
        match readItems bound rest with
        | (items, some rest) => some (.array items, rest)
        | (_, none) => none
    | '{' :: rest =>
      match skipBlank rest with
      | '}' :: rest => some (.object [], rest)
      | _ =>
        match readMembers bound rest with
        | (members, some rest) => some (.object members, rest)
        | (_, none) => none
    | 'n' :: 'u' :: 'l' :: 'l' :: rest => some (.null, rest)
    | 't' :: 'r' :: 'u' :: 'e' :: rest => some (.bool true, rest)
    | 'f' :: 'a' :: 'l' :: 's' :: 'e' :: rest => some (.bool false, rest)
    | cs => do
      let (n, rest) ← readNumeral? cs
      return (.number n, rest)

/-- Reads the items of an array that is not empty.  Returns the items that are complete, and what
follows the closing bracket if the array is closed. -/
def readItems : Nat → List Char → List Json × Option (List Char)
  | 0, _ => ([], none)
  | bound + 1, cs =>
    match readValue? bound cs with
    | none => ([], none)
    | some (item, rest) =>
      match skipBlank rest with
      | ']' :: rest => ([item], some rest)
      | ',' :: rest =>
        let (items, rest) := readItems bound rest
        (item :: items, rest)
      | _ => ([item], none)

/-- Reads the members of an object that is not empty.  Returns the members that are complete, and
what follows the closing brace if the object is closed. -/
def readMembers : Nat → List Char → List (Option String × Json) × Option (List Char)
  | 0, _ => ([], none)
  | bound + 1, cs =>
    match skipBlank cs with
    | '"' :: rest =>
      match readString? rest with
      | none => ([], none)
      | some (name, rest) =>
        match skipBlank rest with
        | ':' :: rest =>
          match readValue? bound rest with
          | none => ([], none)
          | some (value, rest) =>
            match skipBlank rest with
            | '}' :: rest => ([(name, value)], some rest)
            | ',' :: rest =>
              let (members, rest) := readMembers bound rest
              ((name, value) :: members, rest)
            | _ => ([(name, value)], none)
        | _ => ([], none)
    | _ => ([], none)

end

/-- A number of calls that suffices for reading a value from the given characters. -/
def callBound (cs : List Char) : Nat := 2 * cs.length + 2

/-- The value of a JSON text, none if the text is not JSON. -/
def ofText? (text : String) : Option Json := do
  let cs := text.toList
  let (value, rest) ← readValue? (callBound cs) cs
  guard (skipBlank rest).isEmpty
  return value

/-- The beginning of an array or an object: the items or members that are complete. -/
inductive Leading where
  | items (items : List Json)
  | members (members : List (Option String × Json))
  | nothing

/-- The complete parts of the outermost array or object of a text, wherever the text ends or stops
being JSON. -/
def leading (text : String) : Leading :=
  match skipBlank text.toList with
  | '[' :: rest => .items (readItems (callBound rest) rest).1
  | '{' :: rest => .members (readMembers (callBound rest) rest).1
  | _ => .nothing

/-- All parts of an array or an object. -/
def parts : Json → Leading
  | .array items => .items items
  | .object members => .members members
  | _ => .nothing

end Json
end HeapFlow
