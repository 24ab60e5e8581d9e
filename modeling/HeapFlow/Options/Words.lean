import HeapFlow.Text.Blank

/-! # Splitting a line into words

Words are separated by blank characters.  Within single quotes all characters stand for themselves,
within double quotes a backslash protects a few of them, and elsewhere a backslash protects any
character but the end of a line.  Quoted and unquoted pieces that touch each other are one word.
-/
namespace HeapFlow
namespace Words

/-- Where a character stands. -/
inductive Place where
  /-- Between words. -/
  | between
  /-- In a word, outside of quotes. -/
  | plain
  /-- Behind a backslash outside of quotes. -/
  | protectedPlain
  /-- Within single quotes. -/
  | single
  /-- Within double quotes. -/
  | double
  /-- Behind a backslash within double quotes. -/
  | protectedDouble
deriving DecidableEq, Repr

/-- True for the characters that a backslash protects within double quotes. -/
def isSpecial (c : Char) : Bool := c == '$' || c == '\x60' || c == '"' || c == '\\'

/-- Reads on in the middle of a line: the words of the rest, the first of which continues the
given beginning unless the place is between words.  The beginning has its last character first.
There are no words if a quote is not closed. -/
def splitFrom : Place → List Char → List Char → Option (List String)
  | .between, _, [] => some []
  | .plain, word, [] => some [String.ofList word.reverse]
  | .protectedPlain, word, [] => some [String.ofList ('\\' :: word).reverse]
  | .single, _, [] | .double, _, [] | .protectedDouble, _, [] => none
  | .single, word, c :: cs =>
    if c = '\'' then splitFrom .plain word cs else splitFrom .single (c :: word) cs
  | .double, word, c :: cs =>
    if c = '"' then splitFrom .plain word cs
    else if c = '\\' then splitFrom .protectedDouble word cs
    else splitFrom .double (c :: word) cs
  | .protectedDouble, word, c :: cs =>
    if c = '\n' then none
    else if isSpecial c then splitFrom .double (c :: word) cs
    else splitFrom .double (c :: '\\' :: word) cs
  | .protectedPlain, word, c :: cs =>
    if c = '\n' then
      (String.ofList ('\\' :: word).reverse :: ·) <$> splitFrom .between [] cs
    else splitFrom .plain (c :: word) cs
  | .plain, word, c :: cs =>
    if Blank.isBlank c then (String.ofList word.reverse :: ·) <$> splitFrom .between [] cs
    else if c = '\'' then splitFrom .single word cs
    else if c = '"' then splitFrom .double word cs
    else if c = '\\' then splitFrom .protectedPlain word cs
    else splitFrom .plain (c :: word) cs
  | .between, _, c :: cs =>
    if Blank.isBlank c then splitFrom .between [] cs
    else if c = '\'' then splitFrom .single [] cs
    else if c = '"' then splitFrom .double [] cs
    else if c = '\\' then splitFrom .protectedPlain [] cs
    else splitFrom .plain [c] cs

/-- The words of a line, none if a quote is not closed. -/
def split? (line : String) : Option (List String) := splitFrom .between [] line.toList

end Words
end HeapFlow
