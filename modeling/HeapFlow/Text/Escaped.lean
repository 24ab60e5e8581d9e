import HeapFlow.Text.Visible

/-! # Escaped texts

A text in a message stands in quotes, with everything escaped that would not be seen as it is:
quotes and backslashes, and the characters that are not visible, some by a letter and the others by
their number.
-/
namespace HeapFlow
namespace Escaped

/-- A character as it is written in an escaped text. -/
def escapeChar (c : Char) : List Char :=
  match c with
  | '\x00' => ['\\', '0']
  | '\t' => ['\\', 't']
  | '\r' => ['\\', 'r']
  | '\n' => ['\\', 'n']
  | '"' => ['\\', '"']
  | '\\' => ['\\', '\\']
  | _ =>
    if Visible.isVisible c then [c]
    else "\\u\x7b".toList ++ Nat.toDigits 16 c.toNat ++ "\x7d".toList

/-- The escaped text in quotes. -/
def quote (s : String) : String := String.ofList ('"' :: (s.toList.flatMap escapeChar ++ ['"']))

end Escaped
end HeapFlow
