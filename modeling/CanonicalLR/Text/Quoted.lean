import CanonicalLR.Text.Invisible

/-!
# Quoted texts

The form `quote s` of a text that shows every character of it: on one line, between double quotes,
a quote, a backslash and the common controls with a backslash before them, any other invisible
character by its code point in lower case hexadecimal digits, and all else as it is.
-/

namespace CanonicalLR.Text

/-- The written form of a code point: its hexadecimal digits between braces, after `\u`. -/
def codePoint (c : Char) : List Char :=
  '\\' :: 'u' :: '\x7b' :: (Nat.toDigits 16 c.toNat ++ ['\x7d'])

/-- The written form of one character. -/
def escape (c : Char) : List Char :=
  match c with
  | '\x00' => ['\\', '0']
  | '\t' => ['\\', 't']
  | '\r' => ['\\', 'r']
  | '\n' => ['\\', 'n']
  | '"' => ['\\', '"']
  | '\\' => ['\\', '\\']
  | c => if isInvisible c then codePoint c else [c]

/-- The written form of a text. -/
def quote (s : String) : String :=
  String.ofList ('"' :: (s.toList.flatMap escape ++ ['"']))

end CanonicalLR.Text
