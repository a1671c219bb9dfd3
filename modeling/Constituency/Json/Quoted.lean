/-!
# Quoted text

A text is written between quotation marks. The quotation mark, the backslash and the control
characters below U+0020 are escaped, five of the latter by a letter and the others by their number
in four hexadecimal digits; every other character stands for itself.
-/

namespace Constituency.Json

/-- A hexadecimal digit below sixteen, in lower case. -/
def lowerHexDigit (digit : Nat) : Char :=
  Char.ofNat (if digit < 10 then '0'.toNat + digit else 'a'.toNat + (digit - 10))

/-- A character as it is written between quotation marks. -/
def escaped (c : Char) : List Char :=
  match c with
  | '\"' => ['\\', '\"']
  | '\\' => ['\\', '\\']
  | '\n' => ['\\', 'n']
  | '\r' => ['\\', 'r']
  | '\t' => ['\\', 't']
  | '\x08' => ['\\', 'b']
  | '\x0c' => ['\\', 'f']
  | _ =>
    if c.toNat < 0x20 then
      ['\\', 'u', '0', '0', lowerHexDigit (c.toNat / 16), lowerHexDigit (c.toNat % 16)]
    else [c]

/-- A text between quotation marks. -/
def quoted (text : String) : String :=
  String.ofList ('\"' :: text.toList.flatMap escaped ++ ['\"'])

end Constituency.Json
