/-
Written JSON strings.

Quotes, backslashes and control characters are escaped, the common ones by a
letter, the others by four small hexadecimal digits; everything else stands for
itself.
-/

namespace PlaybookStyle.Json

/-- One character between the quotes of a JSON string. -/
def escaped (c : Char) : List Char :=
  match c with
  | '"' => ['\\', '"']
  | '\\' => ['\\', '\\']
  | '\n' => ['\\', 'n']
  | '\r' => ['\\', 'r']
  | '\t' => ['\\', 't']
  | '\x08' => ['\\', 'b']
  | '\x0c' => ['\\', 'f']
  | c =>
    if c.toNat < 32 then
      ['\\', 'u', '0', '0', Nat.digitChar (c.toNat / 16), Nat.digitChar (c.toNat % 16)]
    else [c]

/-- A text as a JSON string. -/
def writtenString (text : String) : String :=
  String.ofList ('"' :: text.toList.flatMap escaped ++ ['"'])

/-- Members of a JSON object, without blanks; the values are written already. -/
def writtenObject (members : List (String × String)) : String :=
  "\x7b" ++ ",".intercalate (members.map fun member =>
    writtenString member.1 ++ ":" ++ member.2) ++ "\x7d"

end PlaybookStyle.Json
