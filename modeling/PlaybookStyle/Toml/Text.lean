/-
TOML strings and what may stand in them.

Basic strings have escapes, literal strings have none; both come in a form that
runs over lines, in which the line end behind the opening quotes is dropped and
up to two quotes may stand before the closing ones.
-/

import PlaybookStyle.Yaml.Scalar

namespace PlaybookStyle.Toml

/-- A control character that only tabs are free of. -/
def isControl (c : Char) : Bool := (c.toNat < 32 && c != '\t') || c.toNat = 127

/-- The character with a number, unless it is none. -/
def scalar? (digits : List Char) : Option Char := do
  let n ← Yaml.digits? 16 digits
  if n < 0xd800 || (0xe000 ≤ n && n < 0x110000) then some (Char.ofNat n) else none

/-- The character that a letter behind a backslash stands for. -/
def unescaped? : Char → Option Char
  | 'b' => some '\x08'
  | 't' => some '\t'
  | 'n' => some '\n'
  | 'f' => some '\x0c'
  | 'r' => some '\r'
  | '"' => some '"'
  | '\\' => some '\\'
  | _ => none

/-- Puts a character before the content that was read. -/
def before (c : Char) (read : List Char × List Char) : List Char × List Char :=
  (c :: read.1, read.2)

/-! ### Strings on one line -/

/-- The content of a basic string behind its quote, and the rest behind the
closing one. -/
def basic? : List Char → Option (List Char × List Char)
  | [] => none
  | '"' :: rest => some ([], rest)
  | '\\' :: 'u' :: a :: b :: c :: d :: rest => do
    return before (← scalar? [a, b, c, d]) (← basic? rest)
  | '\\' :: 'U' :: a :: b :: c :: d :: e :: f :: g :: h :: rest => do
    return before (← scalar? [a, b, c, d, e, f, g, h]) (← basic? rest)
  | '\\' :: e :: rest => do
    return before (← unescaped? e) (← basic? rest)
  | c :: rest => if isControl c then none else (basic? rest).map (before c)

/-- The content of a literal string behind its quote, and the rest behind the
closing one. -/
def literal? : List Char → Option (List Char × List Char)
  | [] => none
  | '\'' :: rest => some ([], rest)
  | c :: rest => if isControl c then none else (literal? rest).map (before c)

/-! ### Strings over lines -/

/-- A text without the line end at its start. -/
def dropLineEnd : List Char → List Char
  | '\n' :: rest => rest
  | '\r' :: '\n' :: rest => rest
  | text => text

/-- How a backslash at the end of a line is read: blanks up to a line end, then
all blanks and line ends. -/
inductive Joining where
  | no
  | line
  | lines
deriving DecidableEq

/-- The content of a basic string over lines, and the rest. Without a joined
line end, `joining` is `no`. -/
def basicLines? (joining : Joining) : List Char → Option (List Char × List Char)
  | [] => none
  | '\r' :: '\n' :: rest =>
    match joining with
    | .no => (basicLines? .no rest).map (before '\n')
    | _ => basicLines? .lines rest
  | '\n' :: rest =>
    match joining with
    | .no => (basicLines? .no rest).map (before '\n')
    | _ => basicLines? .lines rest
  | '"' :: '"' :: '"' :: '"' :: '"' :: rest =>
    if joining = .line then none else some (['"', '"'], rest)
  | '"' :: '"' :: '"' :: '"' :: rest => if joining = .line then none else some (['"'], rest)
  | '"' :: '"' :: '"' :: rest => if joining = .line then none else some ([], rest)
  | '\\' :: 'u' :: a :: b :: c :: d :: rest => do
    if joining = .line then none
    else return before (← scalar? [a, b, c, d]) (← basicLines? .no rest)
  | '\\' :: 'U' :: a :: b :: c :: d :: e :: f :: g :: h :: rest => do
    if joining = .line then none
    else return before (← scalar? [a, b, c, d, e, f, g, h]) (← basicLines? .no rest)
  | '\\' :: e :: rest => do
    if joining = .line then none
    else
      match unescaped? e with
      | some c => return before c (← basicLines? .no rest)
      | none =>
        if e = ' ' || e = '\t' then basicLines? .line rest
        else if e = '\n' then basicLines? .lines rest
        else if e = '\r' then
          match rest with
          | '\n' :: _ => basicLines? .line rest
          | _ => none
        else none
  | c :: rest =>
    if (c = ' ' || c = '\t') && joining ≠ .no then basicLines? joining rest
    else if isControl c || joining = .line then none
    else (basicLines? .no rest).map (before c)

/-- The content of a literal string over lines, and the rest. -/
def literalLines? : List Char → Option (List Char × List Char)
  | [] => none
  | '\r' :: '\n' :: rest => (literalLines? rest).map (before '\n')
  | '\n' :: rest => (literalLines? rest).map (before '\n')
  | '\'' :: '\'' :: '\'' :: '\'' :: '\'' :: rest => some (['\'', '\''], rest)
  | '\'' :: '\'' :: '\'' :: '\'' :: rest => some (['\''], rest)
  | '\'' :: '\'' :: '\'' :: rest => some ([], rest)
  | c :: rest => if isControl c then none else (literalLines? rest).map (before c)

/-- A string of any form at the start of a text, and the rest. -/
def string? : List Char → Option (List Char × List Char)
  | '"' :: '"' :: '"' :: rest => basicLines? .no (dropLineEnd rest)
  | '"' :: rest => basic? rest
  | '\'' :: '\'' :: '\'' :: rest => literalLines? (dropLineEnd rest)
  | '\'' :: rest => literal? rest
  | _ => none

end PlaybookStyle.Toml
