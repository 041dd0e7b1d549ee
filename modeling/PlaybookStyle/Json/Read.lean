/-
Reading JSON.

A text is one value between blanks. Numbers are recognised and not computed;
members keep their order and may repeat. A string or key whose escapes name half
of a surrogate pair has no text, which matters only where its text is asked for.
-/

import PlaybookStyle.Json.Value
import PlaybookStyle.Yaml.Scalar

namespace PlaybookStyle.Json

/-! ### Blanks and numbers -/

def isBlank (c : Char) : Bool := c = ' ' || c = '\n' || c = '\t' || c = '\r'

def skipBlanks (text : List Char) : List Char := text.dropWhile isBlank

/-- The rest behind one or more digits. -/
def skipDigits? (text : List Char) : Option (List Char) :=
  match text with
  | c :: rest => if c.isDigit then some (rest.dropWhile Char.isDigit) else none
  | [] => none

/-- The rest behind the whole part of a number: a zero, or digits without one in
front. -/
def skipWhole? : List Char → Option (List Char)
  | '0' :: rest => some rest
  | text => skipDigits? text

def skipFraction? : List Char → Option (List Char)
  | '.' :: rest => skipDigits? rest
  | text => some text

def skipExponent? : List Char → Option (List Char)
  | c :: rest =>
    if c = 'e' || c = 'E' then
      match rest with
      | '+' :: digits | '-' :: digits => skipDigits? digits
      | digits => skipDigits? digits
    else some (c :: rest)
  | [] => some []

/-- The rest behind a number. -/
def skipNumber? (text : List Char) : Option (List Char) := do
  let unsigned := match text with
    | '-' :: rest => rest
    | text => text
  skipExponent? (← skipFraction? (← skipWhole? unsigned))

/-! ### Strings -/

/-- The number that four hexadecimal digits write. -/
def codeUnit? (a b c d : Char) : Option Nat := Yaml.digits? 16 [a, b, c, d]

/-- The character that a letter behind a backslash stands for. -/
def unescaped? : Char → Option Char
  | '"' => some '"'
  | '\\' => some '\\'
  | '/' => some '/'
  | 'b' => some '\x08'
  | 'f' => some '\x0c'
  | 'n' => some '\n'
  | 'r' => some '\r'
  | 't' => some '\t'
  | _ => none

/-- The code units of a string behind its first quote and the rest behind its
last; characters are kept as they are. -/
def units? : List Char → Option (List (Nat ⊕ Char) × List Char)
  | [] => none
  | '"' :: rest => some ([], rest)
  | '\\' :: 'u' :: a :: b :: c :: d :: rest => do
    let unit ← codeUnit? a b c d
    let (units, after) ← units? rest
    return (.inl unit :: units, after)
  | '\\' :: e :: rest => do
    let c ← unescaped? e
    let (units, after) ← units? rest
    return (.inr c :: units, after)
  | c :: rest =>
    if c.toNat < 32 then none
    else do
      let (units, after) ← units? rest
      return (.inr c :: units, after)

/-- The characters of code units; none if half of a pair stands alone. -/
def charsOfUnits? : List (Nat ⊕ Char) → Option (List Char)
  | [] => some []
  | .inr c :: rest => (charsOfUnits? rest).map (c :: ·)
  | .inl high :: .inl low :: rest =>
    if 0xd800 ≤ high && high < 0xdc00 then
      if 0xdc00 ≤ low && low < 0xe000 then
        (charsOfUnits? rest).map
          (Char.ofNat (0x10000 + (high - 0xd800) * 0x400 + (low - 0xdc00)) :: ·)
      else none
    else if 0xdc00 ≤ high && high < 0xe000 then none
    else (charsOfUnits? (.inl low :: rest)).map (Char.ofNat high :: ·)
  | .inl unit :: rest =>
    if 0xd800 ≤ unit && unit < 0xe000 then none
    else (charsOfUnits? rest).map (Char.ofNat unit :: ·)

/-- The text of a string's code units. -/
def textOfUnits? (units : List (Nat ⊕ Char)) : Option String :=
  (charsOfUnits? units).map String.ofList

/-! ### Values -/

mutual

/-- A value at the start of a text, and the rest; `fuel` bounds the values and
members that are read. -/
def value? : Nat → List Char → Option (Value × List Char)
  | 0, _ => none
  | fuel + 1, text =>
    match skipBlanks text with
    | '"' :: rest => do
      let (units, after) ← units? rest
      return (.string (textOfUnits? units), after)
    | '[' :: rest =>
      match skipBlanks rest with
      | ']' :: after => some (.list [], after)
      | _ => do
        let (items, after) ← items? fuel rest
        return (.list items, after)
    | '\x7b' :: rest =>
      match skipBlanks rest with
      | '\x7d' :: after => some (.table [], after)
      | _ => do
        let (members, after) ← members? fuel rest
        return (.table members, after)
    | 't' :: 'r' :: 'u' :: 'e' :: rest => some (.boolean true, rest)
    | 'f' :: 'a' :: 'l' :: 's' :: 'e' :: rest => some (.boolean false, rest)
    | 'n' :: 'u' :: 'l' :: 'l' :: rest => some (.null, rest)
    | text => (skipNumber? text).map fun rest => (.number, rest)

/-- One or more items up to the bracket. -/
def items? : Nat → List Char → Option (List Value × List Char)
  | 0, _ => none
  | fuel + 1, text => do
    let (item, after) ← value? fuel text
    match skipBlanks after with
    | ']' :: rest => return ([item], rest)
    | ',' :: rest =>
      let (items, rest) ← items? fuel rest
      return (item :: items, rest)
    | _ => none

/-- One or more members up to the brace. -/
def members? : Nat → List Char → Option (List (Option String × Value) × List Char)
  | 0, _ => none
  | fuel + 1, text =>
    match skipBlanks text with
    | '"' :: rest => do
      let (units, after) ← units? rest
      match skipBlanks after with
      | ':' :: rest =>
        let (value, after) ← value? fuel rest
        let member := (textOfUnits? units, value)
        match skipBlanks after with
        | '\x7d' :: rest => return ([member], rest)
        | ',' :: rest =>
          let (members, rest) ← members? fuel rest
          return (member :: members, rest)
        | _ => none
      | _ => none
    | _ => none

end

/-- The value that a text is. -/
def read? (text : String) : Option Value :=
  match value? (text.toList.length + 1) text.toList with
  | some (value, rest) => if (skipBlanks rest).isEmpty then some value else none
  | none => none

end PlaybookStyle.Json
