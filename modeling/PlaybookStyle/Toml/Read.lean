/-
Reading TOML.

A document is a sequence of lines, each of which is empty, sets a value under a
key, or names the table that the following keys belong to. Values nest less than
eighty deep, and a key has less than eighty parts.
-/

import PlaybookStyle.Toml.Table
import PlaybookStyle.Toml.Text
import PlaybookStyle.Toml.Word

namespace PlaybookStyle.Toml

/-! ### Blanks, comments and line ends -/

def isBlank (c : Char) : Bool := c = ' ' || c = '\t'

def skipBlanks (text : List Char) : List Char := text.dropWhile isBlank

/-- A character of a comment. -/
def isCommentChar (c : Char) : Bool := !isControl c

/-- The rest behind blanks, perhaps a comment, and a line end or the end of the
text; nothing else may stand there. -/
def lineEnd? (text : List Char) : Option (List Char) :=
  let rest := match skipBlanks text with
    | '#' :: comment => comment.dropWhile isCommentChar
    | rest => rest
  match rest with
  | [] => some []
  | '\n' :: rest | '\r' :: '\n' :: rest => some rest
  | _ => none

/-- The rest behind blanks, comments and line ends; `fuel` bounds the lines. -/
def skipLines : Nat → List Char → List Char
  | 0, text => text
  | fuel + 1, text =>
    match skipBlanks text with
    | '\n' :: rest | '\r' :: '\n' :: rest => skipLines fuel rest
    | '#' :: comment => skipLines fuel (comment.dropWhile isCommentChar)
    | rest => rest

/-! ### Keys -/

def isBareChar (c : Char) : Bool := c.isAlphanum || c = '_' || c = '-'

/-- A key without dots at the start of a text, and the rest. -/
def simpleKey? (text : List Char) : Option (String × List Char) :=
  match text with
  | '"' :: rest => (basic? rest).map fun (key, rest) => (String.ofList key, rest)
  | '\'' :: rest => (literal? rest).map fun (key, rest) => (String.ofList key, rest)
  | text =>
    let key := text.takeWhile isBareChar
    if key.isEmpty then none else some (String.ofList key, text.drop key.length)

/-- Collections nest less deep than this. -/
def maximalDepth : Nat := 80

/-- The parts of a key between dots, at most `count` of them, and the rest. -/
def parts? : (count : Nat) → List Char → Option (List String × List Char)
  | 0, _ => none
  | count + 1, text => do
    let (key, after) ← simpleKey? (skipBlanks text)
    match skipBlanks after with
    | '.' :: rest =>
      let (path, rest) ← parts? count rest
      return (key :: path, rest)
    | rest => return ([key], rest)

/-- A key and the rest. Its parts are tables in each other, like collections. -/
def key? (text : List Char) : Option (List String × List Char) := parts? (maximalDepth - 1) text

/-! ### Values -/

/-- A value that is no collection, and the rest. -/
def simpleValue? (text : List Char) : Option (Value × List Char) :=
  match text with
  | '"' :: _ | '\'' :: _ =>
    (string? text).map fun (content, rest) => (.string (String.ofList content), rest)
  | text =>
    let (word, rest) := splitWord text
    if word = "true".toList then some (.boolean true, rest)
    else if word = "false".toList then some (.boolean false, rest)
    else if isInteger word || isFraction word then some (.number, rest)
    else if isMoment word then some (.moment, rest)
    else none

mutual

/-- A value at the start of a text, and the rest; `fuel` bounds the values that
are read, `depth` how deep collections nest. -/
def value? : Nat → Nat → List Char → Option (Value × List Char)
  | 0, _, _ => none
  | fuel + 1, depth, text =>
    match text with
    | '[' :: rest =>
      if depth + 1 < maximalDepth then do
        let (items, rest) ← items? fuel (depth + 1) rest
        return (.list items, rest)
      else none
    | '\x7b' :: rest =>
      if depth + 1 < maximalDepth then do
        let (members, rest) ← match skipBlanks rest with
          | '\x7d' :: rest => some ([], rest)
          | rest => members? fuel (depth + 1) [] rest
        return (.table (valuesOf members), rest)
      else none
    | text => simpleValue? text

/-- Items up to the bracket; a comma may stand behind the last. -/
def items? : Nat → Nat → List Char → Option (List Value × List Char)
  | 0, _, _ => none
  | fuel + 1, depth, text =>
    match skipLines text.length text with
    | ']' :: rest => some ([], rest)
    | text => do
      let (item, after) ← value? fuel depth text
      match skipLines after.length after with
      | ']' :: rest => return ([item], rest)
      | ',' :: rest =>
        let (items, rest) ← items? fuel depth rest
        return (item :: items, rest)
      | _ => none

/-- One or more members on one line up to the brace. -/
def members? : Nat → Nat → Members → List Char → Option (Members × List Char)
  | 0, _, _, _ => none
  | fuel + 1, depth, members, text => do
    let (path, after) ← key? text
    match after with
    | '=' :: rest =>
      let (value, after) ← value? fuel depth (skipBlanks rest)
      let members ← assign members value path
      match skipBlanks after with
      | '\x7d' :: rest => return (members, rest)
      | ',' :: rest => members? fuel depth members rest
      | _ => none
    | _ => none

end

/-! ### Documents -/

/-- What stands at the start of a document's line. -/
inductive Statement where
  | nothing
  | assignment (path : List String) (value : Value)
  | table (path : List String)
  | next (path : List String)

/-- A statement, and the rest of its line. -/
def statement? (text : List Char) : Option (Statement × List Char) :=
  match text with
  | '[' :: '[' :: rest => do
    let (path, after) ← key? rest
    match after with
    | ']' :: ']' :: rest => return (.next path, rest)
    | _ => none
  | '[' :: rest => do
    let (path, after) ← key? rest
    match after with
    | ']' :: rest => return (.table path, rest)
    | _ => none
  | [] | '#' :: _ | '\n' :: _ | '\r' :: _ => some (.nothing, text)
  | text => do
    let (path, after) ← key? text
    match after with
    | '=' :: rest =>
      let (value, rest) ← value? (rest.length + 1) 0 (skipBlanks rest)
      return (.assignment path value, rest)
    | _ => none

/-- The tables of a document and the way to the open one. -/
structure Building where
  members : Members
  current : List String

/-- Does what a statement says, if it may be done. -/
def Building.apply? (b : Building) : Statement → Option Building
  | .nothing => some b
  | .assignment path value => do
    let members ← descend (assign · value path) b.members b.current
    return { b with members }
  | .table path => do
    let members ← descend (openTable (path.getLast?.getD "")) b.members path.dropLast
    return ⟨members, path⟩
  | .next path => do
    let members ← descend (openNext (path.getLast?.getD "")) b.members path.dropLast
    return ⟨members, path⟩

/-- Reads the lines of a document; `fuel` bounds their number. -/
def Building.read? (b : Building) : Nat → List Char → Option Building
  | 0, _ => some b
  | fuel + 1, text => do
    let (statement, after) ← statement? (skipBlanks text)
    let b ← b.apply? statement
    match ← lineEnd? after with
    | [] => return b
    | rest => b.read? fuel rest

/-- The table that a text is; a byte order mark may stand before it. -/
def read? (text : String) : Option Value := do
  let chars := match text.toList with
    | '\ufeff' :: rest => rest
    | chars => chars
  let built ← Building.read? ⟨[], []⟩ (chars.length + 1) chars
  return .table (valuesOf built.members)

end PlaybookStyle.Toml
