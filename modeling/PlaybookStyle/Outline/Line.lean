/-
Logical lines: the lines that carry structure.

Blank lines, full-line comments and document markers are no logical lines. A
logical line knows its number, the spaces before its text, and the text without
trailing blanks.
-/

import PlaybookStyle.Text.Blank
import PlaybookStyle.Text.Lines

namespace PlaybookStyle.Outline

open Text

structure LogicalLine where
  number : Nat
  indent : Nat
  text : List Char
deriving DecidableEq, Repr, Inhabited

/-- Lines between documents and before the first one. -/
def isDocumentMarker (text : List Char) : Bool :=
  text == "---".toList || text == "...".toList || "--- ".toList.isPrefixOf text ||
    "%YAML".toList.isPrefixOf text || "%TAG".toList.isPrefixOf text

/-- A line that carries structure, read from a source line. -/
def LogicalLine.ofLine? (number : Nat) (line : List Char) : Option LogicalLine :=
  let line := trimEnd line
  let text := line.dropWhile (· == ' ')
  let indent := (line.takeWhile (· == ' ')).length
  match trimStart line with
  | [] => none
  | '#' :: _ => none
  | content => if indent = 0 && isDocumentMarker content then none else some ⟨number, indent, text⟩

/-- The logical lines among source lines numbered from `number`. -/
def LogicalLine.ofLines (number : Nat) : List (List Char) → List LogicalLine
  | [] => []
  | line :: rest => (LogicalLine.ofLine? number line).toList ++ ofLines (number + 1) rest

/-- The logical lines of a text. -/
def LogicalLine.ofText (text : List Char) : List LogicalLine := ofLines 1 (splitLines text)

/-- A dash that opens an item stands at the start of a text. -/
def isItem : List Char → Bool
  | ['-'] => true
  | '-' :: ' ' :: _ => true
  | _ => false

end PlaybookStyle.Outline
