/-
The line view of a source text.

`SourceLines` answers two questions: what stands on a line, and how many blank
lines separate a line from the content before it. Comment lines in between are
passed over without ending the count. `blankLinesAbove` is the count as a
recursion over the lines above, nearest first.
-/

import PlaybookStyle.Text.Blank
import PlaybookStyle.Text.Lines

namespace PlaybookStyle

open Text

/-- The lines of a source text, without line ends. -/
structure SourceLines where
  lines : List (List Char)
deriving DecidableEq, Repr, Inhabited

namespace SourceLines

/-- The line view of a text; trailing carriage returns are no part of a line. -/
def ofText (text : List Char) : SourceLines :=
  ⟨(splitLines text).map (trimEndOf (· == '\r'))⟩

def empty : SourceLines := ⟨[]⟩

/-- The number of lines. -/
def size (source : SourceLines) : Nat := source.lines.length

/-- The line with a number, counted from one. -/
def line? (source : SourceLines) : Nat → Option (List Char)
  | 0 => none
  | n + 1 => source.lines[n]?

/-- Every line with its number. -/
def numbered (source : SourceLines) : List (Nat × List Char) :=
  (List.range' 1 source.size).zip source.lines

/-- Blank lines among the lines above, nearest first, up to the first content. -/
def blankLinesAbove : List (List Char) → Nat
  | [] => 0
  | above :: rest =>
    match trim above with
    | [] => blankLinesAbove rest + 1
    | '#' :: _ => blankLinesAbove rest
    | _ => 0

/-- Blank lines between a line and the content line before it. Past the end of
the text, the line above has to exist for anything to be counted. -/
def blankLinesBefore (source : SourceLines) (line : Nat) : Nat :=
  if line - 1 ≤ source.size then blankLinesAbove (source.lines.take (line - 1)).reverse else 0

end SourceLines

end PlaybookStyle
