/-
Indentation: spaces only, an even number of them.

Blank lines, comments and lines whose indentation belongs to a scalar are free.
-/

import PlaybookStyle.Rule.Basic

namespace PlaybookStyle.Rule

open Playbook

/-- A character that indents. -/
def isIndent (c : Char) : Bool := c = ' ' || c = '\t'

/-- What is wrong with the indentation of a line. -/
def indentRemark? (number : Nat) (line : List Char) : Option Remark :=
  let leading := line.takeWhile isIndent
  match line.dropWhile isIndent with
  | [] | '#' :: _ => none
  | _ =>
    if leading.contains '\t' then
      some ⟨⟨number, leading.idxOf '\t' + 1⟩, "Tab character used for indentation",
        some "Indent with spaces"⟩
    else if leading.length % 2 ≠ 0 then
      some ⟨⟨number, 1⟩, s!"Indentation of {leading.length} spaces is not a multiple of two",
        some "Indent nested blocks by two spaces"⟩
    else none

def indentation : Rule where
  id := "indentation"
  description := "Lines are indented with spaces in multiples of two"
  category := .spacing
  severity := .warning
  kinds := [.document]
  remarks _ visit :=
    match visit.part with
    | .document p =>
      if p.encrypted then []
      else
        p.source.numbered.filterMap fun (number, line) =>
          if p.isVerbatim number then none else indentRemark? number line
    | _ => []

end PlaybookStyle.Rule
