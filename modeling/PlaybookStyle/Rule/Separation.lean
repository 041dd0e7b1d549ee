/-
Blank lines between neighbours in a list.

Plays and tasks stand apart. Of two includes in a row, they stand apart exactly
if one of them has more than one line.
-/

import PlaybookStyle.Rule.Basic

namespace PlaybookStyle.Rule

open Playbook

/-- What an element that has to stand apart is called, the blank lines before it
and its place. Two includes in a row are left to the rule for includes. -/
def separated? (part previous : Part) : Option (String × Nat × Position) :=
  match part, previous with
  | .inclusion _, .inclusion _ => none
  | .play p, _ => some ("host block", p.blankLinesBefore, p.position)
  | .task t, _ => some ("task", t.blankLinesBefore, t.position)
  | .inclusion i, _ => some ("include", i.blankLinesBefore, i.position)
  | _, _ => none

/-- What is wrong between two neighbours that are not both includes. -/
def blockRemark? (part previous : Part) : Option Remark :=
  match separated? part previous with
  | some (what, 0, position) =>
    some ⟨position,
      s!"Missing blank line before {what} (previous item ends on line {previous.endLine})",
      some s!"Insert a blank line before this {what}"⟩
  | _ => none

def blockSpacing : Rule where
  id := "block-spacing"
  description := "Adjacent host blocks and tasks are separated by a blank line"
  category := .spacing
  severity := .warning
  kinds := [.play, .task, .inclusion]
  remarks _ visit := (visit.previous?.bind (blockRemark? visit.part)).toList

/-- What is wrong between two includes in a row. -/
def includeRemark? (statement previous : Include) : Option Remark :=
  match statement.isMultiline || previous.isMultiline, decide (statement.blankLinesBefore > 0) with
  | true, false =>
    some ⟨statement.position, "Multi-line include statements should be separated by a blank line",
      some "Insert a blank line before this include"⟩
  | false, true =>
    some ⟨statement.position,
      "Single-line include statements should not be separated by blank lines",
      some "Remove the blank line before this include"⟩
  | _, _ => none

def includeSpacing : Rule where
  id := "include-spacing"
  description :=
    "Consecutive single-line includes have no blank line between them; multi-line includes are separated by one"
  category := .spacing
  severity := .warning
  kinds := [.inclusion]
  remarks _ visit :=
    match visit.part, visit.previous? with
    | .inclusion i, some (.inclusion previous) => (includeRemark? i previous).toList
    | _, _ => []

end PlaybookStyle.Rule
