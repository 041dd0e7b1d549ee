/-
The blanks around the colon of a key: none before it, one space after it.
-/

import PlaybookStyle.Rule.Basic

namespace PlaybookStyle.Rule

open Playbook

/-- What is wrong before the colon. -/
def beforeColonRemark? (key : String) (position : Position) (spacing : KeySpacing) :
    Option Remark :=
  if spacing.beforeColon > 0 then
    some ⟨position, s!"Unexpected space before the colon after '{key}'", some s!"{key}: ..."⟩
  else none

/-- What is wrong after the colon: a blank that is no space, or a number of
spaces other than one. -/
def afterColonRemark? (key : String) (position : Position) (spacing : KeySpacing) :
    Option Remark :=
  if spacing.tabAfterColon then
    some ⟨position, s!"Expected a space after the colon of '{key}', found a tab",
      some s!"{key}: ..."⟩
  else
    match spacing.afterColon with
    | none | some 1 => none
    | some n =>
      some ⟨position, s!"Expected exactly one space after the colon of '{key}', found {n}",
        some s!"{key}: ..."⟩

def colonRemarks (key : String) (position : Position) (spacing : KeySpacing) : List Remark :=
  (beforeColonRemark? key position spacing).toList ++
    (afterColonRemark? key position spacing).toList

def keySpacing : Rule where
  id := "key-spacing"
  description := "Exactly one space follows the colon of each key"
  category := .spacing
  severity := .error
  kinds := [.entry, .module, .inclusion]
  remarks _ visit :=
    match visit.part with
    | .entry e => colonRemarks e.key e.position e.spacing
    | .module m => colonRemarks m.name m.position m.spacing
    | .inclusion i => colonRemarks i.keyword i.keywordPosition i.spacing
    | _ => []

end PlaybookStyle.Rule
