/-
Rules: what they know, and what they say.

A rule looks at one visit of the walk and at the conventions in force, nothing
else, and answers with remarks. It does not know how grave its remarks are taken
or whether they are reported; that is settled around it.
-/

import PlaybookStyle.Playbook.Walk
import PlaybookStyle.Setting.Basic

namespace PlaybookStyle

open Playbook

/-- The settings that decide what a rule says. -/
structure Conventions where
  extensions : ExtensionPolicy
  /-- Parts of a file name that mark the file as encrypted. -/
  vaultMarkers : List String
deriving DecidableEq, Repr, Inhabited

def Settings.conventions (s : Settings) : Conventions := ⟨s.extensions, s.vaultMarkers⟩

/-- What a rule says about one place. -/
structure Remark where
  position : Position
  message : String
  suggestion? : Option String
deriving DecidableEq, Repr, Inhabited

/-- A style rule. -/
structure Rule where
  id : String
  description : String
  category : Category
  /-- The severity of its findings when no grade is set. -/
  severity : Severity
  /-- The kinds of parts it looks at. -/
  kinds : List PartKind
  remarks : Conventions → Visit → List Remark

instance : Inhabited Rule := ⟨⟨"", "", .syntaxCheck, .info, [], fun _ _ => []⟩⟩

end PlaybookStyle
