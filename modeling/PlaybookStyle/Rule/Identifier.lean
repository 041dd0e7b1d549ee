/-
Names of variables and roles.

A variable is lower-case words joined by underscores; a role is one such name or
several joined by dots, none of which begins with an underscore or digit.
`snakeCase` brings a name into that form as far as its letters allow.
-/

import PlaybookStyle.Rule.Basic

namespace PlaybookStyle.Rule

open Playbook Text

/-! ### Forms of names -/

/-- A character that may stand inside a name. -/
def isNameChar (c : Char) : Bool := c.isLower || c.isDigit || c = '_'

/-- The form of a variable name. -/
def isVariableName : List Char → Bool
  | [] => false
  | c :: rest => (c.isLower || c = '_') && rest.all isNameChar

/-- The form of a name between the dots of a role name. -/
def isRoleWord : List Char → Bool
  | [] => false
  | c :: rest => c.isLower && rest.all isNameChar

/-- The form of a role name. -/
def isRoleName (name : List Char) : Bool := (pieces '.' name).all isRoleWord

/-- Lower-case words joined by underscores: a capital begins a word if a small
letter or digit stands before it; dashes, blanks and dots become underscores. -/
def snakeCaseAfter (previous? : Option Char) : List Char → List Char
  | [] => []
  | c :: rest =>
    let word :=
      if c.isUpper then
        if previous?.any fun p => p.isLower || p.isDigit then ['_', c.toLower] else [c.toLower]
      else if c = '-' || c = ' ' || c = '.' then ['_']
      else [c]
    word ++ snakeCaseAfter (some c) rest

def snakeCase (name : List Char) : List Char := snakeCaseAfter none name

/-! ### Variables -/

def variableRemark? (name : String) (position : Position) : Option Remark :=
  if contains name "\x7b\x7b" || isVariableName name.toList then none
  else
    some ⟨position,
      s!"Variable name '{name}' should be lowercase words separated by underscores",
      some (String.ofList (snakeCase name.toList))⟩

def variableNaming : Rule where
  id := "variable-naming"
  description := "Variable names use lowercase letters, digits and underscores"
  category := .naming
  severity := .error
  kinds := [.entry, .scalar]
  remarks _ visit :=
    match visit.part with
    | .entry e => if e.assigns then (variableRemark? e.key e.position).toList else []
    | .scalar s =>
      if s.context = .registered then (variableRemark? s.text s.position).toList else []
    | _ => []

/-! ### Roles -/

/-- Each pair of underscores as one, from the left. -/
def joinUnderscores : List Char → List Char
  | '_' :: '_' :: rest => '_' :: joinUnderscores rest
  | c :: rest => c :: joinUnderscores rest
  | [] => []

def suggestedRole (name : String) : String :=
  ".".intercalate ((pieces '.' name.toList).map fun word =>
    String.ofList (joinUnderscores (snakeCase word)))

/-- Names with expressions and paths to roles are free. -/
def roleNameRemark? (name : Scalar) : Option Remark :=
  if name.isTemplated || name.text.toList.contains '/' || isRoleName name.text.toList then none
  else
    some ⟨name.position,
      s!"Role name '{name.text}' should be lowercase words separated by underscores",
      some (suggestedRole name.text)⟩

def roleNaming : Rule where
  id := "role-naming"
  description := "Role names are lowercase words joined by underscores"
  category := .naming
  severity := .warning
  kinds := [.role]
  remarks _ visit :=
    match visit.part with
    | .role r => (r.name?.bind roleNameRemark?).toList
    | _ => []

end PlaybookStyle.Rule
