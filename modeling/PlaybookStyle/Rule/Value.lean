/-
How values are quoted.

Module parameters that are strings stand between double quotes; single quotes
are kept where they spare escapes. Everything else is bare, booleans as `true`
or `false`, and so are the targets of includes. Of a quoted boolean that is spelt
as it should be only one rule speaks: `quoteStyle` if it is a parameter,
`booleanLiteral` if it is not.
-/

import PlaybookStyle.Rule.Basic

namespace PlaybookStyle.Rule

open Playbook Text

/-! ### Parameters -/

/-- How a scalar is called in messages: by its key, or by its module. -/
def nameOf (s : Scalar) : String :=
  match s.key? with
  | some key => s!"'{key}'"
  | none =>
    let module := s.module?.getD "?"
    s!"of module '{module}'"

/-- The name of a kind at the start of a sentence. -/
def capitalized (kind : ValueKind) : String :=
  match kind.name.toList with
  | [] => ""
  | c :: rest => String.ofList (c.toUpper :: rest)

def inDoubleQuotes (text : String) : String := "\"" ++ text ++ "\""

/-- What is wrong with the quotes of a parameter. -/
def quoteRemark? (s : Scalar) : Option Remark :=
  match s.style, s.kind with
  | .flow, _ | .folded, _ | .literal, _ => none
  | _, .null => none
  | .double, .string => none
  | .single, .string =>
    if s.text.toList.contains '"' then none
    else
      some ⟨s.position,
        s!"String value {nameOf s} should use double quotes, not single quotes",
        some (inDoubleQuotes s.text)⟩
  | .unquoted, .string =>
    some ⟨s.position, s!"String value {nameOf s} should be double-quoted",
      some (inDoubleQuotes s.text)⟩
  | .double, kind | .single, kind =>
    some ⟨s.position, s!"{capitalized kind} value {nameOf s} should not be quoted", some s.text⟩
  | .unquoted, _ => none

def quoteStyle : Rule where
  id := "quote-style"
  description :=
    "Module parameter strings are double-quoted; booleans, numbers, variable names and conditionals are not quoted"
  category := .quoting
  severity := .error
  kinds := [.scalar]
  remarks _ visit :=
    match visit.part with
    | .scalar s => if s.context = .moduleParam then (quoteRemark? s).toList else []
    | _ => []

/-! ### Booleans -/

/-- The spelling a boolean should have. -/
def canonicalBoolean (token : String) : String :=
  if lower token ∈ ["true", "yes", "on", "1"] then "true" else "false"

/-- What is wrong with the spelling of a boolean. -/
def booleanRemark? (s : Scalar) : Option Remark :=
  let canonical := canonicalBoolean s.text
  if s.text ≠ canonical then
    some ⟨s.position, s!"Boolean value {s.raw} should be '{canonical}'", some canonical⟩
  else if s.style.isQuoted && s.context ≠ .moduleParam then
    some ⟨s.position, s!"Boolean value {s.raw} should not be quoted", some canonical⟩
  else none

def booleanLiteral : Rule where
  id := "boolean-literal"
  description := "Boolean values are written as unquoted true or false"
  category := .quoting
  severity := .error
  kinds := [.scalar]
  remarks _ visit :=
    match visit.part with
    | .scalar s => if s.kind = .boolean then (booleanRemark? s).toList else []
    | _ => []

/-! ### Targets of includes -/

/-- A quoted target is remarked unless it begins with an expression, which may
need the quotes. -/
def targetRemark? (i : Include) : Option Remark :=
  if i.target.style.isQuoted && !startsWith i.target.text "\x7b\x7b" then
    some ⟨i.target.position, s!"Target of '{i.keyword}' should not be quoted: {i.target.raw}",
      some i.target.text⟩
  else none

def includeQuoting : Rule where
  id := "include-quoting"
  description := "Include targets are written without quotes"
  category := .quoting
  severity := .error
  kinds := [.inclusion]
  remarks _ visit :=
    match visit.part with
    | .inclusion i => (targetRemark? i).toList
    | _ => []

end PlaybookStyle.Rule
