/-
Scalars of a playbook: their text, their role and their kind.

The role of a scalar is where it stands: a parameter, a condition, a name. The
kind is what its text is: a boolean, a number, a string. Both are settled when
the playbook is built, so that rules only look.
-/

import PlaybookStyle.Outline.Basic
import PlaybookStyle.Text.Search

namespace PlaybookStyle.Playbook

/-- What a scalar's text is. -/
inductive ValueKind where
  | boolean
  | number
  | string
  | variableReference
  | condition
  | null
deriving DecidableEq, Repr, Inhabited

def ValueKind.name : ValueKind → String
  | boolean => "boolean"
  | number => "number"
  | string => "string"
  | variableReference => "variable reference"
  | condition => "conditional expression"
  | null => "null"

/-- Where a scalar stands. -/
inductive Context where
  /-- The value of a module parameter. -/
  | moduleParam
  /-- All arguments of a module in one text. -/
  | inlineArgs
  /-- The hosts of a play. -/
  | hostTarget
  /-- Any other option of a play. -/
  | hostOption
  /-- The name of a play, task or include. -/
  | name
  /-- An option of a task. -/
  | taskOption
  /-- A condition written without braces. -/
  | condition
  /-- What a task loops over. -/
  | loop
  /-- The variable a result is kept in. -/
  | registered
  /-- The file an include names. -/
  | includeTarget
  /-- The value of a variable. -/
  | variableValue
  | roleName
  /-- A file listed among the variable files. -/
  | fileReference
deriving DecidableEq, Repr, Inhabited

structure Scalar where
  /-- The token as written. -/
  raw : String
  /-- The content. -/
  text : String
  style : QuoteStyle
  kind : ValueKind
  context : Context
  /-- The key that the scalar is the value of. -/
  key? : Option String
  /-- The module that the scalar is a parameter of. -/
  module? : Option String
  position : Position
  endLine : Nat
deriving DecidableEq, Repr, Inhabited

/-- The text holds an expression or a statement of the template language. -/
def Scalar.isTemplated (s : Scalar) : Bool :=
  Text.contains s.text "\x7b\x7b" || Text.contains s.text "\x7b%"

end PlaybookStyle.Playbook
