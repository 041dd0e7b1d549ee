/-
The kind of a scalar, from its role, its key and its text.

In some roles the kind is fixed. Elsewhere plain text is what YAML takes it for,
with all spellings of booleans, and quoted text is a string unless it spells a
boolean under a key that takes one, or an integer.
-/

import PlaybookStyle.Playbook.Keys
import PlaybookStyle.Playbook.Scalar
import PlaybookStyle.Yaml.Read

namespace PlaybookStyle.Playbook

/-! ### Identifiers and integers -/

def isIdentifierStart (c : Char) : Bool := c.isAlpha || c == '_'

def isIdentifierChar (c : Char) : Bool := c.isAlphanum || c == '_'

/-- What part of a reference is being read. -/
inductive ReferencePhase where
  /-- A name has to start. -/
  | start
  /-- Inside a name, or behind an index. -/
  | name (growing : Bool)
  /-- Inside the brackets of an index, with something in them or not. -/
  | index (filled : Bool)

/-- The rest of a reference: names joined by dots, indexed in brackets. -/
def isReferenceFrom : ReferencePhase → List Char → Bool
  | .start, [] => false
  | .name _, [] => true
  | .index _, [] => false
  | .start, c :: rest => isIdentifierStart c && isReferenceFrom (.name true) rest
  | .name inName, c :: rest =>
    if c == '.' then isReferenceFrom .start rest
    else if c == '[' then isReferenceFrom (.index false) rest
    else inName && isIdentifierChar c && isReferenceFrom (.name true) rest
  | .index filled, c :: rest =>
    if c == ']' then filled && isReferenceFrom (.name false) rest
    else isReferenceFrom (.index true) rest

/-- The text refers to a variable, one of its fields or one of its items. -/
def isReference (text : String) : Bool := isReferenceFrom .start text.toList

/-- The text is an integer without superfluous zeros. -/
def isInteger (text : String) : Bool :=
  let digits := match text.toList with
    | '-' :: rest => rest
    | rest => rest
  match digits with
  | ['0'] => true
  | c :: rest => c != '0' && (c :: rest).all Char.isDigit
  | [] => false

/-! ### Kinds -/

/-- The kind that a role fixes. -/
def Context.fixedKind? : Context → Option ValueKind
  | condition => some .condition
  | registered => some .variableReference
  | name | hostTarget | includeTarget | roleName | fileReference | inlineArgs => some .string
  | _ => none

/-- The kind that a module fixes for one of its parameters. -/
def parameterKind? (module? key? : Option String) (text : String) : Option ValueKind :=
  match module?.map shortModuleName, key? with
  | some "assert", some "that" => some .condition
  | some "debug", some "var" => if isReference text then some .variableReference else none
  | _, _ => none

/-- The text spells a boolean, or is a digit for one. -/
def isBooleanText (text : String) : Bool :=
  booleanTokens.contains text || text == "1" || text == "0"

/-- What YAML takes plain text for, as far as kinds go. -/
def plainKind (text : String) : ValueKind :=
  match Yaml.Value.read text with
  | .ok (.number _) => .number
  | .ok .null => .null
  | _ => .string

/-- The kind of text by the way it is written. -/
def textKind (style : QuoteStyle) (text : String) (booleanKey : Bool) : ValueKind :=
  match style with
  | .literal | .folded | .flow => .string
  | .unquoted =>
    if booleanTokens.contains text || (booleanKey && isBooleanText text) then .boolean
    else plainKind text
  | .double | .single =>
    if booleanKey && isBooleanText text then .boolean
    else if isInteger text then .number
    else .string

/-- The kind of a scalar. -/
def kindOf (style : QuoteStyle) (text : String) (key? : Option String) (context : Context)
    (module? : Option String) : ValueKind :=
  match context.fixedKind? with
  | some kind => kind
  | none =>
    match style with
    | .literal | .folded | .flow => .string
    | _ =>
      match parameterKind? module? key? text with
      | some kind => kind
      | none =>
        if context = .loop && isReference text then .variableReference
        else textKind style text (key?.any booleanKeys.contains)

end PlaybookStyle.Playbook
