/-
Expressions of the template language and the blanks inside their delimiters.

An expression runs from an opening delimiter to the next closing one. Inside it,
behind a mark that trims the surroundings, stands one space on either side, or a
blank with a line break. `expressions` lists the inner texts of a text; nothing
between them is looked at twice.
-/

import PlaybookStyle.Rule.Basic

namespace PlaybookStyle.Rule

open Playbook Text

def openDelimiter : List Char := "\x7b\x7b".toList

def closeDelimiter : List Char := "\x7d\x7d".toList

/-! ### Finding expressions -/

/-- The inner texts of the expressions of a text. -/
def expressions (text : List Char) : List (List Char) :=
  match _h₁ : splitAround openDelimiter text with
  | none => []
  | some (_, opened) =>
    match _h₂ : splitAround closeDelimiter opened with
    | none => []
    | some (inner, rest) => inner :: expressions rest
termination_by text.length
decreasing_by
  have h1 := splitAround_eq_append _h₁
  have h2 := splitAround_eq_append _h₂
  subst h1 h2
  simp [openDelimiter, closeDelimiter]
  omega

/-- A mark that trims the text around an expression. -/
def isTrimMark (c : Char) : Bool := c = '-' || c = '+'

/-- A text without one such mark at its start. -/
def dropTrimMark : List Char → List Char
  | c :: rest => if isTrimMark c then rest else c :: rest
  | [] => []

/-- The inner text of an expression without the marks at its ends. -/
def expressionBody (inner : List Char) : List Char :=
  (dropTrimMark (dropTrimMark inner).reverse).reverse

/-- Blanks that may stand beside a delimiter. -/
def isPadding (blanks : List Char) : Bool := blanks = [' '] || blanks.contains '\n'

/-- The blanks at both ends of an expression are as they should be; an empty
expression is left alone. -/
def isPadded (inner : List Char) : Bool :=
  let body := expressionBody inner
  trim body = [] ||
    isPadding (body.takeWhile isBlank) && isPadding (body.reverse.takeWhile isBlank).reverse

/-- An expression with its delimiters. -/
def delimited (inner : List Char) : List Char := openDelimiter ++ inner ++ closeDelimiter

/-- An expression as it should be written. -/
def respaced (inner : List Char) : List Char :=
  delimited (' ' :: trim (expressionBody inner) ++ [' '])

/-! ### The rule -/

def expressionRemark (position : Position) (inner : List Char) : Remark :=
  let expression := String.ofList (delimited inner)
  ⟨position, s!"Jinja expression {expression} should have exactly one space inside its delimiters",
    some (String.ofList (respaced inner))⟩

def jinjaSpacing : Rule where
  id := "jinja-spacing"
  description :=
    "Jinja expressions have exactly one space inside the \x7b\x7b \x7d\x7d delimiters"
  category := .spacing
  severity := .warning
  kinds := [.scalar, .condition]
  remarks _ visit :=
    match visit.part with
    | .scalar s =>
      ((expressions s.text.toList).filter (!isPadded ·)).map (expressionRemark s.position)
    | _ => []

end PlaybookStyle.Rule
