/-
Quotes, comments and brackets inside a line.

`splitQuoted` finds the quote that closes a scalar, `unescape` and `unquote`
give its content, `stripComment` cuts a trailing comment off plain text, and
`openBrackets` counts the brackets that a text leaves open.
-/

import PlaybookStyle.Text.Blank

namespace PlaybookStyle.Outline

open Text

/-! ### Quoted scalars -/

/-- A text behind an opening double quote, cut at the quote that closes it. A
backslash guards the next character. -/
def splitDouble : List Char → Option (List Char × List Char)
  | [] => none
  | '"' :: rest => some ([], rest)
  | '\\' :: c :: rest => (splitDouble rest).map fun (inner, after) => ('\\' :: c :: inner, after)
  | c :: rest => (splitDouble rest).map fun (inner, after) => (c :: inner, after)

/-- A text behind an opening single quote, cut at the quote that closes it. A
quote inside is written twice. -/
def splitSingle : List Char → Option (List Char × List Char)
  | [] => none
  | '\'' :: '\'' :: rest =>
    (splitSingle rest).map fun (inner, after) => ('\'' :: '\'' :: inner, after)
  | '\'' :: rest => some ([], rest)
  | c :: rest => (splitSingle rest).map fun (inner, after) => (c :: inner, after)

/-- A text behind an opening quote, cut at the quote that closes it. -/
def splitQuoted (quote : Char) (text : List Char) : Option (List Char × List Char) :=
  if quote = '"' then splitDouble text else splitSingle text

/-- Nothing is lost at a closing double quote. -/
theorem splitDouble_append {text inner after : List Char}
    (h : splitDouble text = some (inner, after)) : inner ++ '"' :: after = text := by
  fun_induction splitDouble text generalizing inner after with
  | case1 => simp at h
  | case2 rest =>
    simp only [Option.some.injEq, Prod.mk.injEq] at h
    simp [← h.1, ← h.2]
  | case3 c rest ih =>
    simp only [Option.map_eq_some_iff, Prod.mk.injEq, Prod.exists] at h
    obtain ⟨i, a, hs, rfl, rfl⟩ := h
    simp [ih hs]
  | case4 c rest _ _ ih =>
    simp only [Option.map_eq_some_iff, Prod.mk.injEq, Prod.exists] at h
    obtain ⟨i, a, hs, rfl, rfl⟩ := h
    simp [ih hs]

/-- Nothing is lost at a closing single quote. -/
theorem splitSingle_append {text inner after : List Char}
    (h : splitSingle text = some (inner, after)) : inner ++ '\'' :: after = text := by
  fun_induction splitSingle text generalizing inner after with
  | case1 => simp at h
  | case2 rest ih =>
    simp only [Option.map_eq_some_iff, Prod.mk.injEq, Prod.exists] at h
    obtain ⟨i, a, hs, rfl, rfl⟩ := h
    simp [ih hs]
  | case3 rest _ =>
    simp only [Option.some.injEq, Prod.mk.injEq] at h
    simp [← h.1, ← h.2]
  | case4 c rest _ _ ih =>
    simp only [Option.map_eq_some_iff, Prod.mk.injEq, Prod.exists] at h
    obtain ⟨i, a, hs, rfl, rfl⟩ := h
    simp [ih hs]

/-- The content of a double-quoted scalar: five escapes are resolved, all others kept. -/
def unescape : List Char → List Char
  | '\\' :: 'n' :: rest => '\n' :: unescape rest
  | '\\' :: 't' :: rest => '\t' :: unescape rest
  | '\\' :: '"' :: rest => '"' :: unescape rest
  | '\\' :: '\\' :: rest => '\\' :: unescape rest
  | '\\' :: '/' :: rest => '/' :: unescape rest
  | '\\' :: c :: rest => '\\' :: c :: unescape rest
  | c :: rest => c :: unescape rest
  | [] => []

/-- The content of a single-quoted scalar: a doubled quote is one. -/
def undouble : List Char → List Char
  | '\'' :: '\'' :: rest => '\'' :: undouble rest
  | c :: rest => c :: undouble rest
  | [] => []

/-! ### Comments -/

/-- The text before the first comment mark that a space precedes. -/
def beforeComment : List Char → List Char
  | [] => []
  | c :: rest => if c = ' ' ∧ rest.head? = some '#' then [] else c :: beforeComment rest

/-- Plain text without a trailing comment and without trailing blanks. -/
def stripComment (text : List Char) : List Char :=
  if text.head? = some '#' then [] else trimEnd (beforeComment text)

/-! ### Brackets -/

/-- Brackets opened less brackets closed, outside quotes. `quote?` is the quote
that is open, `guarded` says that a backslash stands before. -/
def bracketBalance (quote? : Option Char) (guarded : Bool) : List Char → Int
  | [] => 0
  | c :: rest =>
    match quote? with
    | some q =>
      if guarded then bracketBalance quote? false rest
      else if c = '\\' ∧ q = '"' then bracketBalance quote? true rest
      else if c = q then bracketBalance none false rest
      else bracketBalance quote? false rest
    | none =>
      if c = '"' ∨ c = '\'' then bracketBalance (some c) false rest
      else if c = '\x7b' ∨ c = '[' then 1 + bracketBalance none false rest
      else if c = '\x7d' ∨ c = ']' then -1 + bracketBalance none false rest
      else bracketBalance none false rest

/-- The number of brackets that a text leaves open; negative if it closes more. -/
def openBrackets (text : List Char) : Int := bracketBalance none false text

end PlaybookStyle.Outline
