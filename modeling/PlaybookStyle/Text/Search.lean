/-
Finding and replacing parts of a text, and ASCII letters.
-/

import PlaybookStyle.Text.Blank

namespace PlaybookStyle.Text

/-- A text cut around the first occurrence of a part. -/
def splitAround (part : List Char) : List Char → Option (List Char × List Char)
  | [] => if part.isEmpty then some ([], []) else none
  | c :: rest =>
    if part.isPrefixOf (c :: rest) then some ([], (c :: rest).drop part.length)
    else (splitAround part rest).map fun (before, after) => (c :: before, after)

theorem splitAround_eq_append {part text before after : List Char}
    (h : splitAround part text = some (before, after)) : text = before ++ part ++ after := by
  induction text generalizing before with
  | nil =>
    simp only [splitAround] at h
    split at h <;> simp_all
  | cons c rest ih =>
    simp only [splitAround] at h
    split at h
    · rename_i hp
      obtain ⟨tail, htail⟩ := List.isPrefixOf_iff_prefix.1 hp
      simp only [Option.some.injEq, Prod.mk.injEq] at h
      obtain ⟨rfl, rfl⟩ := h
      simp [← htail]
    · obtain ⟨⟨b, a⟩, hb, heq⟩ := Option.map_eq_some_iff.1 h
      simp only [Prod.mk.injEq] at heq
      obtain ⟨rfl, rfl⟩ := heq
      simpa using ih hb

/-- A part occurs in a text. -/
def hasPart (part text : List Char) : Bool := (splitAround part text).isSome

/-- A part occurs in a text. -/
def contains (text part : String) : Bool := hasPart part.toList text.toList

/-- A text starts with another. -/
def startsWith (text start : String) : Bool := start.toList.isPrefixOf text.toList

/-- A text behind a start, if it has that start. -/
def dropStart? (text start : String) : Option String :=
  if startsWith text start then some (String.ofList (text.toList.drop start.toList.length)) else none

/-- A text with its ASCII letters in lower case. -/
def lower (text : String) : String := String.ofList (text.toList.map Char.toLower)

/-- A text without leading and trailing blanks. -/
def trimmed (text : String) : String := String.ofList (trim text.toList)

/-- The pieces of a text between a separator; there is always one. -/
def pieces (separator : Char) : List Char → List (List Char)
  | [] => [[]]
  | c :: rest =>
    if c = separator then [] :: pieces separator rest
    else
      match pieces separator rest with
      | [] => [[c]]
      | piece :: others => (c :: piece) :: others

end PlaybookStyle.Text
