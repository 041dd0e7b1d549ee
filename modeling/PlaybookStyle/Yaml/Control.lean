/-
Characters that no text may hold, and how far a text with one can be read.

A text is taken in portions. The one that holds the first control character
cannot be taken, so reading sees the portions before it and no more; what is
wrong in those is met first.
-/

import PlaybookStyle.Yaml.Mark

namespace PlaybookStyle.Yaml

/-- A portion is at most this many bytes of whole characters. -/
def portionSize : Nat := 16384

/-- A character that no text may hold. -/
structure Control where
  /-- The bytes before the character. -/
  offset : Nat
  /-- The characters before its portion. -/
  legible : Nat
deriving DecidableEq, Repr

namespace Control

/-- The first control character of a text that goes on after `index` characters
and `offset` bytes, `taken` bytes into a portion that starts after `legible`
characters. -/
def find? (index offset legible taken : Nat) : List Char → Option Control
  | [] => none
  | c :: rest =>
    let size := c.utf8Size
    let opens := portionSize < taken + size
    let legible := if opens then index else legible
    if isPrintable c then
      find? (index + 1) (offset + size) legible (if opens then size else taken + size) rest
    else some ⟨offset, legible⟩

/-- The first control character of a text. -/
def ofText? (text : List Char) : Option Control := find? 0 0 0 0 text

end Control

end PlaybookStyle.Yaml
