/-
Marks: where the reader stands in a text.

A mark counts characters: `index` from the start of the text, `line` and
`column` from zero. A line break ends a line whichever of its spellings is
used; a carriage return with its line feed is one break of two characters.
-/

namespace PlaybookStyle.Yaml

/-- A place in a text, in characters, all three counts from zero. -/
structure Mark where
  index : Nat
  line : Nat
  column : Nat
deriving DecidableEq, Repr, Inhabited

namespace Mark

def start : Mark := ⟨0, 0, 0⟩

/-- The mark `n` characters further on the same line. -/
def right (m : Mark) (n : Nat) : Mark := ⟨m.index + n, m.line, m.column + n⟩

/-- The mark at the start of the next line, after a break of `n` characters. -/
def down (m : Mark) (n : Nat) : Mark := ⟨m.index + n, m.line + 1, 0⟩

/-- The first column of the first line, which messages leave out. -/
def isOrigin (m : Mark) : Bool := m.line == 0 && m.column == 0

/-- The same place: line and column agree. -/
def samePlace (a b : Mark) : Bool := a.line == b.line && a.column == b.column

/-- The place as messages name it, both counts from one. -/
def describe (m : Mark) : String :=
  s!"line {m.line + 1} column {m.column + 1}"

end Mark

/-! ### Character classes -/

/-- The characters that end a line. -/
def isBreak (c : Char) : Bool :=
  c == '\n' || c == '\r' || c == '\x85' || c == '\u2028' || c == '\u2029'

/-- The characters that separate tokens on a line. -/
def isGap (c : Char) : Bool := c == ' ' || c == '\t'

/-- The characters of anchors, handles and directive names. -/
def isWord (c : Char) : Bool := c.isAlphanum || c == '_' || c == '-'

/-- The characters of a tag outside angle brackets. -/
def isTagChar (c : Char) : Bool :=
  isWord c || c ∈ [';', '/', '?', ':', '@', '&', '=', '+', '$', '.', '%', '!', '~', '*', '\'', '(', ')']

/-- The characters of a tag inside angle brackets or of a tag prefix. -/
def isUriChar (c : Char) : Bool := isTagChar c || c == ',' || c == '[' || c == ']'

/-- The characters that open, close or separate flow collections. -/
def isFlowMark (c : Char) : Bool := c == ',' || c == '[' || c == ']' || c == '{' || c == '}'

/-- The characters a text may hold. -/
def isPrintable (c : Char) : Bool :=
  c == '\t' || c == '\n' || c == '\r' || (' ' ≤ c && c ≤ '~') || c == '\x85' ||
    (0xA0 ≤ c.val && c.val ≤ 0xD7FF) || (0xE000 ≤ c.val && c.val ≤ 0xFFFD) || 0x10000 ≤ c.val

/-- The value of a hexadecimal digit. -/
def hexDigit? (c : Char) : Option Nat :=
  if c.isDigit then some (c.toNat - '0'.toNat)
  else if 'a' ≤ c ∧ c ≤ 'f' then some (c.toNat - 'a'.toNat + 10)
  else if 'A' ≤ c ∧ c ≤ 'F' then some (c.toNat - 'A'.toNat + 10)
  else none

/-- A gap, a break or the end of the text stands here. -/
def blankOrEnd : List Char → Bool
  | [] => true
  | c :: _ => isGap c || isBreak c

/-- A break or the end of the text stands here. -/
def breakOrEnd : List Char → Bool
  | [] => true
  | c :: _ => isBreak c

/-- Three equal marks that separate documents, followed by a blank or the end. -/
def isDocumentMark : List Char → Bool
  | '-' :: '-' :: '-' :: rest => blankOrEnd rest
  | '.' :: '.' :: '.' :: rest => blankOrEnd rest
  | _ => false

/-! ### Readers -/

/-- What is left of a text, and where it starts. -/
structure Reader where
  rest : List Char
  mark : Mark
deriving DecidableEq, Repr, Inhabited

namespace Reader

def ofText (text : List Char) : Reader := ⟨text, .start⟩

/-- Steps over the `n` characters of the line that stand here. -/
def skip (r : Reader) (n : Nat) : Reader := ⟨r.rest.drop n, r.mark.right n⟩

/-- Steps over the characters of a class, none of which is a break. -/
def skipWhile (p : Char → Bool) (r : Reader) : Reader :=
  ⟨r.rest.dropWhile p, r.mark.right (r.rest.takeWhile p).length⟩

/-- Steps over blanks of the line. -/
def skipGaps (r : Reader) : Reader := r.skipWhile isGap

/-- Steps over the rest of the line. -/
def skipLineRest (r : Reader) : Reader := r.skipWhile (!isBreak ·)

/-- The line break that stands here as it enters a scalar, and the reader after
it. The two Unicode separators are kept, every other break becomes a line feed. -/
def break? (r : Reader) : Option (Char × Reader) :=
  match r.rest with
  | '\r' :: '\n' :: rest => some ('\n', ⟨rest, r.mark.down 2⟩)
  | c :: rest =>
    if c == '\u2028' || c == '\u2029' then some (c, ⟨rest, r.mark.down 1⟩)
    else if isBreak c then some ('\n', ⟨rest, r.mark.down 1⟩)
    else none
  | [] => none

theorem length_rest_skipWhile_le (p : Char → Bool) (r : Reader) :
    (r.skipWhile p).rest.length ≤ r.rest.length :=
  (List.dropWhile_suffix p).length_le

theorem length_rest_break?_lt {r s : Reader} {c : Char} (h : r.break? = some (c, s)) :
    s.rest.length < r.rest.length := by
  unfold break? at h
  split at h
  · rename_i rest hr
    simp only [Option.some.injEq, Prod.mk.injEq] at h
    rw [hr, ← h.2]
    simp only [List.length_cons]
    omega
  · rename_i c' rest hr
    rw [hr]
    split at h
    · simp only [Option.some.injEq, Prod.mk.injEq] at h
      rw [← h.2]
      simp
    · split at h
      · simp only [Option.some.injEq, Prod.mk.injEq] at h
        rw [← h.2]
        simp
      · simp at h
  · simp at h

end Reader

end PlaybookStyle.Yaml
