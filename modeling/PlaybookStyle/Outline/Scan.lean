/-
From logical lines to the outline.

Six functions read one another's parts: a node, the items of a sequence and the
node of one item, the entries of a mapping and the node of one entry, and a value
that starts inside a line. Each takes a cursor and gives what it read with the
cursor behind it. The weight of a cursor counts the lines left and the characters
in them; it never grows, and it falls with every dash, key or line passed, also
where the rest of a line is read again as a line of its own. `Scanned` carries
the first of these facts, `ScannedPast` the second, and the recursion rests on it.
-/

import PlaybookStyle.Outline.Basic
import PlaybookStyle.Outline.Key
import PlaybookStyle.Outline.Line

namespace PlaybookStyle.Outline

open Text

/-! ### Cursors -/

/-- The lines left, the last line passed, and the verbatim ranges so far. -/
structure Cursor where
  lines : List LogicalLine
  lastLine : Nat
  verbatim : List LineRange
deriving DecidableEq, Repr, Inhabited

namespace Cursor

def weightOf : List LogicalLine → Nat
  | [] => 0
  | line :: rest => line.text.length + 1 + weightOf rest

/-- The lines left and the characters in them. -/
def weight (c : Cursor) : Nat := weightOf c.lines

/-- The cursor before the first line of a text. -/
def ofText (text : List Char) : Cursor := ⟨LogicalLine.ofText text, 0, []⟩

/-- Passes the next line. -/
def pass (c : Cursor) (line : LogicalLine) (rest : List LogicalLine) : Cursor :=
  { c with lines := rest, lastLine := line.number }

/-- Passes the lines of a scalar that began on a line: they are verbatim. -/
def passVerbatim (c : Cursor) (first : Nat) (passed rest : List LogicalLine) : Cursor :=
  let last := (passed.getLast?.map LogicalLine.number).getD c.lastLine
  { lines := rest
    lastLine := last
    verbatim := if first < last then c.verbatim ++ [⟨first + 1, last⟩] else c.verbatim }

@[simp] theorem weightOf_nil : weightOf [] = 0 := rfl

@[simp] theorem weightOf_cons (line : LogicalLine) (rest : List LogicalLine) :
    weightOf (line :: rest) = line.text.length + 1 + weightOf rest := rfl

theorem weightOf_append (a b : List LogicalLine) :
    weightOf (a ++ b) = weightOf a + weightOf b := by
  induction a with
  | nil => rw [List.nil_append, weightOf_nil, Nat.zero_add]
  | cons line rest ih =>
    rw [List.cons_append, weightOf_cons, weightOf_cons, ih]
    omega

theorem weight_pass_lt {c : Cursor} {line : LogicalLine} {rest : List LogicalLine}
    (h : c.lines = line :: rest) : (c.pass line rest).weight < c.weight := by
  simp only [weight, pass, h, weightOf_cons]
  omega

theorem weight_passVerbatim_le {c : Cursor} {passed rest : List LogicalLine} {first : Nat}
    (h : passed ++ rest = c.lines) : (c.passVerbatim first passed rest).weight ≤ c.weight := by
  simp only [weight, passVerbatim, ← h, weightOf_append]
  omega

end Cursor

/-- What was read, with a cursor no further from the end than the given one. -/
abbrev Scanned (α : Type) (c : Cursor) : Type := { r : α × Cursor // r.2.weight ≤ c.weight }

/-! ### Scalars -/

/-- The lines deeper than an indentation, and the lines after them. -/
def spanDeeper (indent : Nat) : List LogicalLine → List LogicalLine × List LogicalLine
  | [] => ([], [])
  | line :: rest =>
    if indent < line.indent then
      let (deeper, after) := spanDeeper indent rest
      (line :: deeper, after)
    else ([], line :: rest)

theorem spanDeeper_append (indent : Nat) (lines : List LogicalLine) :
    (spanDeeper indent lines).1 ++ (spanDeeper indent lines).2 = lines := by
  induction lines with
  | nil => rfl
  | cons line rest ih =>
    unfold spanDeeper
    split
    · simp [ih]
    · simp

/-- The lines that a condition on the joined text asks for, trimmed and joined
to it by spaces: the text, the lines taken and the lines after them. -/
def joinWhile (more : List Char → Bool) (text : List Char) :
    List LogicalLine → List Char × List LogicalLine × List LogicalLine
  | [] => (text, [], [])
  | line :: rest =>
    if more text then
      let (text, taken, after) := joinWhile more (text ++ ' ' :: trim line.text) rest
      (text, line :: taken, after)
    else (text, [], line :: rest)

theorem joinWhile_append (more : List Char → Bool) (text : List Char) (lines : List LogicalLine) :
    (joinWhile more text lines).2.1 ++ (joinWhile more text lines).2.2 = lines := by
  induction lines generalizing text with
  | nil => rfl
  | cons line rest ih =>
    unfold joinWhile
    split
    · simp [ih]
    · simp

/-- A scalar as read from the lines it takes. -/
structure ScalarText where
  raw : List Char
  text : List Char
  style : QuoteStyle

/-- A block scalar: the deeper lines, joined by line feeds or by spaces. -/
def blockScalarText (header : List Char) (body : List LogicalLine) : ScalarText :=
  let literal := header.head? = some '|'
  let separator := if literal then '\n' else ' '
  ⟨stripComment header, [separator].intercalate (body.map LogicalLine.text),
    if literal then .literal else .folded⟩

/-- No quote closes the scalar that the text opens. -/
def isUnclosed : List Char → Bool
  | [] => false
  | quote :: rest => (splitQuoted quote rest).isNone

/-- A quoted scalar; without a closing quote it is all of the text. -/
def quotedScalarText (text : List Char) : ScalarText :=
  match text with
  | [] => ⟨[], [], .unquoted⟩
  | quote :: rest =>
    let (raw, inner) := match splitQuoted quote rest with
      | some (inner, _) => (quote :: inner ++ [quote], inner)
      | none =>
        (text, if rest.getLast? = some quote then rest.dropLast else rest)
    if quote = '"' then ⟨raw, unescape inner, .double⟩ else ⟨raw, undouble inner, .single⟩

/-- A collection in brackets. -/
def flowText (text : List Char) : ScalarText :=
  let raw := stripComment text
  ⟨raw, raw, .flow⟩

/-- Plain text with its continuation lines, comments cut off. -/
def plainText (text : List Char) (more : List LogicalLine) : ScalarText :=
  let value := (stripComment text) ++
    more.flatMap fun line => ' ' :: stripComment (trim line.text)
  ⟨value, value, .unquoted⟩

/-- A scalar that starts with some text on a line: its content, the lines it
takes and the lines after them. -/
def scalarText (text : List Char) (parent : Nat) (lines : List LogicalLine) :
    ScalarText × List LogicalLine × List LogicalLine :=
  match text with
  | [] => (⟨[], [], .unquoted⟩, [], lines)
  | c :: _ =>
    if c = '|' ∨ c = '>' then
      let (body, after) := spanDeeper parent lines
      (blockScalarText text body, body, after)
    else if c = '"' ∨ c = '\'' then
      let (joined, taken, after) := joinWhile isUnclosed text lines
      (quotedScalarText joined, taken, after)
    else if c = '\x7b' ∨ c = '[' then
      let (joined, taken, after) := joinWhile (fun t => 0 < openBrackets t) text lines
      (flowText joined, taken, after)
    else
      let (more, after) := spanDeeper parent lines
      (plainText text more, more, after)

theorem scalarText_append (text : List Char) (parent : Nat) (lines : List LogicalLine) :
    (scalarText text parent lines).2.1 ++ (scalarText text parent lines).2.2 = lines := by
  unfold scalarText
  split
  · rfl
  · split
    · exact spanDeeper_append parent lines
    · split
      · exact joinWhile_append _ _ lines
      · split
        · exact joinWhile_append _ _ lines
        · exact spanDeeper_append parent lines

/-- The scalar that starts with some text at a position. -/
def scalarAt (tag? : Option (List Char)) (text : List Char) (position : Position) (parent : Nat)
    (c : Cursor) : Scanned Node c :=
  let found := scalarText text parent c.lines
  let after := c.passVerbatim position.line found.2.1 found.2.2
  ⟨(.scalar
      { raw := String.ofList found.1.raw
        text := String.ofList found.1.text
        style := found.1.style
        position := position
        endLine := max after.lastLine position.line
        tag? := tag?.map String.ofList }, after),
    Cursor.weight_passVerbatim_le (scalarText_append text parent c.lines)⟩

/-! ### Tags and anchors -/

theorem length_trimStart_dropWhile_lt {c : Char} (rest : List Char) (h : !isBlank c) :
    (trimStart ((c :: rest).dropWhile (!isBlank ·))).length < (c :: rest).length := by
  have hdrop : (c :: rest).dropWhile (!isBlank ·) = rest.dropWhile (!isBlank ·) := by
    simp only [List.dropWhile_cons, h, if_true]
  rw [hdrop]
  have h1 := length_trimStart_le (rest.dropWhile (!isBlank ·))
  have h2 := (List.dropWhile_suffix (l := rest) (!isBlank ·)).length_le
  simp only [List.length_cons]
  omega

/-- A value's text without the tags and anchors before it, the column where it
starts, and the last of the tags. -/
def skipProperties (tag? : Option (List Char)) (column : Nat) (text : List Char) :
    Option (List Char) × Nat × List Char :=
  match text with
  | [] => (tag?, column, [])
  | c :: rest =>
    if _h : c = '!' ∨ c = '&' then
      let after := trimStart ((c :: rest).dropWhile (!isBlank ·))
      skipProperties
        (if c = '!' then some ((c :: rest).takeWhile (!isBlank ·)) else tag?)
        (column + (byteLength (c :: rest) - byteLength after)) after
    else (tag?, column, c :: rest)
termination_by text.length
decreasing_by
  apply length_trimStart_dropWhile_lt
  rcases _h with rfl | rfl <;> decide

/-! ### Items and entries -/

theorem length_trimStart_tail_lt {text : List Char} (h : isItem text) :
    (trimStart (text.drop 1)).length < text.length := by
  have hlen := length_trimStart_le (text.drop 1)
  match text, h with
  | _ :: rest, _ =>
    simp only [List.drop_succ_cons, List.drop_zero, List.length_cons] at hlen ⊢
    omega

/-- Nothing, or only a comment. -/
def isAbsent : List Char → Bool
  | [] => true
  | c :: _ => c == '#'

namespace LogicalLine

/-- The text behind the dash of an item. -/
def item (line : LogicalLine) : List Char := trimStart (line.text.drop 1)

/-- What stands behind the dash of an item, as a line of its own. -/
def behindDash (line : LogicalLine) : LogicalLine where
  number := line.number
  indent := line.indent + 1 + (byteLength (line.text.drop 1) - byteLength line.item)
  text := line.item

end LogicalLine

namespace KeySplit

/-- The text of the value behind the colon. -/
def value (split : KeySplit) : List Char := trimStart split.rest

/-- The blanks before that text. -/
def gap (split : KeySplit) : List Char := split.rest.takeWhile isBlank

def spacing (split : KeySplit) : KeySpacing where
  beforeColon := split.beforeColon
  afterColon := if isAbsent split.value then none else some (byteLength split.gap)
  tabAfterColon := !isAbsent split.value && split.gap.any (· != ' ')

end KeySplit

/-! ### Collections -/

/-- What was read, with a cursor nearer to the end than the given one. -/
abbrev ScannedPast (α : Type) (c : Cursor) : Type := { r : α × Cursor // r.2.weight < c.weight }

namespace Cursor

/-- The cursor that reads the rest of an item's line as a line of its own. -/
def enter (c : Cursor) (line : LogicalLine) (rest : List LogicalLine) : Cursor :=
  { c with lines := line.behindDash :: rest }

theorem weight_enter_lt {c : Cursor} {line : LogicalLine} {rest : List LogicalLine}
    (h : c.lines = line :: rest) (hitem : isItem line.text) : (c.enter line rest).weight < c.weight := by
  have hlen := length_trimStart_tail_lt hitem
  simp only [weight, enter, h, weightOf_cons, LogicalLine.behindDash, LogicalLine.item]
  omega

end Cursor

mutual

/-- The node at the cursor. -/
def node (c : Cursor) : Scanned Node c :=
  match h : c.lines with
  | [] => ⟨(.empty, c), Nat.le_refl _⟩
  | line :: rest =>
    if isItem line.text then
      let found := items line.indent c
      ⟨(.sequence ⟨line.number, line.indent + 1⟩ found.1.1, found.1.2), found.2⟩
    else if (splitKey line.text).isSome then
      let found := entries line.indent c
      ⟨(.mapping ⟨line.number, line.indent + 1⟩ found.1.1, found.1.2), found.2⟩
    else
      let found := value line.text line.number (line.indent + 1) (line.indent - 1) (c.pass line rest)
      ⟨found.1, Nat.le_trans found.2 (Nat.le_of_lt (Cursor.weight_pass_lt h))⟩
termination_by 4 * c.weight + 2
decreasing_by
  · omega
  · omega
  · have hlt := Cursor.weight_pass_lt h
    omega

/-- The items at an indentation. -/
def items (indent : Nat) (c : Cursor) : Scanned (List (Item Node)) c :=
  match h : c.lines with
  | [] => ⟨([], c), Nat.le_refl _⟩
  | line :: rest =>
    if hitem : line.indent = indent ∧ isItem line.text then
      let found := itemValue line rest c h hitem.2
      let more := items indent found.1.2
      ⟨(⟨⟨line.number, indent + 1⟩, found.1.1, found.1.2.lastLine⟩ :: more.1.1, more.1.2),
        Nat.le_trans more.2 (Nat.le_of_lt found.2)⟩
    else ⟨([], c), Nat.le_refl _⟩
termination_by 4 * c.weight + 1
decreasing_by
  · omega
  · exact Nat.add_lt_add_right ((Nat.mul_lt_mul_left (by decide)).mpr found.2) 1

/-- The node of the item on a line: below the dash, behind it as on a line of
its own, or behind it as a value. -/
def itemValue (line : LogicalLine) (rest : List LogicalLine) (c : Cursor)
    (h : c.lines = line :: rest) (hitem : isItem line.text) : ScannedPast Node c :=
  if isAbsent line.item then
    if rest.head?.any (line.indent < ·.indent) then
      let found := node (c.pass line rest)
      ⟨found.1, Nat.lt_of_le_of_lt found.2 (Cursor.weight_pass_lt h)⟩
    else ⟨(.empty, c.pass line rest), Cursor.weight_pass_lt h⟩
  else if isItem line.item || (splitKey line.item).isSome then
    let found := node (c.enter line rest)
    ⟨found.1, Nat.lt_of_le_of_lt found.2 (Cursor.weight_enter_lt h hitem)⟩
  else
    let found :=
      value line.item line.number (line.behindDash.indent + 1) line.indent (c.pass line rest)
    ⟨found.1, Nat.lt_of_le_of_lt found.2 (Cursor.weight_pass_lt h)⟩
termination_by 4 * c.weight + 0
decreasing_by
  · have hlt := Cursor.weight_pass_lt h
    omega
  · have hlt := Cursor.weight_enter_lt h hitem
    omega
  · have hlt := Cursor.weight_pass_lt h
    omega

/-- The entries at an indentation. -/
def entries (indent : Nat) (c : Cursor) : Scanned (List (Entry Node)) c :=
  match h : c.lines with
  | [] => ⟨([], c), Nat.le_refl _⟩
  | line :: rest =>
    if line.indent = indent then
      match splitKey line.text with
      | none => ⟨([], c), Nat.le_refl _⟩
      | some split =>
        let found := entryValue line rest split c h
        let more := entries indent found.1.2
        ⟨(⟨String.ofList split.key, ⟨line.number, indent + 1⟩, split.spacing, found.1.1,
            found.1.2.lastLine⟩ :: more.1.1, more.1.2),
          Nat.le_trans more.2 (Nat.le_of_lt found.2)⟩
    else ⟨([], c), Nat.le_refl _⟩
termination_by 4 * c.weight + 1
decreasing_by
  · omega
  · exact Nat.add_lt_add_right ((Nat.mul_lt_mul_left (by decide)).mpr found.2) 1

/-- The node of the entry on a line: below the key, where items may stand at its
own indentation, or behind the colon as a value. -/
def entryValue (line : LogicalLine) (rest : List LogicalLine) (split : KeySplit) (c : Cursor)
    (h : c.lines = line :: rest) : ScannedPast Node c :=
  if isAbsent split.value then
    match rest.head? with
    | none => ⟨(.empty, c.pass line rest), Cursor.weight_pass_lt h⟩
    | some next =>
      if line.indent < next.indent then
        let found := node (c.pass line rest)
        ⟨found.1, Nat.lt_of_le_of_lt found.2 (Cursor.weight_pass_lt h)⟩
      else if next.indent = line.indent ∧ isItem next.text then
        let found := items line.indent (c.pass line rest)
        ⟨(.sequence ⟨next.number, line.indent + 1⟩ found.1.1, found.1.2),
          Nat.lt_of_le_of_lt found.2 (Cursor.weight_pass_lt h)⟩
      else ⟨(.empty, c.pass line rest), Cursor.weight_pass_lt h⟩
  else
    let found := value split.value line.number
      (line.indent + split.colon + byteLength split.gap + 2) line.indent (c.pass line rest)
    ⟨found.1, Nat.lt_of_le_of_lt found.2 (Cursor.weight_pass_lt h)⟩
termination_by 4 * c.weight + 0
decreasing_by
  · have hlt := Cursor.weight_pass_lt h
    omega
  · have hlt := Cursor.weight_pass_lt h
    omega
  · have hlt := Cursor.weight_pass_lt h
    omega

/-- A value whose text starts inside a line that is passed. Lines that continue
it are deeper than `parent`. -/
def value (text : List Char) (line column parent : Nat) (c : Cursor) : Scanned Node c :=
  let (tag?, column, text) := skipProperties none column text
  if isAbsent text then
    if c.lines.head?.any (parent < ·.indent) then node c
    else ⟨(.empty, c), Nat.le_refl _⟩
  else scalarAt tag? text ⟨line, column⟩ parent c
termination_by 4 * c.weight + 3
decreasing_by omega

end

end Outline

/-- The outline of a text. -/
def Outline.scan (source : List Char) : Outline :=
  let found := Outline.node (.ofText source)
  ⟨found.1.1, found.1.2.verbatim⟩

end PlaybookStyle
