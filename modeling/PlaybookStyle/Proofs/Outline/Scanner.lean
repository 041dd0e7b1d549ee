/-
The scanner with everything that can go wrong.

The outline is read by a scanner that keeps all logical lines and the index of the
one in turn, moves on, and where the rest of an item's line is read again, puts
that rest in the place of the line. Here each of its functions gives `none` where
an index, a cut or a difference would fail and where it would go on for ever.

A scanner stands at a cursor: the lines from its index on. A rule of the reading
is then one successful run of a function, from the cursor before to the cursor
behind (`Runs`), and the rules derive a reading for every cursor. So no run fails.
A node is never read without passing its first line, which bounds the index.
-/

import PlaybookStyle.Proofs.Outline.Offsets
import PlaybookStyle.Proofs.Outline.Reading

namespace PlaybookStyle.Outline

open Text

/-! ### The scanner -/

/-- All logical lines, the index of the one in turn, the last line passed, and
the verbatim ranges so far. -/
structure Scanner where
  lines : List LogicalLine
  index : Nat
  lastLine : Nat
  verbatim : List LineRange
deriving DecidableEq, Repr, Inhabited

namespace Cursor

/-- Passes some lines. -/
def passAll (c : Cursor) (passed rest : List LogicalLine) : Cursor :=
  { c with lines := rest, lastLine := (passed.getLast?.map LogicalLine.number).getD c.lastLine }

theorem passAll_nil {c : Cursor} {rest : List LogicalLine} (h : c.lines = rest) :
    c.passAll [] rest = c := by
  subst h
  rfl

/-- Marking the lines that are passed makes them verbatim. -/
theorem passVerbatim_eq (c : Cursor) (first : Nat) (passed rest : List LogicalLine) :
    c.passVerbatim first passed rest =
      ⟨rest, (c.passAll passed rest).lastLine,
        if first < (c.passAll passed rest).lastLine then
          c.verbatim ++ [⟨first + 1, (c.passAll passed rest).lastLine⟩]
        else c.verbatim⟩ := rfl

theorem passAll_cons (c : Cursor) (line : LogicalLine) (passed after rest : List LogicalLine) :
    (c.pass line rest).passAll passed after = c.passAll (line :: passed) after := by
  rw [passAll, passAll, List.getLast?_cons]
  cases passed.getLast? <;> rfl

end Cursor

namespace Scanner

/-- The line in turn. -/
def peek (s : Scanner) : Option LogicalLine := s.lines[s.index]?

/-- Moves to the next line. -/
def advance (s : Scanner) : Scanner :=
  { s with
    lastLine := (s.peek.map LogicalLine.number).getD s.lastLine
    index := s.index + 1 }

/-- Puts a line in the place of the one in turn. -/
def rewrite (s : Scanner) (line : LogicalLine) : Option Scanner :=
  if s.index < s.lines.length then some { s with lines := s.lines.set s.index line } else none

/-- Marks the lines behind the first line of a scalar. -/
def markVerbatim (s : Scanner) (first last : Nat) : Scanner :=
  if first < last then { s with verbatim := s.verbatim ++ [⟨first + 1, last⟩] } else s

/-- The scanner before the first line of a text. -/
def ofText (text : List Char) : Option Scanner :=
  (logicalLinesAt 1 (Text.lines text)).map fun lines => ⟨lines, 0, 0, []⟩

/-! ### Scalars -/

/-- The texts of the lines deeper than an indentation. -/
def blockFrom (parent : Nat) (s : Scanner) : Option (List (List Char) × Scanner) := do
  match s.peek with
  | none => some ([], s)
  | some next =>
    if next.indent ≤ parent then some ([], s)
    else
      let (body, after) ← s.advance |>.blockFrom parent
      some (next.text :: body, after)
partial_fixpoint

/-- Plain text with the lines that continue it. -/
def plainFrom (parent : Nat) (value : List Char) (s : Scanner) :
    Option (List Char × Scanner) := do
  match s.peek with
  | none => some (value, s)
  | some next =>
    if next.indent ≤ parent then some (value, s)
    else
      let more ← stripCommentAt (trim next.text)
      s.advance |>.plainFrom parent (value ++ ' ' :: more)
partial_fixpoint

/-- A text with the lines up to its closing quote, and the offset of that quote. -/
def quotedFrom (quote : Char) (text : List Char) (s : Scanner) :
    Option ((List Char × Option Nat) × Scanner) := do
  match ← closingFrom quote (bytes text) 1 with
  | some close => some ((text, some close), s)
  | none =>
    match s.peek with
    | none => some ((text, none), s)
    | some next => s.advance |>.quotedFrom quote (text ++ ' ' :: trim next.text)
partial_fixpoint

/-- A text with the lines up to its last closing bracket. -/
def flowFrom (text : List Char) (s : Scanner) : Option (List Char × Scanner) := do
  if 0 < openBrackets text then
    match s.peek with
    | none => some (text, s)
    | some next => s.advance |>.flowFrom (text ++ ' ' :: trim next.text)
  else some (text, s)
partial_fixpoint

/-- A block scalar behind its header. -/
def block (text : List Char) (parent : Nat) (s : Scanner) : Option (ScalarText × Scanner) := do
  let literal := text.head? = some '|'
  let (body, after) ← blockFrom parent s
  let raw ← stripCommentAt text
  some (⟨raw, [if literal then '\n' else ' '].intercalate body,
    if literal then .literal else .folded⟩, after)

/-- A quoted scalar. -/
def quoted (quote : Char) (text : List Char) (s : Scanner) : Option (ScalarText × Scanner) := do
  let ((joined, close?), after) ← quotedFrom quote text s
  let found ← quotedTextAt quote joined close?
  some (found, after)

/-- A collection in brackets. -/
def flow (text : List Char) (s : Scanner) : Option (ScalarText × Scanner) := do
  let (joined, after) ← flowFrom text s
  let raw ← stripCommentAt joined
  some (⟨raw, raw, .flow⟩, after)

/-- A plain scalar. -/
def plain (text : List Char) (parent : Nat) (s : Scanner) : Option (ScalarText × Scanner) := do
  let value ← stripCommentAt text
  let (value, after) ← plainFrom parent value s
  some (⟨value, value, .unquoted⟩, after)

/-- The content of the scalar that a text starts. -/
def content (text : List Char) (parent : Nat) (s : Scanner) : Option (ScalarText × Scanner) := do
  let first ← (bytes text)[0]?
  if first = '|'.toUInt8 ∨ first = '>'.toUInt8 then block text parent s
  else if first = '"'.toUInt8 then quoted '"' text s
  else if first = '\''.toUInt8 then quoted '\'' text s
  else if first = '\x7b'.toUInt8 ∨ first = '['.toUInt8 then flow text s
  else plain text parent s

/-- The scalar that a text starts at a position. -/
def scalar (tag? : Option (List Char)) (text : List Char) (position : Position) (parent : Nat)
    (s : Scanner) : Option (Node × Scanner) := do
  let (found, after) ← content text parent s
  let endLine := max after.lastLine position.line
  some (.scalar
    { raw := String.ofList found.raw
      text := String.ofList found.text
      style := found.style
      position := position
      endLine := endLine
      tag? := tag?.map String.ofList }, after.markVerbatim position.line endLine)

/-! ### Collections -/

mutual

/-- The node at the line in turn. -/
def node (s : Scanner) : Option (Node × Scanner) := do
  match s.peek with
  | none => some (.empty, s)
  | some line =>
    if isItem line.text then s |>.sequence line.indent
    else
      match ← keyOffsets line.text with
      | some _ => s |>.mapping line.indent
      | none => s.advance |>.value line.text line.number (line.indent + 1) (line.indent - 1)
partial_fixpoint

/-- The node on the lines deeper than an indentation. -/
def below (parent : Nat) (s : Scanner) : Option (Node × Scanner) := do
  match s.peek with
  | some next => if parent < next.indent then s |>.node else some (.empty, s)
  | none => some (.empty, s)
partial_fixpoint

/-- The sequence whose dashes stand at an indentation. -/
def sequence (indent : Nat) (s : Scanner) : Option (Node × Scanner) := do
  match s.peek with
  | none => some (.empty, s)
  | some line =>
    let (list, after) ← s |>.items indent
    some (.sequence ⟨line.number, indent + 1⟩ list, after)
partial_fixpoint

def items (indent : Nat) (s : Scanner) : Option (List (Item Node) × Scanner) := do
  match s.peek with
  | none => some ([], s)
  | some line =>
    if line.indent ≠ indent ∨ isItem line.text = false then some ([], s)
    else
      let (first, mid) ← s |>.item line
      let (more, after) ← mid |>.items indent
      some (⟨⟨line.number, indent + 1⟩, first, mid.lastLine⟩ :: more, after)
partial_fixpoint

/-- The node behind a dash. -/
def item (line : LogicalLine) (s : Scanner) : Option (Node × Scanner) := do
  let behind ← behindDashAt line
  if isAbsent behind.text then s.advance |>.below line.indent
  else
    let key? ← keyOffsets behind.text
    if isItem behind.text || key?.isSome then
      let entered ← s.rewrite behind
      entered |>.node
    else s.advance |>.value behind.text line.number (behind.indent + 1) line.indent
partial_fixpoint

/-- The mapping whose keys stand at an indentation. -/
def mapping (indent : Nat) (s : Scanner) : Option (Node × Scanner) := do
  match s.peek with
  | none => some (.empty, s)
  | some line =>
    let (list, after) ← s |>.entries indent
    some (.mapping ⟨line.number, indent + 1⟩ list, after)
partial_fixpoint

def entries (indent : Nat) (s : Scanner) : Option (List (Entry Node) × Scanner) := do
  match s.peek with
  | none => some ([], s)
  | some line =>
    if line.indent ≠ indent then some ([], s)
    else
      match ← keyOffsets line.text with
      | none => some ([], s)
      | some key =>
        let (gap, text) ← behindColonAt line.text key.colon
        let (first, mid) ← s.advance |>.entry line key gap text
        let (more, after) ← mid |>.entries indent
        some (⟨String.ofList key.key, ⟨line.number, indent + 1⟩,
            ⟨key.beforeColon, if isAbsent text then none else some (byteLength gap),
              !isAbsent text && gap.any (· != ' ')⟩, first, mid.lastLine⟩ :: more, after)
partial_fixpoint

/-- The node behind a colon. -/
def entry (line : LogicalLine) (key : KeyOffsets) (gap text : List Char) (s : Scanner) :
    Option (Node × Scanner) := do
  if isAbsent text then
    match s.peek with
    | some next =>
      if line.indent < next.indent then s |>.node
      else if next.indent = line.indent ∧ isItem next.text = true then s |>.sequence line.indent
      else some (.empty, s)
    | none => some (.empty, s)
  else s |>.value text line.number (line.indent + key.colon + byteLength gap + 2) line.indent
partial_fixpoint

/-- The value whose text starts at a place of a line that is passed. -/
def value (text : List Char) (line column parent : Nat) (s : Scanner) :
    Option (Node × Scanner) := do
  let (tag?, start, rest) ← skipPropertiesAt none column text
  if isAbsent rest then s |>.below parent
  else scalar tag? rest ⟨line, start⟩ parent s
partial_fixpoint

end

/-- The outline of a text. -/
def scan (text : List Char) : Option Outline := do
  let start ← Scanner.ofText text
  let (root, after) ← node start
  some ⟨root, after.verbatim⟩

/-! ### Scanners and cursors -/

/-- The cursor where a scanner stands. -/
def cursor (s : Scanner) : Cursor := ⟨s.lines.drop s.index, s.lastLine, s.verbatim⟩

theorem peek_eq (s : Scanner) : s.peek = s.cursor.lines.head? := List.head?_drop.symm

theorem peek_of_cons {s : Scanner} {line : LogicalLine} {rest : List LogicalLine}
    (h : s.cursor.lines = line :: rest) : s.peek = some line := by rw [peek_eq, h, List.head?_cons]

theorem peek_of_nil {s : Scanner} (h : s.cursor.lines = []) : s.peek = none := by
  rw [peek_eq, h, List.head?_nil]

theorem cursor_advance {s : Scanner} {line : LogicalLine} {rest : List LogicalLine}
    (h : s.cursor.lines = line :: rest) : s.advance.cursor = s.cursor.pass line rest := by
  have hrest : s.lines.drop (s.index + 1) = rest := by
    rw [← List.drop_drop]
    exact congrArg (List.drop 1) h
  rw [advance, peek_of_cons h, cursor, Cursor.pass, hrest]
  rfl

theorem rewrite_of_cons {s : Scanner} {line : LogicalLine} {rest : List LogicalLine}
    (h : s.cursor.lines = line :: rest) :
    ∃ t, s.rewrite line.behindDash = some t ∧ t.cursor = s.cursor.enter line rest ∧
      t.lines.length = s.lines.length := by
  have hlt : s.index < s.lines.length := by
    have hlength := congrArg List.length h
    simp only [cursor, List.length_drop, List.length_cons] at hlength
    omega
  have hdrop : (s.lines.set s.index line.behindDash).drop s.index = line.behindDash :: rest := by
    rw [List.drop_set, if_neg (Nat.lt_irrefl _), Nat.sub_self, show s.lines.drop s.index = _ from h,
      List.set_cons_zero]
  exact ⟨_, if_pos hlt, by rw [cursor, Cursor.enter, hdrop]; rfl, List.length_set⟩

/-- Every run from a cursor succeeds, with a value and a cursor behind, and keeps
the number of lines. -/
def Runs {α : Type} (run : Scanner → Option (α × Scanner)) (c : Cursor) (found : α)
    (after : Cursor) : Prop :=
  ∀ s : Scanner, s.cursor = c →
    ∃ t, run s = some (found, t) ∧ t.cursor = after ∧ t.lines.length = s.lines.length

/-! ### Scalars are read -/

section Scalars

variable {c : Cursor} {parent : Nat} {lines : List LogicalLine}

theorem blockFrom_runs (parent : Nat) (h : c.lines = lines) :
    Runs (blockFrom parent) c ((spanDeeper parent lines).1.map LogicalLine.text)
      (c.passAll (spanDeeper parent lines).1 (spanDeeper parent lines).2) := by
  induction lines generalizing c with
  | nil =>
    rintro s rfl
    rw [blockFrom, peek_of_nil h]
    exact ⟨s, rfl, (Cursor.passAll_nil h).symm, rfl⟩
  | cons line rest ih =>
    rintro s rfl
    rw [blockFrom, peek_of_cons h, spanDeeper]
    by_cases hdeeper : parent < line.indent
    · obtain ⟨t, hrun, hcursor, hlength⟩ := ih rfl s.advance (cursor_advance h)
      simp only [if_neg (Nat.not_le_of_lt hdeeper), if_pos hdeeper, hrun, Option.bind_eq_bind,
        Option.bind_some, List.map_cons]
      exact ⟨t, rfl, by rw [hcursor, Cursor.passAll_cons], hlength⟩
    · simp only [if_pos (Nat.le_of_not_lt hdeeper), if_neg hdeeper]
      exact ⟨s, rfl, (Cursor.passAll_nil h).symm, rfl⟩

theorem plainFrom_runs (parent : Nat) (value : List Char) (h : c.lines = lines) :
    Runs (plainFrom parent value) c
      (value ++ (spanDeeper parent lines).1.flatMap fun line => ' ' :: stripComment (trim line.text))
      (c.passAll (spanDeeper parent lines).1 (spanDeeper parent lines).2) := by
  induction lines generalizing c value with
  | nil =>
    rintro s rfl
    rw [plainFrom, peek_of_nil h]
    exact ⟨s, by simp [spanDeeper], (Cursor.passAll_nil h).symm, rfl⟩
  | cons line rest ih =>
    rintro s rfl
    rw [plainFrom, peek_of_cons h, spanDeeper]
    by_cases hdeeper : parent < line.indent
    · obtain ⟨t, hrun, hcursor, hlength⟩ :=
        ih (value ++ ' ' :: stripComment (trim line.text)) rfl s.advance (cursor_advance h)
      simp only [if_neg (Nat.not_le_of_lt hdeeper), if_pos hdeeper, stripCommentAt_eq, hrun,
        Option.bind_eq_bind, Option.bind_some]
      exact ⟨t, by simp, by rw [hcursor, Cursor.passAll_cons], hlength⟩
    · simp only [if_pos (Nat.le_of_not_lt hdeeper), if_neg hdeeper]
      exact ⟨s, by simp, (Cursor.passAll_nil h).symm, rfl⟩

theorem flowFrom_runs (text : List Char) (h : c.lines = lines) :
    Runs (flowFrom text) c (joinWhile (fun t => 0 < openBrackets t) text lines).1
      (c.passAll (joinWhile (fun t => 0 < openBrackets t) text lines).2.1
        (joinWhile (fun t => 0 < openBrackets t) text lines).2.2) := by
  induction lines generalizing c text with
  | nil =>
    rintro s rfl
    rw [flowFrom, peek_of_nil h]
    exact ⟨s, by simp only [joinWhile, ite_self], (Cursor.passAll_nil h).symm, rfl⟩
  | cons line rest ih =>
    rintro s rfl
    rw [flowFrom, peek_of_cons h, joinWhile]
    by_cases hopen : 0 < openBrackets text
    · obtain ⟨t, hrun, hcursor, hlength⟩ :=
        ih (text ++ ' ' :: trim line.text) rfl s.advance (cursor_advance h)
      simp only [if_pos hopen, decide_eq_true hopen, if_true, hrun]
      exact ⟨t, rfl, by rw [hcursor, Cursor.passAll_cons], hlength⟩
    · simp only [if_neg hopen, decide_eq_false hopen, Bool.false_eq_true, if_false]
      exact ⟨s, rfl, (Cursor.passAll_nil h).symm, rfl⟩

/-- The offset of the quote that closes a text, if there is one. -/
def closeOf (quote : Char) (rest : List Char) : Option Nat :=
  (splitQuoted quote rest).map fun found => 1 + byteLength found.1

theorem quotedFrom_runs {quote : Char} (hquote : quote = '"' ∨ quote = '\'') (rest : List Char)
    (h : c.lines = lines) :
    ∃ more, (joinWhile isUnclosed (quote :: rest) lines).1 = quote :: more ∧
      Runs (quotedFrom quote (quote :: rest)) c (quote :: more, closeOf quote more)
        (c.passAll (joinWhile isUnclosed (quote :: rest) lines).2.1
          (joinWhile isUnclosed (quote :: rest) lines).2.2) := by
  induction lines generalizing c rest with
  | nil =>
    refine ⟨rest, rfl, ?_⟩
    rintro s rfl
    rw [quotedFrom, closingFrom_one hquote, peek_of_nil h, closeOf]
    cases splitQuoted quote rest <;> exact ⟨s, rfl, (Cursor.passAll_nil h).symm, rfl⟩
  | cons line others ih =>
    rw [joinWhile, isUnclosed]
    cases hclose : splitQuoted quote rest with
    | none =>
      obtain ⟨more, hjoined, hruns⟩ := ih (c := c.pass line others) (rest ++ ' ' :: trim line.text) rfl
      rw [← List.cons_append] at hjoined hruns
      refine ⟨more, by simp only [Option.isNone_none, if_true, hjoined], ?_⟩
      rintro s rfl
      obtain ⟨t, hrun, hcursor, hlength⟩ := hruns s.advance (cursor_advance h)
      rw [quotedFrom, closingFrom_one hquote, peek_of_cons h, hclose]
      simp only [Option.map_none, Option.bind_eq_bind, Option.bind_some, Option.isNone_none, if_true]
      exact ⟨t, hrun, by rw [hcursor, Cursor.passAll_cons], hlength⟩
    | some found =>
      refine ⟨rest, by simp, ?_⟩
      rintro s rfl
      rw [quotedFrom, closingFrom_one hquote, closeOf, hclose]
      simp only [Option.map_some, Option.bind_eq_bind, Option.bind_some, Option.isNone_some,
        Bool.false_eq_true, if_false]
      exact ⟨s, rfl, (Cursor.passAll_nil h).symm, rfl⟩

theorem content_runs (parent : Nat) (c : Cursor) {first : Char} {rest : List Char} :
    Runs (content (first :: rest) parent) c (scalarText (first :: rest) parent c.lines).1
      (c.passAll (scalarText (first :: rest) parent c.lines).2.1
        (scalarText (first :: rest) parent c.lines).2.2) := by
  rintro s rfl
  obtain ⟨byte, more, heq, -, hbyte⟩ := exists_utf8EncodeChar_eq first
  have hget : (bytes (first :: rest))[0]? = some byte := by
    rw [bytes_cons, heq, List.cons_append, List.getElem?_cons_zero]
  rw [content, hget, scalarText]
  simp only [Option.bind_eq_bind, Option.bind_some, hbyte '|' (by decide), hbyte '>' (by decide),
    hbyte '"' (by decide), hbyte '\'' (by decide), hbyte '\x7b' (by decide), hbyte '[' (by decide)]
  by_cases hblock : first = '|' ∨ first = '>'
  · obtain ⟨t, hrun, hcursor, hlength⟩ := blockFrom_runs parent rfl s rfl
    simp only [if_pos hblock, block, hrun, stripCommentAt_eq, Option.bind_eq_bind, Option.bind_some,
      blockScalarText]
    refine ⟨t, ?_, hcursor, hlength⟩
    simp
  · simp only [if_neg hblock]
    by_cases hquote : first = '"' ∨ first = '\''
    · obtain ⟨more, hjoined, hruns⟩ := quotedFrom_runs hquote rest rfl
      obtain ⟨t, hrun, hcursor, hlength⟩ := hruns s rfl
      have hquoted : quoted first (first :: rest) s = some (quotedScalarText (first :: more), t) := by
        rw [quoted, hrun]
        simp only [Option.bind_eq_bind, Option.bind_some, closeOf, quotedTextAt_eq hquote]
      rw [if_pos hquote]
      dsimp only
      rw [hjoined]
      refine ⟨t, ?_, hcursor, hlength⟩
      rw [← hquoted]
      rcases hquote with rfl | rfl
      · rw [if_pos rfl]
      · rw [if_neg (by decide), if_pos rfl]
    · obtain ⟨hdouble, hsingle⟩ := not_or.mp hquote
      simp only [if_neg hdouble, if_neg hsingle, if_neg hquote]
      by_cases hbracket : first = '\x7b' ∨ first = '['
      · obtain ⟨t, hrun, hcursor, hlength⟩ := flowFrom_runs (first :: rest) rfl s rfl
        simp only [if_pos hbracket, flow, hrun, stripCommentAt_eq, Option.bind_eq_bind,
          Option.bind_some, flowText]
        exact ⟨t, rfl, hcursor, hlength⟩
      · obtain ⟨t, hrun, hcursor, hlength⟩ :=
          plainFrom_runs parent (stripComment (first :: rest)) rfl s rfl
        simp only [if_neg hbracket, plain, stripCommentAt_eq, Option.bind_eq_bind, Option.bind_some,
          hrun, plainText]
        exact ⟨t, rfl, hcursor, hlength⟩

theorem cursor_markVerbatim {t : Scanner} {passed rest : List LogicalLine}
    (h : t.cursor = c.passAll passed rest) (first : Nat) :
    (t.markVerbatim first (max t.lastLine first)).cursor = c.passVerbatim first passed rest := by
  have hlast : t.lastLine = (c.passAll passed rest).lastLine := congrArg Cursor.lastLine h
  have hverbatim : t.verbatim = c.verbatim := congrArg Cursor.verbatim h
  have hlines : t.lines.drop t.index = rest := congrArg Cursor.lines h
  rw [Cursor.passVerbatim_eq, ← hlast, ← hverbatim, ← hlines, markVerbatim]
  by_cases hfirst : first < t.lastLine
  · rw [if_pos (by omega), Nat.max_eq_left (Nat.le_of_lt hfirst), if_pos hfirst]
    rfl
  · rw [if_neg (by omega), if_neg hfirst]
    rfl

theorem length_markVerbatim (t : Scanner) (first last : Nat) :
    (t.markVerbatim first last).lines.length = t.lines.length := by
  rw [markVerbatim]
  split <;> rfl

theorem scalar_runs (c : Cursor) (tag? : Option (List Char)) {text : List Char}
    (h : isAbsent text = false) (position : Position) :
    Runs (scalar tag? text position parent) c (scalarAt tag? text position parent c).1.1
      (scalarAt tag? text position parent c).1.2 := by
  cases text with
  | nil => cases h
  | cons first rest =>
    intro s hs
    obtain ⟨t, hrun, hcursor, hlength⟩ := content_runs parent c s hs
    have hlast : t.lastLine = (c.passVerbatim position.line
        (scalarText (first :: rest) parent c.lines).2.1
        (scalarText (first :: rest) parent c.lines).2.2).lastLine := congrArg Cursor.lastLine hcursor
    rw [scalar, hrun]
    simp only [Option.bind_eq_bind, Option.bind_some, scalarAt]
    exact ⟨_, by rw [hlast], cursor_markVerbatim hcursor _,
      (length_markVerbatim _ _ _).trans hlength⟩

end Scalars

end Scanner

/-! ### Collections are read -/

section Collections

open Scanner (Runs peek_of_cons peek_of_nil peek_eq cursor_advance rewrite_of_cons)

theorem item_eq {line : LogicalLine} (hitem : isItem line.text = true) (s : Scanner) :
    Scanner.item line s =
      if isAbsent line.item then Scanner.below line.indent s.advance
      else if isItem line.item || (splitKey line.item).isSome then
        (s.rewrite line.behindDash).bind Scanner.node
      else
        Scanner.value line.item line.number (line.behindDash.indent + 1) line.indent s.advance := by
  rw [Scanner.item, behindDashAt_eq hitem]
  simp only [Option.bind_eq_bind, Option.bind_some, keyOffsets_eq, Option.isSome_map]
  rfl

theorem below_deeper {parent : Nat} {c after : Cursor} {next : LogicalLine} {n : Node}
    (hnext : c.lines.head? = some next) (hdeeper : parent < next.indent)
    (found : Runs Scanner.node c n after) : Runs (Scanner.below parent) c n after := by
  rintro s rfl
  rw [Scanner.below, peek_eq, hnext]
  simp only [if_pos hdeeper]
  exact found s rfl

theorem below_empty {parent : Nat} {c : Cursor}
    (hnext : ∀ next ∈ c.lines.head?, next.indent ≤ parent) :
    Runs (Scanner.below parent) c .empty c := by
  rintro s rfl
  rw [Scanner.below, peek_eq]
  cases hhead : s.cursor.lines.head? with
  | none => exact ⟨s, rfl, rfl, rfl⟩
  | some next =>
    simp only [if_neg (Nat.not_lt_of_le (hnext next hhead))]
    exact ⟨s, rfl, rfl, rfl⟩

mutual

theorem NodeAt.runs {c after : Cursor} {n : Node} : NodeAt c n after → Runs Scanner.node c n after
  | .nothing h => by
    rintro s rfl
    rw [Scanner.node, peek_of_nil h]
    exact ⟨s, rfl, rfl, rfl⟩
  | .sequence h hitem found => by
    have hfound := found.runs
    rintro s rfl
    obtain ⟨t, hrun, hcursor, hlength⟩ := hfound s rfl
    rw [Scanner.node, peek_of_cons h]
    simp only [if_pos hitem, Scanner.sequence, peek_of_cons h, hrun, Option.bind_eq_bind,
      Option.bind_some]
    exact ⟨t, rfl, hcursor, hlength⟩
  | .mapping h hitem hkey found => by
    have hfound := found.runs
    rintro s rfl
    obtain ⟨t, hrun, hcursor, hlength⟩ := hfound s rfl
    rw [Scanner.node, peek_of_cons h]
    simp only [hitem, Bool.false_eq_true, if_false, keyOffsets_eq, hkey, Option.map_some,
      Scanner.mapping, peek_of_cons h, hrun, Option.bind_eq_bind, Option.bind_some]
    exact ⟨t, rfl, hcursor, hlength⟩
  | .value h hitem hkey found => by
    have hfound := found.runs
    rintro s rfl
    obtain ⟨t, hrun, hcursor, hlength⟩ := hfound s.advance (cursor_advance h)
    rw [Scanner.node, peek_of_cons h]
    simp only [hitem, Bool.false_eq_true, if_false, keyOffsets_eq, hkey, Option.map_none, hrun,
      Option.bind_eq_bind, Option.bind_some]
    exact ⟨t, rfl, hcursor, hlength⟩

theorem ItemsAt.runs {indent : Nat} {c after : Cursor} {list : List (Item Node)} :
    ItemsAt indent c list after → Runs (Scanner.items indent) c list after
  | .stop h => by
    rintro s rfl
    rw [Scanner.items, peek_eq]
    cases hhead : s.cursor.lines.head? with
    | none => exact ⟨s, rfl, rfl, rfl⟩
    | some line =>
      have hstop : line.indent ≠ indent ∨ isItem line.text = false := by
        have := h line hhead
        rw [not_and_or, Bool.not_eq_true] at this
        exact this
      simp only [if_pos hstop]
      exact ⟨s, rfl, rfl, rfl⟩
  | .item h hindent hitem first more => by
    have hfirst := first.runs h hitem
    have hrest := more.runs
    rintro s rfl
    obtain ⟨t, hrun, hcursor, hlength⟩ := hfirst s rfl
    obtain ⟨u, hmore, hafter, hsame⟩ := hrest t hcursor
    have hlast : t.lastLine = _ := congrArg Cursor.lastLine hcursor
    rw [Scanner.items, peek_of_cons h]
    simp only [hindent, hitem, ne_eq, not_true_eq_false, Bool.true_eq_false, or_self, if_false, hrun,
      hmore, Option.bind_eq_bind, Option.bind_some, hlast]
    exact ⟨u, rfl, hafter, hsame.trans hlength⟩

theorem ItemAt.runs {c after : Cursor} {line : LogicalLine} {rest : List LogicalLine} {n : Node} :
    ItemAt c line rest n after → c.lines = line :: rest → isItem line.text = true →
      Runs (Scanner.item line) c n after
  | .deeper habsent hnext hdeeper found => by
    have hfound := found.runs
    rintro h hitem s rfl
    rw [item_eq hitem, if_pos habsent]
    exact below_deeper hnext hdeeper hfound s.advance (cursor_advance h)
  | .empty habsent hnext => by
    rintro h hitem s rfl
    rw [item_eq hitem, if_pos habsent]
    exact below_empty hnext s.advance (cursor_advance h)
  | .behind hpresent hcollection found => by
    have hfound := found.runs
    rintro h hitem s rfl
    obtain ⟨entered, hrewrite, hentered, hsame⟩ := rewrite_of_cons h
    obtain ⟨t, hrun, hcursor, hlength⟩ := hfound entered hentered
    rw [item_eq hitem, if_neg (Bool.eq_false_iff.mp hpresent), if_pos hcollection, hrewrite]
    exact ⟨t, hrun, hcursor, hlength.trans hsame⟩
  | .value hpresent hcollection found => by
    have hfound := found.runs
    rintro h hitem s rfl
    rw [item_eq hitem, if_neg (Bool.eq_false_iff.mp hpresent),
      if_neg (Bool.eq_false_iff.mp hcollection)]
    exact hfound s.advance (cursor_advance h)

theorem EntriesAt.runs {indent : Nat} {c after : Cursor} {list : List (Entry Node)} :
    EntriesAt indent c list after → Runs (Scanner.entries indent) c list after
  | .stop h => by
    rintro s rfl
    rw [Scanner.entries, peek_eq]
    cases hhead : s.cursor.lines.head? with
    | none => exact ⟨s, rfl, rfl, rfl⟩
    | some line =>
      have hstop := h line hhead
      by_cases hindent : line.indent = indent
      · have hkey : splitKey line.text = none := by simpa [hindent] using hstop
        simp only [hindent, ne_eq, not_true_eq_false, if_false, keyOffsets_eq, hkey, Option.map_none,
          Option.bind_eq_bind, Option.bind_some]
        exact ⟨s, rfl, rfl, rfl⟩
      · simp only [ne_eq, hindent, not_false_eq_true, if_true]
        exact ⟨s, rfl, rfl, rfl⟩
  | @EntriesAt.entry _ _ _ _ _ _ split _ _ h hindent hkey first more => by
    have hfirst := first.runs h
    have hrest := more.runs
    rintro s rfl
    obtain ⟨t, hrun, hcursor, hlength⟩ := hfirst s.advance (cursor_advance h)
    obtain ⟨u, hmore, hafter, hsame⟩ := hrest t hcursor
    have hlast : t.lastLine = _ := congrArg Cursor.lastLine hcursor
    have hcolon : behindColonAt _ split.offsets.colon = _ := behindColonAt_eq hkey
    rw [Scanner.entries, peek_of_cons h]
    simp only [hindent, ne_eq, not_true_eq_false, if_false, keyOffsets_eq, hkey, Option.map_some,
      hcolon, hrun, hmore, Option.bind_eq_bind, Option.bind_some, hlast]
    exact ⟨u, rfl, hafter, hsame.trans hlength⟩

theorem EntryAt.runs {c after : Cursor} {line : LogicalLine} {rest : List LogicalLine}
    {split : KeySplit} {n : Node} :
    EntryAt c line rest split n after → c.lines = line :: rest →
      Runs (Scanner.entry line split.offsets split.gap split.value) (c.pass line rest) n after
  | .deeper habsent hnext hdeeper found => by
    intro h s hs
    rw [Scanner.entry, if_pos habsent, peek_eq, hs]
    simp only [Cursor.pass, hnext, if_pos hdeeper]
    exact found.runs s hs
  | @EntryAt.items _ _ _ next _ _ _ habsent hnext hindent hitem found => by
    intro h s hs
    obtain ⟨t, hrun, hcursor, hlength⟩ := found.runs s hs
    have hpeek : s.peek = some next := by
      rw [peek_eq, hs]
      exact hnext
    rw [Scanner.entry, if_pos habsent, hpeek]
    simp only [hindent, hitem, Nat.lt_irrefl, if_false, and_self, if_true, Scanner.sequence, hpeek,
      hrun, Option.bind_eq_bind, Option.bind_some]
    exact ⟨t, rfl, hcursor, hlength⟩
  | .empty habsent hnext => by
    intro h s hs
    rw [Scanner.entry, if_pos habsent, peek_eq, hs]
    simp only [Cursor.pass]
    cases hhead : rest.head? with
    | none => exact ⟨s, rfl, hs, rfl⟩
    | some next =>
      obtain ⟨hle, hitem⟩ := hnext next hhead
      simp only [if_neg (Nat.not_lt_of_le hle), if_neg hitem]
      exact ⟨s, rfl, hs, rfl⟩
  | .value hpresent found => by
    intro h s hs
    rw [Scanner.entry, if_neg (Bool.eq_false_iff.mp hpresent)]
    exact found.runs s hs

theorem ValueAt.runs {text : List Char} {line column parent : Nat} {c after : Cursor} {n : Node} :
    ValueAt text line column parent c n after → Runs (Scanner.value text line column parent) c n after
  | .deeper habsent hnext hdeeper found => by
    intro s hs
    rw [Scanner.value, skipPropertiesAt_eq]
    simp only [Option.bind_eq_bind, Option.bind_some, if_pos habsent]
    exact below_deeper hnext hdeeper found.runs s hs
  | .empty habsent hnext => by
    intro s hs
    rw [Scanner.value, skipPropertiesAt_eq]
    simp only [Option.bind_eq_bind, Option.bind_some, if_pos habsent]
    exact below_empty hnext s hs
  | .scalar hskip hpresent => by
    intro s hs
    rw [Scanner.value, skipPropertiesAt_eq, hskip]
    simp only [Option.bind_eq_bind, Option.bind_some, if_neg (Bool.eq_false_iff.mp hpresent)]
    exact Scanner.scalar_runs _ _ hpresent _ s hs

end

end Collections

/-! ### A node passes its first line -/

section Remaining

theorem scalarAt_length_le (tag? : Option (List Char)) (text : List Char) (position : Position)
    (parent : Nat) (c : Cursor) :
    (scalarAt tag? text position parent c).1.2.lines.length ≤ c.lines.length := by
  rw [← congrArg List.length (scalarText_append text parent c.lines), List.length_append]
  exact Nat.le_add_left _ _

variable {c after : Cursor}

theorem length_pass_lt {line : LogicalLine} {rest : List LogicalLine}
    (h : c.lines = line :: rest) : (c.pass line rest).lines.length < c.lines.length := by
  rw [h]
  exact Nat.lt_succ_self _

/-- As many lines as are passed at a line that a node begins with. -/
def Passes (c after : Cursor) : Prop :=
  after.lines.length ≤ c.lines.length ∧ (c.lines ≠ [] → after.lines.length < c.lines.length)

mutual

theorem NodeAt.passes {c after : Cursor} {n : Node} : NodeAt c n after → Passes c after
  | .nothing h => ⟨Nat.le_refl _, fun hne => absurd h hne⟩
  | .sequence h hitem found => by
    have hlt := found.length_lt h rfl hitem
    exact ⟨Nat.le_of_lt hlt, fun _ => hlt⟩
  | .mapping h _ hkey found => by
    have hlt := found.length_lt h rfl (by rw [hkey]; rfl)
    exact ⟨Nat.le_of_lt hlt, fun _ => hlt⟩
  | .value h _ _ found => by
    have hlt := Nat.lt_of_le_of_lt found.length_le (length_pass_lt h)
    exact ⟨Nat.le_of_lt hlt, fun _ => hlt⟩

theorem ItemsAt.length_le {indent : Nat} {c after : Cursor} {list : List (Item Node)} :
    ItemsAt indent c list after → after.lines.length ≤ c.lines.length
  | .stop _ => Nat.le_refl _
  | .item h _ _ first more => by
    have hmid := first.length_le
    have hafter := more.length_le
    rw [h, List.length_cons]
    omega

theorem ItemsAt.length_lt {indent : Nat} {c after : Cursor} {list : List (Item Node)}
    {line : LogicalLine} {rest : List LogicalLine} :
    ItemsAt indent c list after → c.lines = line :: rest → line.indent = indent →
      isItem line.text = true → after.lines.length < c.lines.length
  | .stop hstop => fun h hindent hitem => absurd ⟨hindent, hitem⟩ (hstop line (by simp [h]))
  | .item h _ _ first more => by
    have hmid := first.length_le
    have hafter := more.length_le
    intro _ _ _
    rw [h, List.length_cons]
    omega

theorem ItemAt.length_le {c after : Cursor} {line : LogicalLine} {rest : List LogicalLine}
    {n : Node} : ItemAt c line rest n after → after.lines.length ≤ rest.length
  | .deeper _ _ _ found => found.passes.1
  | .empty _ _ => Nat.le_refl _
  | .behind _ _ found => Nat.le_of_lt_succ (found.passes.2 (List.cons_ne_nil _ _))
  | .value _ _ found => found.length_le

theorem EntriesAt.length_le {indent : Nat} {c after : Cursor} {list : List (Entry Node)} :
    EntriesAt indent c list after → after.lines.length ≤ c.lines.length
  | .stop _ => Nat.le_refl _
  | .entry h _ _ first more => by
    have hmid := first.length_le
    have hafter := more.length_le
    rw [h, List.length_cons]
    omega

theorem EntriesAt.length_lt {indent : Nat} {c after : Cursor} {list : List (Entry Node)}
    {line : LogicalLine} {rest : List LogicalLine} :
    EntriesAt indent c list after → c.lines = line :: rest → line.indent = indent →
      (splitKey line.text).isSome = true → after.lines.length < c.lines.length
  | .stop hstop => fun h hindent hkey => absurd ⟨hindent, hkey⟩ (hstop line (by simp [h]))
  | .entry h _ _ first more => by
    have hmid := first.length_le
    have hafter := more.length_le
    intro _ _ _
    rw [h, List.length_cons]
    omega

theorem EntryAt.length_le {c after : Cursor} {line : LogicalLine} {rest : List LogicalLine}
    {split : KeySplit} {n : Node} :
    EntryAt c line rest split n after → after.lines.length ≤ rest.length
  | .deeper _ _ _ found => found.passes.1
  | .items _ _ _ _ found => found.length_le
  | .empty _ _ => Nat.le_refl _
  | .value _ found => found.length_le

theorem ValueAt.length_le {text : List Char} {line column parent : Nat} {c after : Cursor}
    {n : Node} :
    ValueAt text line column parent c n after → after.lines.length ≤ c.lines.length
  | .deeper _ _ _ found => found.passes.1
  | .empty _ _ => Nat.le_refl _
  | .scalar _ _ => scalarAt_length_le _ _ _ _ _

end

end Remaining

/-! ### No run fails -/

/-- From every scanner, a node is read without failure, and where a line is left,
the index grows. -/
theorem Scanner.node_advances (s : Scanner) :
    ∃ n after, s.node = some (n, after) ∧ (s.peek = none ∨ s.index < after.index) := by
  have hread := node_at s.cursor
  obtain ⟨t, hrun, hcursor, hlength⟩ := hread.runs s rfl
  refine ⟨_, t, hrun, ?_⟩
  cases hlines : s.cursor.lines with
  | nil => exact .inl (peek_of_nil hlines)
  | cons line rest =>
    have hlt := hread.passes.2 (by rw [hlines]; exact List.cons_ne_nil _ _)
    rw [← hcursor] at hlt
    simp only [cursor, List.length_drop, hlength] at hlt
    exact .inr (by omega)

theorem Scanner.scan_eq (text : List Char) : scan text = some (Outline.scan text) := by
  have hstart : Scanner.ofText text = some ⟨LogicalLine.ofText text, 0, 0, []⟩ := by
    rw [Scanner.ofText, logicalLinesAt_eq (forall₂_splitLines_lines text)]
    rfl
  obtain ⟨t, hrun, hcursor, -⟩ :=
    (node_at (.ofText text)).runs ⟨LogicalLine.ofText text, 0, 0, []⟩ rfl
  have hverbatim : t.verbatim = _ := congrArg Cursor.verbatim hcursor
  rw [scan, hstart]
  simp only [Option.bind_eq_bind, Option.bind_some, hrun, hverbatim]
  rfl

end PlaybookStyle.Outline
