/-
Texts that differ in one line.

Where the text of one line is exchanged for another at the same indentation (`Exchange`), the
scanner takes the line for what it was, also behind the dashes before that text (`Exchanged`).
So all it looks at in the line that comes first is as it was (`Differ.exists_front`), and a scalar
that begins before the line takes the same lines and has the same content, unless it takes that
line (`Exchange.Ahead.scalarAt`). What ends before the line is read as it was (`NodeAt.ahead`).
-/

import PlaybookStyle.Proofs.Outline.Following

namespace PlaybookStyle.Outline

open Text

/-! ### Colons behind dashes -/

/-- A text that begins with no hash sign is cut alike behind a space and elsewhere. -/
theorem splitColon_spaced {text : List Char} (h : text.head? ≠ some '#') (spaced : Bool) :
    splitColon spaced text = splitColon false text := by
  cases text with
  | nil => rfl
  | cons c rest =>
    have hc : c ≠ '#' := by simpa using h
    simp only [splitColon, hc, false_and, if_false]

theorem isSome_splitColon_cons {c : Char} (hash : c ≠ '#') (colon : c ≠ ':') (rest : List Char)
    (spaced : Bool) :
    (splitColon spaced (c :: rest)).isSome = (splitColon (c == ' ') rest).isSome := by
  rw [splitColon, if_neg fun mark => hash mark.1, if_neg fun mark => colon mark.1, Option.isSome_map]

theorem isSome_splitColon_blanks {blanks text : List Char} (hblanks : blanks.all isBlank = true)
    (h : text.head? ≠ some '#') (spaced : Bool) :
    (splitColon spaced (blanks ++ text)).isSome = (splitColon false text).isSome := by
  induction blanks generalizing spaced with
  | nil => rw [List.nil_append, splitColon_spaced h]
  | cons c blanks ih =>
    rw [List.all_cons, Bool.and_eq_true] at hblanks
    have hash : c ≠ '#' := by
      rintro rfl
      exact absurd hblanks.1 (by decide)
    have colon : c ≠ ':' := by
      rintro rfl
      exact absurd hblanks.1 (by decide)
    rw [List.cons_append, isSome_splitColon_cons hash colon, ih hblanks.2]

theorem head?_ne_of_present {text : List Char} (h : isAbsent text = false) :
    text.head? ≠ some '#' := by
  cases text with
  | nil => cases h
  | cons c rest => simpa [isAbsent] using h

namespace LogicalLine

variable {line : LogicalLine}

/-- A dash hides no colon. -/
theorem isSome_splitColon_item (hitem : isItem line.text = true)
    (hpresent : isAbsent line.item = false) :
    (splitColon false line.text).isSome = (splitColon false line.item).isSome := by
  obtain ⟨rest, hrest⟩ := exists_eq_cons_of_isItem hitem
  have hgap : rest.takeWhile isBlank ++ line.item = rest := by
    rw [item, hrest, List.drop_succ_cons, List.drop_zero]
    exact takeWhile_append_trimStart rest
  rw [hrest, isSome_splitColon_cons (by decide) (by decide), ← hgap]
  exact isSome_splitColon_blanks (isBlank_of_mem_takeWhile rest) (head?_ne_of_present hpresent) _

/-- A line that begins with a dash has a key if it has a colon. -/
theorem isSome_splitKey_item (hitem : isItem line.text = true) :
    (splitKey line.text).isSome = (splitColon false line.text).isSome := by
  obtain ⟨rest, hrest⟩ := exists_eq_cons_of_isItem hitem
  have hquote : ¬('-' = '"' ∨ '-' = '\'') := by decide
  have hopens : ¬opensNoKey '-' = true := by decide
  have hcut : splitColon false ('-' :: rest) =
      (splitColon false rest).map fun found => ('-' :: found.1, found.2) := by
    rw [splitColon, if_neg (by decide), if_neg fun mark => absurd mark.1 (by decide)]
    rfl
  rw [hrest, splitKey, if_neg hquote, if_neg hopens, hcut]
  cases splitColon false rest with
  | none => rfl
  | some found =>
    have hne : (trimEnd ('-' :: found.1)).isEmpty = false := by
      rw [trimEnd_cons_of_not_isBlank (by decide)]
      rfl
    simp only [Option.map_some, hne, Bool.false_eq_true, if_false, Option.isSome_some]

end LogicalLine

/-! ### Exchanged lines -/

/-- A line and one that it is exchanged for: all is the same but what is left behind some
dashes, one line for another. -/
inductive Exchanged (old new : LogicalLine) : LogicalLine → LogicalLine → Prop
  | here : Exchanged old new old new
  | behind {line line' : LogicalLine} (number : line'.number = line.number)
      (indent : line'.indent = line.indent) (oldItem : isItem line.text = true)
      (newItem : isItem line'.text = true) (oldPresent : isAbsent line.item = false)
      (newPresent : isAbsent line'.item = false)
      (inner : Exchanged old new line.behindDash line'.behindDash) : Exchanged old new line line'

/-- The text of a line behind its dashes, as it is and as it is exchanged. It still opens an
item, or has a key, if it did; and it gets no colon that it had not. -/
structure Exchange where
  number : Nat
  indent : Nat
  old : List Char
  new : List Char
  item : isItem new = isItem old
  key : (splitKey new).isSome = (splitKey old).isSome
  colon : (splitColon false new).isSome = true → (splitColon false old).isSome = true

/-- What the scanner looks at in the line that comes first, before it is read. The line opens
a collection as it did, and has a key only if it had one. -/
structure Front (line line' : LogicalLine) : Prop where
  number : line'.number = line.number
  indent : line'.indent = line.indent
  isItem : isItem line'.text = isItem line.text
  collection : (Outline.isItem line'.text || (splitKey line'.text).isSome) =
    (Outline.isItem line.text || (splitKey line.text).isSome)
  isSome_splitKey : (splitKey line'.text).isSome = true → (splitKey line.text).isSome = true

theorem Front.refl (line : LogicalLine) : Front line line := ⟨rfl, rfl, rfl, rfl, id⟩

theorem Front.exists_splitKey {line line' : LogicalLine} (h : Front line line')
    (hitem : Outline.isItem line.text = false) {split : KeySplit} (hkey : splitKey line.text = some split) :
    ∃ split', splitKey line'.text = some split' := by
  have hcollection := h.collection
  rw [h.isItem, hitem, hkey, Bool.false_or] at hcollection
  exact Option.isSome_iff_exists.mp hcollection

namespace Exchange

def oldLine (x : Exchange) : LogicalLine := ⟨x.number, x.indent, x.old⟩

def newLine (x : Exchange) : LogicalLine := ⟨x.number, x.indent, x.new⟩

/-- A line with the text on it, as it is and exchanged; dashes may stand before. -/
abbrev Line (x : Exchange) : LogicalLine → LogicalLine → Prop := Exchanged x.oldLine x.newLine

/-- Behind the dash of an item the line is exchanged too. -/
structure Dashed (x : Exchange) (line line' : LogicalLine) : Prop where
  oldPresent : isAbsent line.item = false
  newPresent : isAbsent line'.item = false
  inner : x.Line line.behindDash line'.behindDash

variable {x : Exchange} {line line' : LogicalLine}

namespace Line

theorem number_eq (h : x.Line line line') : line.number = x.number ∧ line'.number = x.number := by
  induction h with
  | here => exact ⟨rfl, rfl⟩
  | behind number _ _ _ _ _ _ ih => exact ih

theorem indent_eq (h : x.Line line line') : line'.indent = line.indent := by
  cases h with
  | here => rfl
  | behind _ indent => exact indent

theorem isItem_eq (h : x.Line line line') : isItem line'.text = isItem line.text := by
  cases h with
  | here => exact x.item
  | behind _ _ oldItem newItem => rw [oldItem, newItem]

theorem isSome_splitColon_of (h : x.Line line line')
    (new : (splitColon false line'.text).isSome = true) : (splitColon false line.text).isSome = true := by
  induction h with
  | here => exact x.colon new
  | behind _ _ oldItem newItem oldPresent newPresent _ ih =>
    rw [LogicalLine.isSome_splitColon_item newItem newPresent] at new
    rw [LogicalLine.isSome_splitColon_item oldItem oldPresent]
    exact ih new

/-- The new line has a key only if the old one has. -/
theorem isSome_splitKey_of (h : x.Line line line') (new : (splitKey line'.text).isSome = true) :
    (splitKey line.text).isSome = true := by
  cases h with
  | here => exact x.key.symm.trans new
  | behind number indent oldItem newItem oldPresent newPresent inner =>
    rw [LogicalLine.isSome_splitKey_item newItem] at new
    rw [LogicalLine.isSome_splitKey_item oldItem]
    exact isSome_splitColon_of (.behind number indent oldItem newItem oldPresent newPresent inner) new

/-- What opens a collection does so in the new line too. -/
theorem collection_eq (h : x.Line line line') :
    (isItem line'.text || (splitKey line'.text).isSome) =
      (isItem line.text || (splitKey line.text).isSome) := by
  cases h with
  | here => rw [show isItem x.newLine.text = _ from x.item,
      show (splitKey x.newLine.text).isSome = _ from x.key, oldLine]
  | behind _ _ oldItem newItem => rw [oldItem, newItem, Bool.true_or, Bool.true_or]

theorem front (h : x.Line line line') : Front line line' :=
  ⟨h.number_eq.2.trans h.number_eq.1.symm, h.indent_eq, h.isItem_eq, h.collection_eq,
    h.isSome_splitKey_of⟩

theorem indent_le (h : x.Line line line') : line.indent ≤ x.indent := by
  induction h with
  | here => exact Nat.le_refl _
  | behind _ _ _ _ _ _ _ ih =>
    simp only [LogicalLine.behindDash] at ih
    omega

/-- Only what is behind all dashes stands at its indentation. -/
theorem eq_of_indent (h : x.Line line line') (indent : line.indent = x.indent) :
    line = x.oldLine ∧ line' = x.newLine := by
  cases h with
  | here => exact ⟨rfl, rfl⟩
  | behind _ _ _ _ _ _ inner =>
    have hinner := indent_le inner
    simp only [LogicalLine.behindDash] at hinner
    omega

/-- Any other line than that of the text itself has dashes before the text. -/
theorem dashed (h : x.Line line line') (hne : line ≠ x.oldLine) : x.Dashed line line' := by
  cases h with
  | here => exact absurd rfl hne
  | behind _ _ _ _ oldPresent newPresent inner => exact ⟨oldPresent, newPresent, inner⟩

/-- A line that is no item has no dashes before the text. -/
theorem eq_of_not_isItem (h : x.Line line line') (hitem : isItem line.text = false) :
    line = x.oldLine ∧ line' = x.newLine := by
  cases h with
  | here => exact ⟨rfl, rfl⟩
  | behind _ _ oldItem => exact absurd (hitem.symm.trans oldItem) (by decide)

end Line

end Exchange

/-! ### Lines of which one is exchanged -/

/-- Lines, one of which is exchanged. -/
inductive Differ (R : LogicalLine → LogicalLine → Prop) :
    List LogicalLine → List LogicalLine → Prop
  | head {line line' : LogicalLine} {rest : List LogicalLine} (h : R line line') :
      Differ R (line :: rest) (line' :: rest)
  | tail {line : LogicalLine} {rest rest' : List LogicalLine} (h : Differ R rest rest') :
      Differ R (line :: rest) (line :: rest')

namespace Differ

variable {x : Exchange} {lines lines' : List LogicalLine}

theorem append (before : List LogicalLine) (h : Differ x.Line lines lines') :
    Differ x.Line (before ++ lines) (before ++ lines') := by
  induction before with
  | nil => exact h
  | cons line rest ih => exact .tail ih

/-- The line is among them. -/
theorem exists_number (h : Differ x.Line lines lines') : ∃ line ∈ lines, line.number = x.number := by
  induction h with
  | head h => exact ⟨_, List.mem_cons_self, h.number_eq.1⟩
  | tail _ ih =>
    obtain ⟨line, hline, hnumber⟩ := ih
    exact ⟨line, List.mem_cons_of_mem _ hline, hnumber⟩

/-- Of the lines that are left, the first is exchanged or another. -/
theorem cases_cons {line : LogicalLine} {rest : List LogicalLine}
    (h : Differ x.Line (line :: rest) lines') :
    (∃ line', x.Line line line' ∧ lines' = line' :: rest) ∨
      ∃ rest', Differ x.Line rest rest' ∧ lines' = line :: rest' := by
  cases h with
  | head h => exact .inl ⟨_, h, rfl⟩
  | tail h => exact .inr ⟨_, h, rfl⟩

theorem exists_front (h : Differ x.Line lines lines') {next : LogicalLine}
    (hnext : lines.head? = some next) : ∃ next', lines'.head? = some next' ∧ Front next next' := by
  cases h with
  | head h =>
    obtain rfl := Option.some.inj hnext
    exact ⟨_, rfl, h.front⟩
  | tail h => exact ⟨next, hnext, .refl next⟩

theorem forall_head? (h : Differ x.Line lines lines') {P Q : LogicalLine → Prop}
    (imp : ∀ line line', Front line line' → P line → Q line') (hP : ∀ line ∈ lines.head?, P line) :
    ∀ line ∈ lines'.head?, Q line := by
  cases h with
  | head h =>
    rintro _ ⟨⟩
    exact imp _ _ h.front (hP _ rfl)
  | tail h =>
    rintro _ ⟨⟩
    exact imp _ _ (.refl _) (hP _ rfl)

/-! ### What a scalar takes -/

/-- Lines are taken off a list alike whether or not a later one is exchanged. -/
structure Takes (x : Exchange) (taken after taken' after' : List LogicalLine) : Prop where
  taken : taken' = taken
  after : Differ x.Line after after'

theorem spanDeeper (h : Differ x.Line lines lines') (indent : Nat) :
    Takes x (spanDeeper indent lines).1 (spanDeeper indent lines).2 (spanDeeper indent lines').1
        (spanDeeper indent lines').2 ∨
      ∃ line ∈ (Outline.spanDeeper indent lines).1, line.number = x.number := by
  induction h with
  | @head line line' rest h =>
    rw [Outline.spanDeeper, Outline.spanDeeper, h.indent_eq]
    split
    · exact .inr ⟨line, List.mem_cons_self, h.number_eq.1⟩
    · exact .inl ⟨rfl, .head h⟩
  | @tail line rest rest' h ih =>
    rw [Outline.spanDeeper, Outline.spanDeeper]
    split
    · rcases ih with ⟨htaken, hafter⟩ | ⟨other, hother, hnumber⟩
      · exact .inl ⟨congrArg (line :: ·) htaken, hafter⟩
      · exact .inr ⟨other, List.mem_cons_of_mem _ hother, hnumber⟩
    · exact .inl ⟨rfl, .tail h⟩

theorem joinWhile (h : Differ x.Line lines lines') (more : List Char → Bool) (text : List Char) :
    ((joinWhile more text lines').1 = (joinWhile more text lines).1 ∧
      Takes x (joinWhile more text lines).2.1 (joinWhile more text lines).2.2
        (joinWhile more text lines').2.1 (joinWhile more text lines').2.2) ∨
      ∃ line ∈ (Outline.joinWhile more text lines).2.1, line.number = x.number := by
  induction h generalizing text with
  | @head line line' rest h =>
    rw [Outline.joinWhile, Outline.joinWhile]
    split
    · exact .inr ⟨line, List.mem_cons_self, h.number_eq.1⟩
    · exact .inl ⟨rfl, rfl, .head h⟩
  | @tail line rest rest' h ih =>
    rw [Outline.joinWhile, Outline.joinWhile]
    split
    · rcases ih (text ++ ' ' :: trim line.text) with ⟨htext, htaken, hafter⟩ | ⟨other, hother, hnumber⟩
      · exact .inl ⟨htext, congrArg (line :: ·) htaken, hafter⟩
      · exact .inr ⟨other, List.mem_cons_of_mem _ hother, hnumber⟩
    · exact .inl ⟨rfl, rfl, .tail h⟩

theorem scalarText (h : Differ x.Line lines lines') (text : List Char) (parent : Nat) :
    ((scalarText text parent lines').1 = (scalarText text parent lines).1 ∧
      Takes x (scalarText text parent lines).2.1 (scalarText text parent lines).2.2
        (scalarText text parent lines').2.1 (scalarText text parent lines').2.2) ∨
      ∃ line ∈ (Outline.scalarText text parent lines).2.1, line.number = x.number := by
  have deeper := h.spanDeeper parent
  unfold Outline.scalarText
  split
  · exact .inl ⟨rfl, rfl, h⟩
  · rename_i c rest
    dsimp only
    split
    · exact deeper.imp_left fun takes => ⟨by rw [takes.taken], takes⟩
    · split
      · exact (h.joinWhile isUnclosed (c :: rest)).imp_left fun found => ⟨by rw [found.1], found.2⟩
      · split
        · exact (h.joinWhile _ (c :: rest)).imp_left fun found => ⟨by rw [found.1], found.2⟩
        · exact deeper.imp_left fun takes => ⟨by rw [takes.taken], takes⟩

end Differ

/-! ### Cursors before the line -/

/-- The lines that a scalar takes are passed. -/
theorem Cursor.Placed.number_le_passVerbatim {source : List Char} {c : Cursor}
    (hc : c.Placed source) {passed rest : List LogicalLine} (h : passed ++ rest = c.lines)
    (first : Nat) {line : LogicalLine} (hline : line ∈ passed) :
    line.number ≤ (c.passVerbatim first passed rest).lastLine := by
  have hordered := (List.pairwise_cons.mp hc.ordered).2
  cases hlast : passed.getLast? with
  | none =>
    obtain rfl := List.getLast?_eq_none_iff.mp hlast
    cases hline
  | some last =>
    obtain ⟨before, rfl⟩ := List.getLast?_eq_some_iff.mp hlast
    simp only [Cursor.passVerbatim, hlast, Option.map_some, Option.getD_some]
    rw [← h, List.map_append, List.map_append, List.append_assoc] at hordered
    rcases List.mem_append.mp hline with hline | hline
    · exact Nat.le_of_lt ((List.pairwise_append.mp hordered).2.2 _ (List.mem_map_of_mem hline) _
        (List.mem_append_left _ List.mem_cons_self))
    · exact Nat.le_of_eq (congrArg LogicalLine.number (List.mem_singleton.mp hline))

namespace Exchange

/-- A cursor with the line still ahead. -/
structure Ahead (x : Exchange) (c c' : Cursor) : Prop where
  lines : Differ x.Line c.lines c'.lines
  lastLine : c'.lastLine = c.lastLine
  verbatim : c'.verbatim = c.verbatim

namespace Ahead

variable {source : List Char} {x : Exchange} {c c' : Cursor} {line : LogicalLine}
  {rest rest' : List LogicalLine}

theorem pass (h : x.Ahead c c') (hrest : Differ x.Line rest rest') :
    x.Ahead (c.pass line rest) (c'.pass line rest') :=
  ⟨hrest, rfl, h.verbatim⟩

theorem enter (h : x.Ahead c c') (hrest : Differ x.Line rest rest') :
    x.Ahead (c.enter line rest) (c'.enter line rest') :=
  ⟨.tail hrest, h.lastLine, h.verbatim⟩

/-- Behind the dash of the line that is exchanged. -/
theorem enter_dashed {line' : LogicalLine} (h : x.Ahead c c') (hline : x.Dashed line line') :
    x.Ahead (c.enter line rest) (c'.enter line' rest) :=
  ⟨.head hline.inner, h.lastLine, h.verbatim⟩

/-- Of the lines that are left, the first is the one exchanged, or another. -/
theorem cases_lines (h : x.Ahead c c') (hlines : c.lines = line :: rest) :
    (∃ line', x.Line line line' ∧ c'.lines = line' :: rest) ∨
      ∃ rest', Differ x.Line rest rest' ∧ c'.lines = line :: rest' :=
  (hlines ▸ h.lines).cases_cons

/-- Either way, what the scanner looks at in it is as it was. -/
theorem cases_front (h : x.Ahead c c') (hlines : c.lines = line :: rest) :
    ∃ line' rest', c'.lines = line' :: rest' ∧
      (x.Line line line' ∧ rest = rest' ∨ line = line' ∧ Differ x.Line rest rest') ∧
      Front line line' := by
  rcases h.cases_lines hlines with ⟨line', hline, hlines'⟩ | ⟨rest', hrest, hlines'⟩
  · exact ⟨line', rest, hlines', .inl ⟨hline, rfl⟩, hline.front⟩
  · exact ⟨line, rest', hlines', .inr ⟨rfl, hrest⟩, .refl line⟩

/-- A line that is exchanged is not passed before it. -/
theorem cases_passed (h : x.Ahead c c') (hlines : c.lines = line :: rest) {last : Nat}
    (passed : line.number ≤ last) (before : last < x.number) :
    ∃ rest', Differ x.Line rest rest' ∧ c'.lines = line :: rest' := by
  rcases h.cases_lines hlines with ⟨line', hline, -⟩ | hrest
  · exact absurd (hline.number_eq.1 ▸ passed) (Nat.not_le.mpr before)
  · exact hrest

/-- The line is behind the lines passed. -/
theorem lt_number (h : x.Ahead c c') (hc : c.Placed source) : c.lastLine < x.number := by
  obtain ⟨line, hline, hnumber⟩ := h.lines.exists_number
  rw [← hnumber]
  exact (List.pairwise_cons.mp hc.ordered).1 _ (List.mem_map_of_mem hline)

/-- A scalar that ends before the line is read as it was. -/
theorem scalarAt (h : x.Ahead c c') (hc : c.Placed source) (tag? : Option (List Char))
    (text : List Char) (position : Position) (parent : Nat)
    (before : (Outline.scalarAt tag? text position parent c).1.2.lastLine < x.number) :
    (Outline.scalarAt tag? text position parent c').1.1 =
        (Outline.scalarAt tag? text position parent c).1.1 ∧
      x.Ahead (Outline.scalarAt tag? text position parent c).1.2
        (Outline.scalarAt tag? text position parent c').1.2 := by
  rcases h.lines.scalarText text parent with ⟨htext, htaken, hafter⟩ | ⟨line, hline, hnumber⟩
  · have hlast : (c'.passVerbatim position.line (scalarText text parent c'.lines).2.1
        (scalarText text parent c'.lines).2.2).lastLine =
          (c.passVerbatim position.line (scalarText text parent c.lines).2.1
            (scalarText text parent c.lines).2.2).lastLine := by
      simp only [Cursor.passVerbatim, htaken, h.lastLine]
    refine ⟨?_, hafter, hlast, ?_⟩
    · simp only [Outline.scalarAt, htext, hlast]
    · simp only [Outline.scalarAt, Cursor.passVerbatim, htaken, h.lastLine, h.verbatim]
  · -- The line would be among those that the scalar takes.
    have hle := hc.number_le_passVerbatim (scalarText_append text parent c.lines) position.line hline
    exact absurd (hnumber ▸ hle) (Nat.not_le.mpr before)

end Ahead

end Exchange

/-! ### What is read before the line -/

section Reading

variable {source : List Char} {x : Exchange}

mutual

/-- What ends before the line is read as it was. -/
theorem NodeAt.ahead {c after : Cursor} {n : Node} :
    NodeAt c n after → c.Placed source → ∀ {c'}, x.Ahead c c' → after.lastLine < x.number →
      ∃ after', NodeAt c' n after' ∧ x.Ahead after after'
  | .nothing h => by
    intro _ c' hahead _
    have hlines := hahead.lines
    rw [h] at hlines
    cases hlines
  | .sequence h hitem found => by
    intro hc c' hahead before
    have hpassed := ((NodeAt.sequence h hitem found).nests hc _ (Nat.lt_succ_self _)
      hc.lastLine_lt_head).2 _ (by rw [h]; rfl)
    obtain ⟨rest', -, hlines⟩ := hahead.cases_passed h hpassed before
    obtain ⟨after', hfound, hafter⟩ := found.ahead hc hahead before
    exact ⟨after', .sequence hlines hitem hfound, hafter⟩
  | .mapping h hitem hkey found => by
    intro hc c' hahead before
    have hpassed := ((NodeAt.mapping h hitem hkey found).nests hc _ (Nat.lt_succ_self _)
      hc.lastLine_lt_head).2 _ (by rw [h]; rfl)
    obtain ⟨rest', -, hlines⟩ := hahead.cases_passed h hpassed before
    obtain ⟨after', hfound, hafter⟩ := found.ahead hc hahead before
    exact ⟨after', .mapping hlines hitem hkey hfound, hafter⟩
  | .value h hitem hkey found => by
    intro hc c' hahead before
    have hpassed := ((NodeAt.value h hitem hkey found).nests hc _ (Nat.lt_succ_self _)
      hc.lastLine_lt_head).2 _ (by rw [h]; rfl)
    obtain ⟨rest', hrest, hlines⟩ := hahead.cases_passed h hpassed before
    obtain ⟨after', hfound, hafter⟩ := found.ahead (hc.pass h) (hahead.pass hrest) before
    exact ⟨after', .value hlines hitem hkey hfound, hafter⟩

theorem ItemsAt.ahead {indent : Nat} {c after : Cursor} {list : List (Item Node)} :
    ItemsAt indent c list after → c.Placed source → ∀ {c'}, x.Ahead c c' →
      after.lastLine < x.number → ∃ after', ItemsAt indent c' list after' ∧ x.Ahead after after'
  | .stop h => by
    intro _ c' hahead _
    refine ⟨c', .stop (hahead.lines.forall_head? (fun line line' front hline => ?_) h), hahead⟩
    rwa [front.indent, front.isItem]
  | .item h hindent hitem first more => by
    intro hc c' hahead before
    obtain ⟨hnests, hpassed⟩ := first.nests h hitem hc
    have hmid := (first.placed h hitem hc).2
    have hbefore := Nat.lt_of_le_of_lt (more.ordered hmid).2 before
    obtain ⟨rest', hrest, hlines⟩ := hahead.cases_passed h hpassed hbefore
    obtain ⟨mid', hfirst, hmid'⟩ := first.ahead h hitem hc hahead hrest hbefore
    obtain ⟨after', hmore, hafter⟩ := more.ahead hmid hmid' before
    exact ⟨after', hmid'.lastLine ▸ .item hlines hindent hitem hfirst hmore, hafter⟩

theorem ItemAt.ahead {c after : Cursor} {line : LogicalLine} {rest : List LogicalLine} {n : Node} :
    ItemAt c line rest n after → c.lines = line :: rest → isItem line.text = true →
      c.Placed source → ∀ {c' rest'}, x.Ahead c c' → Differ x.Line rest rest' →
        after.lastLine < x.number → ∃ after', ItemAt c' line rest' n after' ∧ x.Ahead after after'
  | .deeper habsent hnext hdeeper found => by
    intro h _ hc c' rest' hahead hrest before
    obtain ⟨next', hhead', front⟩ := hrest.exists_front hnext
    obtain ⟨after', hfound, hafter⟩ := found.ahead (hc.pass h) (hahead.pass hrest) before
    exact ⟨after', .deeper habsent hhead' (by rwa [front.indent]) hfound, hafter⟩
  | .empty habsent hnext => by
    intro _ _ _ c' rest' hahead hrest _
    refine ⟨_, .empty habsent (hrest.forall_head? (fun next next' front hle => ?_) hnext),
      hahead.pass hrest⟩
    rwa [front.indent]
  | .behind hpresent hcollection found => by
    intro h hitem hc c' rest' hahead hrest before
    obtain ⟨after', hfound, hafter⟩ :=
      found.ahead (hc.enter h hitem hpresent) (hahead.enter hrest) before
    exact ⟨after', .behind hpresent hcollection hfound, hafter⟩
  | .value hpresent hcollection found => by
    intro h _ hc c' rest' hahead hrest before
    obtain ⟨after', hfound, hafter⟩ := found.ahead (hc.pass h) (hahead.pass hrest) before
    exact ⟨after', .value hpresent hcollection hfound, hafter⟩

theorem EntriesAt.ahead {indent : Nat} {c after : Cursor} {list : List (Entry Node)} :
    EntriesAt indent c list after → c.Placed source → ∀ {c'}, x.Ahead c c' →
      after.lastLine < x.number → ∃ after', EntriesAt indent c' list after' ∧ x.Ahead after after'
  | .stop h => by
    intro _ c' hahead _
    refine ⟨c', .stop (hahead.lines.forall_head? (fun line line' front hline => ?_) h), hahead⟩
    rw [front.indent]
    exact fun hboth => hline ⟨hboth.1, front.isSome_splitKey hboth.2⟩
  | .entry h hindent hkey first more => by
    intro hc c' hahead before
    have hnests := first.nests h hc
    have hmid := (first.placed h hkey hc).2
    have hbefore := Nat.lt_of_le_of_lt (more.ordered hmid).2 before
    obtain ⟨rest', hrest, hlines⟩ := hahead.cases_passed h hnests.passes hbefore
    obtain ⟨mid', hfirst, hmid'⟩ := first.ahead h hc hahead hrest hbefore
    obtain ⟨after', hmore, hafter⟩ := more.ahead hmid hmid' before
    exact ⟨after', hmid'.lastLine ▸ .entry hlines hindent hkey hfirst hmore, hafter⟩

theorem EntryAt.ahead {c after : Cursor} {line : LogicalLine} {rest : List LogicalLine}
    {split : KeySplit} {n : Node} :
    EntryAt c line rest split n after → c.lines = line :: rest → c.Placed source →
      ∀ {c' rest'}, x.Ahead c c' → Differ x.Line rest rest' → after.lastLine < x.number →
        ∃ after', EntryAt c' line rest' split n after' ∧ x.Ahead after after'
  | .deeper habsent hnext hdeeper found => by
    intro h hc c' rest' hahead hrest before
    obtain ⟨next', hhead', front⟩ := hrest.exists_front hnext
    obtain ⟨after', hfound, hafter⟩ := found.ahead (hc.pass h) (hahead.pass hrest) before
    exact ⟨after', .deeper habsent hhead' (by rwa [front.indent]) hfound, hafter⟩
  | .items habsent hnext hindent hitem found => by
    intro h hc c' rest' hahead hrest before
    obtain ⟨next', hhead', front⟩ := hrest.exists_front hnext
    obtain ⟨after', hfound, hafter⟩ := found.ahead (hc.pass h) (hahead.pass hrest) before
    refine ⟨after', ?_, hafter⟩
    rw [← front.number]
    exact .items habsent hhead' (front.indent.trans hindent) (front.isItem.trans hitem) hfound
  | .empty habsent hnext => by
    intro _ _ c' rest' hahead hrest _
    refine ⟨_, .empty habsent (hrest.forall_head? (fun next next' front hle => ?_) hnext),
      hahead.pass hrest⟩
    rwa [front.indent, front.isItem]
  | .value hpresent found => by
    intro h hc c' rest' hahead hrest before
    obtain ⟨after', hfound, hafter⟩ := found.ahead (hc.pass h) (hahead.pass hrest) before
    exact ⟨after', .value hpresent hfound, hafter⟩

theorem ValueAt.ahead {text : List Char} {line column parent : Nat} {c after : Cursor} {n : Node} :
    ValueAt text line column parent c n after → c.Placed source → ∀ {c'}, x.Ahead c c' →
      after.lastLine < x.number →
        ∃ after', ValueAt text line column parent c' n after' ∧ x.Ahead after after'
  | .deeper habsent hnext hdeeper found => by
    intro hc c' hahead before
    obtain ⟨next', hhead', front⟩ := hahead.lines.exists_front hnext
    obtain ⟨after', hfound, hafter⟩ := found.ahead hc hahead before
    exact ⟨after', .deeper habsent hhead' (by rwa [front.indent]) hfound, hafter⟩
  | .empty habsent hnext => by
    intro _ c' hahead _
    refine ⟨c', .empty habsent (hahead.lines.forall_head? (fun next next' front hle => ?_) hnext),
      hahead⟩
    rwa [front.indent]
  | .scalar hskip hpresent => by
    intro hc c' hahead before
    obtain ⟨hnode, hafter⟩ := hahead.scalarAt hc _ _ _ _ before
    exact ⟨_, hnode ▸ .scalar hskip hpresent, hafter⟩

end

end Reading

end PlaybookStyle.Outline
