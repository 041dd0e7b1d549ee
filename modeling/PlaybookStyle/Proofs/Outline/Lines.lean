/-
Lines written one after the other, and what the scanner finds on each of them.

`Rendered.read` says what a block is read as when places and blanks are left out.
Here they are kept, for lines of three forms: a key with a token behind its colon,
a key alone, and a dash with a key behind it. A `Token` is a scalar that ends
where its line ends. Each form has one rule (`EntriesAt.withToken`, `EntriesAt.withNode`,
`ItemsAt.withKey`), which says where the entry or item stands and where reading
goes on.
-/

import PlaybookStyle.Proofs.Outline.Courses
import PlaybookStyle.Proofs.Outline.Leaves
import PlaybookStyle.Proofs.Source.Places

namespace PlaybookStyle

namespace Text

/-! ### Lines with their line feeds -/

/-- Lines one after the other, each with a line feed behind it. -/
def joinLines (lines : List (List Char)) : List Char := lines.flatMap (· ++ ['\n'])

theorem joinLines_append (a b : List (List Char)) :
    joinLines (a ++ b) = joinLines a ++ joinLines b := by
  rw [joinLines, List.flatMap_append, ← joinLines, ← joinLines]

theorem splitLines_append_newline {line : List Char} (h : '\n' ∉ line) (rest : List Char) :
    splitLines (line ++ '\n' :: rest) = line :: splitLines rest := by
  induction line with
  | nil => exact splitLines_newline rest
  | cons c more ih =>
    rw [List.mem_cons, not_or] at h
    rw [List.cons_append, splitLines, if_neg (Ne.symm h.1), ih h.2]

/-- Cutting a text into lines undoes putting lines together. -/
theorem splitLines_joinLines {lines : List (List Char)} (h : ∀ line ∈ lines, '\n' ∉ line) :
    splitLines (joinLines lines) = lines := by
  induction lines with
  | nil => rfl
  | cons line rest ih =>
    rw [joinLines, List.flatMap_cons, ← joinLines, List.append_assoc, List.singleton_append,
      splitLines_append_newline (h line List.mem_cons_self),
      ih fun l hl => h l (List.mem_cons_of_mem _ hl)]

end Text

namespace Outline

open Text

/-! ### Logical lines -/

/-- A line of a block as it stands in the source. -/
def BlockLine.source (b : BlockLine) : List Char := List.replicate b.indent ' ' ++ b.text

/-- The lines of a block as logical lines, numbered from `number`. -/
def numbered (number : Nat) : List BlockLine → List LogicalLine
  | [] => []
  | b :: rest => ⟨number, b.indent, b.text⟩ :: numbered (number + 1) rest

theorem ofLine?_source {b : BlockLine} (h : b.Solid) (number : Nat) :
    LogicalLine.ofLine? number b.source = some ⟨number, b.indent, b.text⟩ := by
  have hblanks : ([] : List Char).all isBlank = true := rfl
  have hline := ofLine?_block h hblanks number
  rwa [List.append_nil] at hline

theorem ofLines_append {blocks : List BlockLine} (h : ∀ b ∈ blocks, b.Solid) (number : Nat)
    (rest : List (List Char)) :
    LogicalLine.ofLines number (blocks.map BlockLine.source ++ rest) =
      numbered number blocks ++ LogicalLine.ofLines (number + blocks.length) rest := by
  induction blocks generalizing number with
  | nil => rfl
  | cons b more ih =>
    have hlength : number + (b :: more).length = number + 1 + more.length := by
      rw [List.length_cons]
      omega
    rw [List.map_cons, List.cons_append, LogicalLine.ofLines,
      ofLine?_source (h b List.mem_cons_self), ih fun b hb => h b (List.mem_cons_of_mem _ hb),
      hlength]
    rfl

theorem ofLines_blank (number : Nat) (rest : List (List Char)) :
    LogicalLine.ofLines number ([] :: rest) = LogicalLine.ofLines (number + 1) rest := rfl

/-! ### Ends of lines -/

/-- Trimming carriage returns leaves a line that ends with a character as it is. -/
theorem BlockLine.Solid.trimEndOf_source {b : BlockLine} (h : b.Solid) :
    trimEndOf (· == '\r') b.source = b.source := by
  obtain ⟨before, c, htext, hblank⟩ := h.closes
  have hreturn : c ≠ '\r' := by
    rintro rfl
    cases hblank
  rw [source, htext, ← List.append_assoc]
  exact trimEndOf_append_of_not (p := (· == '\r')) (beq_eq_false_iff_ne.mpr hreturn) _

/-! ### Keys -/

theorem IsPlainKey.splitKey_eq {key rest : List Char} (h : IsPlainKey key)
    (hrest : endsKey rest = true) :
    splitKey (key ++ ':' :: rest) = some ⟨key, byteLength key, 0, rest⟩ := by
  have hsplit := splitColon_append_colon h.colon h.comment 0 hrest
  have hblanks : ([] : List Char).all isBlank = true := rfl
  have htrim : trimEnd key = key := by simpa using h.closes.trimEnd_append [] hblanks
  obtain ⟨c, more, rfl, -⟩ := h.starts
  obtain ⟨-, hdouble, hsingle, hopens⟩ := h.first c rfl
  rw [List.replicate_zero, List.nil_append, List.append_nil, List.cons_append] at hsplit
  have hcut := CutAtKey.plain (not_or.mpr ⟨hdouble, hsingle⟩) hopens hsplit (by rw [htrim]; rfl)
  rw [htrim, Nat.sub_self] at hcut
  exact splitKey_eq_some_iff.mpr hcut

/-! ### Tokens -/

/-- A text that is read as a scalar on its line, whatever follows that is not
deeper. -/
structure Token (text : List Char) (found : ScalarText) : Prop where
  starts : Starts text
  closes : Closes text
  property : ∀ c ∈ text.head?, ¬(c = '!' ∨ c = '&')
  alone : ∀ (parent : Nat) (lines : List LogicalLine),
    (∀ next ∈ lines.head?, next.indent ≤ parent) → scalarText text parent lines = (found, [], lines)

theorem token_word {text : List Char} (h : isWord text = true) :
    Token text ⟨text, text, .unquoted⟩ := by
  have hplain := isPlain_of_isWord h
  have hstrip := stripComment_append_note hplain.starts hplain.closes
    (hasCommentMark_of_all_isWordChar (all_isWordChar_of_isWord h)) .nothing
  have hproperty := hplain.no_property []
  rw [List.append_nil] at hstrip hproperty
  refine ⟨hplain.starts, hplain.closes, hproperty, fun parent lines hlines => ?_⟩
  have hread := hplain.scalarText_append parent lines []
  rw [List.append_nil, spanDeeper_of_le hlines] at hread
  rw [hread, plainText, hstrip, List.flatMap_nil, List.append_nil]

theorem unescape_of_forall_ne {text : List Char} (h : ∀ c ∈ text, c ≠ '\\') :
    unescape text = text := by
  induction text with
  | nil => rfl
  | cons c rest ih =>
    have hc : c ≠ '\\' := h c List.mem_cons_self
    rw [unescape, ih fun d hd => h d (List.mem_cons_of_mem _ hd)]
    all_goals simp [hc]

theorem token_double {text : List Char} (h : ∀ c ∈ text, c ≠ '"' ∧ c ≠ '\\') :
    Token ('"' :: (text ++ ['"'])) ⟨'"' :: (text ++ ['"']), text, .double⟩ := by
  have hsplit : splitQuoted '"' (text ++ '"' :: []) = some (text, []) := splitDouble_key h
  have hread : quotedScalarText ('"' :: (text ++ ['"'])) =
      ⟨'"' :: (text ++ ['"']), text, .double⟩ := by
    simp [quotedScalarText, hsplit, unescape_of_forall_ne fun c hc => (h c hc).2]
  refine ⟨⟨'"', _, rfl, by decide, by decide⟩, closes_append_singleton (by decide) ('"' :: text),
    ?_, fun parent lines _ => ?_⟩
  · rintro _ ⟨⟩
    decide
  · rw [scalarText_closed (.inl rfl) hsplit, hread]

/-- The scalar of a token at a position. -/
def ScalarText.scalarAt (found : ScalarText) (position : Position) : Scalar :=
  ⟨String.ofList found.raw, String.ofList found.text, found.style, position, position.line, none⟩

section Steps

variable {text key : List Char} {found : ScalarText} {number k : Nat} {c after : Cursor}
  {rest : List LogicalLine}

theorem Token.valueAt (h : Token text found) {column parent : Nat}
    (hnext : ∀ next ∈ c.lines.head?, next.indent ≤ parent) (hlast : c.lastLine = number) :
    ValueAt text number column parent c (.scalar (found.scalarAt ⟨number, column⟩)) c := by
  have habsent := h.starts.isAbsent
  have hskip : skipProperties none column text = (none, column, text) := by
    obtain ⟨first, more, rfl, -⟩ := h.starts
    exact skipProperties_of_ne (h.property first rfl) none column more
  have hread := h.alone parent c.lines hnext
  have hpass : c.passVerbatim number [] c.lines = c := by
    obtain ⟨lines, lastLine, verbatim⟩ := c
    obtain rfl : lastLine = number := hlast
    simp [Cursor.passVerbatim]
  have hscalar : (scalarAt none text ⟨number, column⟩ parent c).1 =
      (.scalar (found.scalarAt ⟨number, column⟩), c) := by
    simp only [Outline.scalarAt, hread, hpass, hlast, Nat.max_self, Option.map_none,
      ScalarText.scalarAt]
  have hvalue : ValueAt text number column parent c (scalarAt none text ⟨number, column⟩ parent c).1.1
      (scalarAt none text ⟨number, column⟩ parent c).1.2 := .scalar hskip habsent
  rwa [hscalar] at hvalue

/-! ### Lines with keys -/

theorem Token.solid (hkey : IsPlainKey key) (h : Token text found) :
    BlockLine.Solid ⟨k, key ++ ':' :: ' ' :: text⟩ :=
  ⟨hkey.starts.append _, (h.closes.append [':', ' ']).append key,
    fun _ => hkey.isDocumentMarker_append List.mem_cons_self⟩

theorem IsPlainKey.solid (hkey : IsPlainKey key) : BlockLine.Solid ⟨k, key ++ [':']⟩ :=
  ⟨hkey.starts.append _, closes_key key, fun _ => hkey.isDocumentMarker_append List.mem_cons_self⟩

/-- The blanks of a key that a token follows as it should. -/
def spaced : KeySpacing := ⟨0, some 1, false⟩

/-- The blanks of a key with nothing behind it. -/
def unspaced : KeySpacing := ⟨0, none, false⟩

/-- The entry of a key with a token behind it, at an indentation. -/
def tokenEntry (key : List Char) (found : ScalarText) (number k : Nat) : Entry Node :=
  ⟨String.ofList key, ⟨number, k + 1⟩, spaced,
    .scalar (found.scalarAt ⟨number, k + byteLength key + 3⟩), number⟩

/-- A line with a token behind its key is an entry, and the next line is read. -/
theorem EntriesAt.withToken (hkey : IsPlainKey key) (h : Token text found)
    (hlines : c.lines = ⟨number, k, key ++ ':' :: ' ' :: text⟩ :: rest)
    (hnext : ∀ next ∈ rest.head?, next.indent ≤ k) {list : List (Entry Node)}
    (more : EntriesAt k { c with lines := rest, lastLine := number } list after) :
    EntriesAt k c (tokenEntry key found number k :: list) after := by
  have hends : endsKey (' ' :: text) = true := rfl
  have hsplit := hkey.splitKey_eq hends
  have hvalue : trimStart (' ' :: text) = text := trimStart_gap_append h.starts 0
  have hgap : (' ' :: text).takeWhile isBlank = [' '] := by
    obtain ⟨first, behind, rfl, hblank, -⟩ := h.starts
    rw [List.takeWhile_cons_of_pos (by decide), List.takeWhile_cons_of_neg (by simp [hblank])]
  have hspacing : KeySplit.spacing ⟨key, byteLength key, 0, ' ' :: text⟩ = spaced := by
    simp only [KeySplit.spacing, KeySplit.value, KeySplit.gap, hvalue, hgap, h.starts.isAbsent]
    rfl
  have hfound : ValueAt text number (k + byteLength key + 3) k
      { c with lines := rest, lastLine := number }
      (.scalar (found.scalarAt ⟨number, k + byteLength key + 3⟩))
      { c with lines := rest, lastLine := number } := h.valueAt hnext rfl
  have hentry := EntriesAt.entry hlines rfl hsplit
    (.value (by rw [KeySplit.value, hvalue]; exact h.starts.isAbsent)
      (by rw [KeySplit.value, KeySplit.gap, hvalue, hgap]; exact hfound)) more
  rwa [hspacing] at hentry

/-- A line with nothing behind its key is an entry with the node below it. -/
theorem EntriesAt.withNode (hkey : IsPlainKey key)
    (hlines : c.lines = ⟨number, k, key ++ [':']⟩ :: rest) {next : LogicalLine}
    (hnext : rest.head? = some next) (hdeeper : k < next.indent) {n : Node} {mid : Cursor}
    (hnode : NodeAt { c with lines := rest, lastLine := number } n mid) {list : List (Entry Node)}
    (more : EntriesAt k mid list after) :
    EntriesAt k c
      (⟨String.ofList key, ⟨number, k + 1⟩, unspaced, n, mid.lastLine⟩ :: list) after := by
  have hends : endsKey [] = true := rfl
  exact .entry hlines rfl (hkey.splitKey_eq hends) (.deeper rfl hnext hdeeper hnode) more

/-- A dash with a key behind it is an item that begins on the same line. -/
theorem ItemsAt.withKey (hlines : c.lines = ⟨number, k, '-' :: ' ' :: text⟩ :: rest)
    (hstarts : Starts text) (hsplit : (splitKey text).isSome = true) {n : Node} {mid : Cursor}
    (hnode : NodeAt { c with lines := ⟨number, k + 2, text⟩ :: rest } n mid)
    {list : List (Item Node)} (more : ItemsAt k mid list after) :
    ItemsAt k c (⟨⟨number, k + 1⟩, n, mid.lastLine⟩ :: list) after := by
  let line : LogicalLine := ⟨number, k, '-' :: ' ' :: text⟩
  have hgap : line.text = '-' :: (gap 0 ++ text) := rfl
  obtain ⟨hitem, hblock⟩ := LogicalLine.behindDash_gap hstarts hgap
  obtain ⟨hindent, htext⟩ := BlockLine.mk.inj hblock
  have hbehind : line.behindDash = ⟨number, k + 2, text⟩ := by
    rw [LogicalLine.mk.injEq]
    exact ⟨rfl, hindent, htext⟩
  refine .item hlines rfl rfl (.behind ?_ ?_ ?_) more
  · rw [hitem]
    exact hstarts.isAbsent
  · rw [hitem, hsplit, Bool.or_true]
  · rw [Cursor.enter, hbehind]
    exact hnode

end Steps

end Outline

end PlaybookStyle
