/-
Scanning undoes rendering.

A leaf is a text with the way it is quoted: between double quotes with escapes,
between single quotes, or bare if it is a word. `leafWriting` writes such leaves
on one line, perhaps with a comment behind them, under keys that are names. The
scanner reads what it writes (`leafWriting_legible`), so that the outline of a
rendered document is the tree that was rendered (`scan_rendered`).
-/

import PlaybookStyle.Proofs.Outline.Scalars

namespace PlaybookStyle.Outline

open Text

/-! ### Words and names -/

/-- A character of a bare word: a letter, a digit, or one of a few marks. -/
def isWordChar (c : Char) : Bool :=
  c.isAlphanum || c == '_' || c == '.' || c == '/' || c == '-'

/-- A text that may stand bare. -/
def isWord : List Char → Bool
  | [] => false
  | c :: rest => c.isAlpha && rest.all isWordChar

/-- A key that is a name. -/
def isName : List Char → Bool
  | [] => false
  | c :: rest => (c.isAlpha || c == '_') && rest.all fun c => c.isAlphanum || c == '_'

theorem isBlank_of_isAlphanum {c : Char} (h : c.isAlphanum = true) : isBlank c = false := by
  delta Char.isAlphanum Char.isAlpha Char.isUpper Char.isLower Char.isDigit at h
  simp only [UInt32.le_iff_toNat_le, Bool.or_eq_true, Bool.and_eq_true, decide_eq_true_eq] at h
  simp [isBlank, UInt32.le_iff_toNat_le, ← UInt32.toNat_inj] at h ⊢
  omega

/-- What no character of a word is. -/
theorem isWordChar_ne {c : Char} (h : isWordChar c = true) :
    isBlank c = false ∧ c ≠ '#' ∧ c ≠ ':' := by
  simp only [isWordChar, Bool.or_eq_true, beq_iff_eq] at h
  rcases h with (((h | rfl) | rfl) | rfl) | rfl
  · refine ⟨isBlank_of_isAlphanum h, ?_, ?_⟩
    · rintro rfl
      cases h
    · rintro rfl
      cases h
  all_goals decide

theorem isWordChar_of_isAlpha {c : Char} (h : c.isAlpha = true) : isWordChar c = true := by
  simp [isWordChar, Char.isAlphanum, h]

theorem all_isWordChar_of_isWord {text : List Char} (h : isWord text = true) :
    text.all isWordChar = true := by
  cases text with
  | nil => rfl
  | cons c rest =>
    obtain ⟨hc, hrest⟩ := Bool.and_eq_true_iff.mp h
    rw [List.all_cons, isWordChar_of_isAlpha hc, hrest]
    rfl

theorem all_isWordChar_of_isName {text : List Char} (h : isName text = true) :
    text.all isWordChar = true := by
  cases text with
  | nil => rfl
  | cons c rest =>
    obtain ⟨hc, hrest⟩ := Bool.and_eq_true_iff.mp h
    rw [List.all_cons, Bool.and_eq_true, List.all_eq_true]
    refine ⟨?_, fun d hd => ?_⟩
    · simp only [Bool.or_eq_true, beq_iff_eq] at hc
      rcases hc with hc | rfl
      · exact isWordChar_of_isAlpha hc
      · decide
    · have hd := List.all_eq_true.mp hrest d hd
      simp only [Bool.or_eq_true, beq_iff_eq] at hd
      rcases hd with hd | rfl
      · simp [isWordChar, hd]
      · decide

/-! ### Quotes -/

/-- A character between double quotes. -/
def escapeChar (c : Char) : List Char :=
  if c = '\\' then ['\\', '\\']
  else if c = '"' then ['\\', '"']
  else if c = '\n' then ['\\', 'n']
  else if c = '\t' then ['\\', 't']
  else [c]

/-- A text between double quotes. -/
def escape (text : List Char) : List Char := text.flatMap escapeChar

/-- A text between single quotes. -/
def doubled (text : List Char) : List Char :=
  text.flatMap fun c => if c = '\'' then ['\'', '\''] else [c]

theorem splitDouble_escapeChar (c : Char) (rest : List Char) :
    splitDouble (escapeChar c ++ rest) =
      (splitDouble rest).map fun (inner, after) => (escapeChar c ++ inner, after) := by
  unfold escapeChar
  split
  · rfl
  · rename_i hbackslash
    split
    · rfl
    · rename_i hquote
      split
      · rfl
      · split
        · rfl
        · exact splitDouble.eq_4 c rest hquote (fun _ _ h _ => hbackslash h)

theorem unescape_escapeChar (c : Char) (rest : List Char) :
    unescape (escapeChar c ++ rest) = c :: unescape rest := by
  unfold escapeChar
  split
  · rename_i h
    rw [h]
    rfl
  · rename_i hbackslash
    split
    · rename_i h
      rw [h]
      rfl
    · split
      · rename_i h
        rw [h]
        rfl
      · split
        · rename_i h
          rw [h]
          rfl
        · rw [List.singleton_append, unescape]
          all_goals simp [hbackslash]

/-- The closing quote is found behind an escaped text. -/
theorem splitDouble_escape (text after : List Char) :
    splitDouble (escape text ++ '"' :: after) = some (escape text, after) := by
  induction text with
  | nil => rfl
  | cons c rest ih =>
    rw [escape, List.flatMap_cons, ← escape, List.append_assoc, splitDouble_escapeChar, ih]
    rfl

theorem unescape_escape (text : List Char) : unescape (escape text) = text := by
  induction text with
  | nil => rfl
  | cons c rest ih => rw [escape, List.flatMap_cons, ← escape, unescape_escapeChar, ih]

/-- The closing quote is found behind a text with doubled quotes. -/
theorem splitSingle_doubled (text : List Char) {after : List Char} (h : after.head? ≠ some '\'') :
    splitSingle (doubled text ++ '\'' :: after) = some (doubled text, after) := by
  induction text with
  | nil =>
    rw [doubled, List.flatMap_nil, List.nil_append, splitSingle]
    rintro rest rfl
    exact h rfl
  | cons c rest ih =>
    rw [doubled, List.flatMap_cons, ← doubled, List.append_assoc]
    split
    · rw [List.cons_append, List.cons_append, List.nil_append, splitSingle, ih]
      rfl
    · rename_i hquote
      rw [List.singleton_append, splitSingle, ih]
      · rfl
      · simp [hquote]
      · simp [hquote]

theorem undouble_doubled (text : List Char) : undouble (doubled text) = text := by
  induction text with
  | nil => rfl
  | cons c rest ih =>
    rw [doubled, List.flatMap_cons, ← doubled]
    split
    · rename_i h
      rw [List.cons_append, List.cons_append, List.nil_append, undouble, ih, h]
    · rename_i hquote
      rw [List.singleton_append, undouble, ih]
      simp [hquote]

/-! ### Leaves -/

/-- A leaf: how it is quoted, and its text. -/
structure Leaf where
  style : QuoteStyle
  text : List Char
deriving DecidableEq, Repr

/-- A leaf as it is written, with what stands behind it. -/
inductive WrittenLeaf : Leaf → List Char → Prop
  | double {text note : List Char} (h : Note note) :
      WrittenLeaf ⟨.double, text⟩ ('"' :: (escape text ++ '"' :: note))
  | single {text note : List Char} (line : '\n' ∉ text) (h : Note note) :
      WrittenLeaf ⟨.single, text⟩ ('\'' :: (doubled text ++ '\'' :: note))
  | bare {text note : List Char} (word : isWord text = true) (h : Note note) :
      WrittenLeaf ⟨.unquoted, text⟩ (text ++ note)

/-- Names as keys, and leaves on one line. -/
def leafWriting : Writing Leaf where
  view s := ⟨s.style, s.text.toList⟩
  key key written := written = key ∧ isName key = true
  inline a _ text below := WrittenLeaf a text ∧ below = []
  below a _ _ text below := WrittenLeaf a text ∧ below = []
  properties _ := False
  straight _ := True

section Leaves

variable {text note : List Char}

/-! ### Quoted leaves -/

/-- A quoted scalar that is closed on its line takes no other line. -/
theorem scalarText_closed {quote : Char} {inner : List Char} (hquote : quote = '"' ∨ quote = '\'')
    (hsplit : splitQuoted quote text = some (inner, note)) (parent : Nat)
    (lines : List LogicalLine) :
    scalarText (quote :: text) parent lines = (quotedScalarText (quote :: text), [], lines) := by
  have hclosed : isUnclosed (quote :: text) = false := by
    rw [isUnclosed, hsplit]
    rfl
  rw [scalarText_quoted parent lines hquote, joinWhile_of_not hclosed]

theorem quotedScalarText_double {inner : List Char}
    (h : splitQuoted '"' text = some (inner, note)) :
    (quotedScalarText ('"' :: text)).style = .double ∧
      (quotedScalarText ('"' :: text)).text = unescape inner := by
  simp [quotedScalarText, h]

theorem quotedScalarText_single {inner : List Char}
    (h : splitQuoted '\'' text = some (inner, note)) :
    (quotedScalarText ('\'' :: text)).style = .single ∧
      (quotedScalarText ('\'' :: text)).text = undouble inner := by
  simp [quotedScalarText, h]

/-! ### Bare leaves and names -/

theorem closes_of_all_isWordChar (h : text.all isWordChar = true) (hne : text ≠ []) :
    Closes text := by
  obtain ⟨before, c, rfl⟩ := List.eq_nil_or_concat text |>.resolve_left hne
  rw [List.concat_eq_append] at h ⊢
  exact ⟨before, c, rfl, (isWordChar_ne (List.all_eq_true.mp h c (by simp))).1⟩

theorem hasKeyColon_of_all_isWordChar (h : text.all isWordChar = true) :
    hasKeyColon text = false :=
  hasKeyColon_of_forall_ne fun c hc => (isWordChar_ne (List.all_eq_true.mp h c hc)).2.2

theorem hasCommentMark_of_all_isWordChar (h : text.all isWordChar = true) :
    hasCommentMark false text = false :=
  hasCommentMark_of_forall_ne
    (fun c hc => (isWordChar_ne (List.all_eq_true.mp h c hc)).2.1) false

theorem starts_of_isWordChar {c : Char} (h : isWordChar c = true) (rest : List Char) :
    Starts (c :: rest) := by
  obtain ⟨hblank, hmark, -⟩ := isWordChar_ne h
  exact ⟨c, rest, rfl, hblank, hmark⟩

theorem isPlain_of_isWord (h : isWord text = true) : IsPlain text := by
  have hall := all_isWordChar_of_isWord h
  cases text with
  | nil => cases h
  | cons c rest =>
    obtain ⟨hc, -⟩ := Bool.and_eq_true_iff.mp h
    refine ⟨starts_of_isWordChar (isWordChar_of_isAlpha hc) rest,
      closes_of_all_isWordChar hall (List.cons_ne_nil c rest), ?_, isItem_of_ne_dash ?_ rest,
      hasKeyColon_of_all_isWordChar hall⟩
    · rintro _ ⟨⟩ hmem
      simp only [List.mem_cons, List.not_mem_nil, or_false] at hmem
      rcases hmem with rfl | rfl | rfl | rfl | rfl | rfl | rfl | rfl
      all_goals cases hc
    · rintro rfl
      cases hc

/-- Letters and underscores open a key. -/
theorem opensNoKey_of_isAlpha_or {c : Char} (h : c.isAlpha = true ∨ c = '_') :
    c ≠ '-' ∧ c ≠ '"' ∧ c ≠ '\'' ∧ opensNoKey c = false := by
  rcases h with h | rfl
  · refine ⟨?_, ?_, ?_, decide_eq_false fun hmem => ?_⟩
    · rintro rfl
      cases h
    · rintro rfl
      cases h
    · rintro rfl
      cases h
    · simp only [List.mem_cons, List.not_mem_nil, or_false] at hmem
      rcases hmem with rfl | rfl | rfl | rfl | rfl | rfl | rfl | rfl | rfl | rfl | rfl | rfl
      all_goals cases h
  · decide

theorem isPlainKey_of_isName {key : List Char} (h : isName key = true) : IsPlainKey key := by
  have hall := all_isWordChar_of_isName h
  cases key with
  | nil => cases h
  | cons c rest =>
    obtain ⟨hc, -⟩ := Bool.and_eq_true_iff.mp h
    simp only [Bool.or_eq_true, beq_iff_eq] at hc
    refine ⟨starts_of_isWordChar (List.all_eq_true.mp hall c List.mem_cons_self) rest,
      closes_of_all_isWordChar hall (List.cons_ne_nil c rest), ?_,
      hasKeyColon_of_all_isWordChar hall, hasCommentMark_of_all_isWordChar hall⟩
    rintro _ ⟨⟩
    exact opensNoKey_of_isAlpha_or hc

/-! ### Reading leaves -/

/-- A leaf is a scalar on one line. -/
theorem WrittenLeaf.exists_scalar {a : Leaf} (h : WrittenLeaf a text) :
    ∃ byDepth, WrittenScalar byDepth text [] := by
  cases h with
  | double hnote => exact ⟨false, .quoted (.inl rfl) (splitDouble_escape _ _) hnote⟩
  | single _ hnote =>
    exact ⟨false, .quoted (.inr rfl) (splitSingle_doubled _ (hnote.head?_ne (by decide))) hnote⟩
  | bare hword hnote => exact ⟨true, .plain (isPlain_of_isWord hword) hnote⟩

/-- Where no deeper line follows, it is read with its quotes and its text. -/
theorem WrittenLeaf.content {a : Leaf} (h : WrittenLeaf a text) {parent : Nat}
    {lines : List LogicalLine} (hlines : ∀ next ∈ lines.head?, next.indent ≤ parent) :
    (scalarText text parent lines).1.style = a.style ∧
      (scalarText text parent lines).1.text = a.text := by
  cases h with
  | double hnote =>
    rename_i content note
    have hsplit : splitQuoted '"' (escape content ++ '"' :: note) = some (escape content, note) :=
      splitDouble_escape content note
    obtain ⟨hstyle, htext⟩ := quotedScalarText_double hsplit
    rw [scalarText_closed (.inl rfl) hsplit]
    exact ⟨hstyle, htext.trans (unescape_escape content)⟩
  | single hline hnote =>
    rename_i content note
    have hsplit : splitQuoted '\'' (doubled content ++ '\'' :: note) =
        some (doubled content, note) :=
      splitSingle_doubled content (hnote.head?_ne (by decide))
    obtain ⟨hstyle, htext⟩ := quotedScalarText_single hsplit
    rw [scalarText_closed (.inr rfl) hsplit]
    exact ⟨hstyle, htext.trans (undouble_doubled content)⟩
  | bare hword hnote =>
    have hplain := isPlain_of_isWord hword
    have hstrip := stripComment_append_note hplain.starts hplain.closes
      (hasCommentMark_of_all_isWordChar (all_isWordChar_of_isWord hword)) hnote
    rw [hplain.scalarText_append, spanDeeper_of_le hlines]
    refine ⟨rfl, ?_⟩
    simp only [plainText, List.flatMap_nil, List.append_nil, hstrip]

/-- A written leaf is read as this leaf, and no line behind it that is not deeper
is taken. -/
theorem WrittenLeaf.read {a : Leaf} (h : WrittenLeaf a text) (line column : Nat) {parent : Nat}
    {c : Cursor} (hlines : ∀ next ∈ c.lines.head?, next.indent ≤ parent) :
    ∃ s after, ValueAt text line column parent c (.scalar s) after ∧
      leafWriting.view s = a ∧ after.lines = c.lines := by
  obtain ⟨byDepth, hscalar⟩ := h.exists_scalar
  obtain ⟨s, after, hvalue, hstyle, htext, hafter⟩ := Properties.nil.exists_valueAt
    hscalar.opens.starts hscalar.no_property line column parent c
  obtain ⟨hkind, hcontent⟩ := h.content hlines
  refine ⟨s, after, hvalue, ?_, hafter.trans ?_⟩
  · show (⟨s.style, s.text.toList⟩ : Leaf) = a
    rw [hstyle, htext, hkind, hcontent]
  · exact hscalar.takes (fun _ b hb => absurd hb List.not_mem_nil) List.map_nil hlines

theorem WrittenLeaf.opens {a : Leaf} (h : WrittenLeaf a text) : Opens text := by
  obtain ⟨byDepth, hscalar⟩ := h.exists_scalar
  exact hscalar.opens

theorem WrittenLeaf.closes {a : Leaf} (h : WrittenLeaf a text) : Closes text := by
  cases h with
  | double hnote =>
    rename_i content note
    have hquoted : Closes ('"' :: (escape content ++ ['"'])) :=
      closes_append_singleton (by decide) ('"' :: escape content)
    simpa using hnote.closes hquoted
  | single hline hnote =>
    rename_i content note
    have hquoted : Closes ('\'' :: (doubled content ++ ['\''])) :=
      closes_append_singleton (by decide) ('\'' :: doubled content)
    simpa using hnote.closes hquoted
  | bare hword hnote => exact hnote.closes (isPlain_of_isWord hword).closes

/-- The scanner can read names and leaves. -/
theorem leafWriting_legible : leafWriting.Legible where
  key_starts := by
    rintro key written ⟨rfl, hname⟩
    exact (isPlainKey_of_isName hname).starts
  key_item := by
    rintro key written rest ⟨rfl, hname⟩
    exact (isPlainKey_of_isName hname).isItem_append _
  key_split := by
    rintro key written rest ⟨rfl, hname⟩ hrest
    exact (isPlainKey_of_isName hname).split 0 hrest
  key_marker := by
    rintro key written rest ⟨rfl, hname⟩
    exact (isPlainKey_of_isName hname).isDocumentMarker_append (by simp)
  inline_opens := by
    rintro a n text below ⟨h, -⟩
    exact h.opens
  inline_solid := by
    rintro a n text below ⟨h, rfl⟩
    exact ⟨h.closes, by simp⟩
  inline_straight := by
    intro a n text below _
    trivial
  inline_read := by
    rintro a n text below c ls rest line column ⟨h, rfl⟩ hlines hbelow hrest
    obtain rfl := List.map_eq_nil_iff.mp hbelow
    rw [List.nil_append] at hlines
    obtain ⟨s, after, hvalue, hview, hafter⟩ := h.read line column (c := c) (hlines ▸ hrest)
    exact ⟨s, after, hvalue, hview, hafter.trans hlines⟩
  below_opens := by
    rintro a k m text below ⟨h, -⟩
    exact h.opens
  below_solid := by
    rintro a k m text below ⟨h, rfl⟩ -
    exact ⟨h.closes, by simp⟩
  below_read := by
    rintro a k m text below c ls rest line column ⟨h, rfl⟩ deeper - hlines hbelow hrest
    obtain rfl := List.map_eq_nil_iff.mp hbelow
    rw [List.nil_append] at hlines
    have hnext : ∀ next ∈ c.lines.head?, next.indent ≤ m - 1 := by
      intro next hnext
      rw [hlines] at hnext
      exact Nat.le_trans (hrest next hnext) (Nat.le_sub_one_of_lt deeper)
    obtain ⟨s, after, hvalue, hview, hafter⟩ := h.read line column hnext
    exact ⟨s, after, hvalue, hview, hafter.trans hlines⟩
  below_stops := by
    intro a k m text below c ls rest line column _ _ hstraight
    exact absurd trivial hstraight
  properties_opens := by
    rintro text ⟨⟩
  properties_closes := by
    rintro text ⟨⟩
  properties_skip := by
    rintro text column ⟨⟩

/-- **Scanning undoes rendering.** However a tree of names and leaves is laid out
in blocks, and whatever blank lines, comments and blanks at line ends stand
between, its outline has its keys in their order, its nesting, and the text and
the quotes of each leaf; no line is left over. -/
theorem scan_rendered {source : List Char} {tree : Tree Leaf} {k : Nat} {blocks : List BlockLine}
    (rendered : Rendered leafWriting tree k blocks)
    (document : Document blocks (splitLines source)) :
    (scan source).root.tree leafWriting.view = tree ∧ (node (.ofText source)).1.2.lines = [] := by
  obtain ⟨n, after, hnode, htree, hends⟩ := document.read leafWriting_legible rendered
  have hstraight : tree.All leafWriting.straight := Tree.all_of_forall (fun _ => trivial) tree
  refine ⟨?_, ?_⟩
  · rw [scan_eq_of_nodeAt hnode]
    exact htree hstraight
  · rw [hnode.eq]
    exact hends.behind hstraight

/-- Items at the indentation of their key, entries that begin behind a dash, a
doubled quote, a comment and a blank line. -/
theorem scan_rendered_play :
    let source := "---\n- hosts: all # every one\n  tasks:\n  - name: 'it''s'\n\n  - ping:".toList
    (scan source).root.tree leafWriting.view =
      .sequence [.mapping [("hosts".toList, .leaf ⟨.unquoted, "all".toList⟩),
        ("tasks".toList, .sequence [.mapping [("name".toList, .leaf ⟨.single, "it's".toList⟩)],
          .mapping [("ping".toList, .nothing)]])]] := by
  intro source
  have hkey : ∀ key : List Char, isName key = true → leafWriting.key key key :=
    fun _ h => ⟨rfl, h⟩
  have hall : leafWriting.inline ⟨.unquoted, "all".toList⟩ 2 "all # every one".toList [] :=
    ⟨.bare (by decide) (.comment (g := 0) ⟨"# every on".toList, 'e', rfl, by decide⟩), rfl⟩
  have hquoted : leafWriting.inline ⟨.single, "it's".toList⟩ 4 "'it''s'".toList [] :=
    ⟨.single (by decide) .nothing, rfl⟩
  have hname : RenderedItem leafWriting (.mapping [("name".toList, .leaf ⟨.single, "it's".toList⟩)])
      2 [⟨2, "- name: 'it''s'".toList⟩] :=
    .compact (g := 0) (.mapping (List.cons_ne_nil _ _)
      (.cons (.leaf (g := 0) (hkey _ (by decide)) hquoted) .nil))
  have hping : RenderedItem leafWriting (.mapping [("ping".toList, .nothing)])
      2 [⟨2, "- ping:".toList⟩] :=
    .compact (g := 0) (.mapping (List.cons_ne_nil _ _)
      (.cons (.nothing (hkey _ (by decide)) (.note .nothing)) .nil))
  have htasks := RenderedEntry.flat (hkey "tasks".toList (by decide)) .nothing
    (List.cons_ne_nil _ _) (.cons hname (.cons hping .nil))
  have hplay := RenderedEntries.cons (.leaf (g := 0) (hkey "hosts".toList (by decide)) hall)
    (.cons htasks .nil)
  have hitem := RenderedItem.compact (k := 0) (g := 0) (.mapping (List.cons_ne_nil _ _) hplay)
  have rendered := Rendered.sequence (List.cons_ne_nil _ _) (.cons hitem .nil)
  have hblanks : ([] : List Char).all isBlank = true := rfl
  have hmarker : IsIdle "---".toList := .start .nothing hblanks
  have document : Document
      [⟨0, "- hosts: all # every one".toList⟩, ⟨2, "tasks:".toList⟩, ⟨2, "- name: 'it''s'".toList⟩,
        ⟨2, "- ping:".toList⟩]
      (splitLines source) :=
    .idle hmarker (.block hblanks (.block hblanks (.block hblanks
      (.idle (.blank hblanks) (.block hblanks .nil)))))
  exact (scan_rendered rendered document).1

end Leaves

end PlaybookStyle.Outline
