/-
What lines a scalar takes.

The end of a plain scalar and of a block scalar is found by depth, the end of a
quoted scalar and of a collection in brackets by what closes it (`Spans`). Tags
and anchors before a scalar are passed over (`Properties`).
-/

import PlaybookStyle.Proofs.Outline.Texts

namespace PlaybookStyle.Outline

open Text

/-! ### Lines taken by depth -/

section Depth

variable {indent : Nat} {ls rest : List LogicalLine}

theorem spanDeeper_of_le (h : ∀ next ∈ rest.head?, next.indent ≤ indent) :
    spanDeeper indent rest = ([], rest) := by
  cases rest with
  | nil => rfl
  | cons next more => rw [spanDeeper, if_neg (Nat.not_lt.mpr (h next rfl))]

/-- All lines that are deeper are taken. -/
theorem spanDeeper_append_of_lt (hls : ∀ line ∈ ls, indent < line.indent)
    (hrest : ∀ next ∈ rest.head?, next.indent ≤ indent) :
    spanDeeper indent (ls ++ rest) = (ls, rest) := by
  induction ls with
  | nil => exact spanDeeper_of_le hrest
  | cons line more ih =>
    rw [List.cons_append, spanDeeper, if_pos (hls line List.mem_cons_self),
      ih fun l hl => hls l (List.mem_cons_of_mem _ hl)]

/-- A line that is not deeper stops them. -/
theorem exists_spanDeeper_stop (h : ∃ line ∈ ls, line.indent ≤ indent) :
    ∃ next ∈ ls, (spanDeeper indent (ls ++ rest)).2.head? = some next := by
  induction ls with
  | nil =>
    obtain ⟨line, hline, -⟩ := h
    cases hline
  | cons line more ih =>
    rw [List.cons_append, spanDeeper]
    split
    · rename_i hdeeper
      obtain ⟨other, hother, hle⟩ := h
      rcases List.mem_cons.mp hother with rfl | hother
      · omega
      · obtain ⟨next, hnext, hhead⟩ := ih ⟨other, hother, hle⟩
        exact ⟨next, List.mem_cons_of_mem _ hnext, hhead⟩
    · exact ⟨line, List.mem_cons_self, rfl⟩

end Depth

/-! ### Lines taken up to a close -/

/-- A text asks for more until some lines are joined to it, and no longer. -/
inductive Spans (more : List Char → Bool) : List Char → List BlockLine → Prop
  | stop {text : List Char} (h : more text = false) : Spans more text []
  | line {text : List Char} {line : BlockLine} {lines : List BlockLine} (h : more text = true)
      (others : Spans more (text ++ ' ' :: trim line.text) lines) : Spans more text (line :: lines)

theorem joinWhile_of_not {more : List Char → Bool} {text : List Char} (h : more text = false)
    (lines : List LogicalLine) : joinWhile more text lines = (text, [], lines) := by
  cases lines with
  | nil => rfl
  | cons line rest => rw [joinWhile, if_neg (by simp [h])]

/-- The lines that a text asks for are taken. -/
theorem Spans.joinWhile {more : List Char → Bool} {text : List Char} {lines : List BlockLine}
    (h : Spans more text lines) {ls : List LogicalLine} (hls : ls.map LogicalLine.block = lines)
    (rest : List LogicalLine) : (joinWhile more text (ls ++ rest)).2.2 = rest := by
  induction h generalizing ls with
  | stop h =>
    obtain rfl := List.map_eq_nil_iff.mp hls
    rw [List.nil_append, joinWhile_of_not h]
  | line h _ ih =>
    obtain ⟨line, tail, rfl, rfl, htail⟩ := List.map_eq_cons_iff.mp hls
    rw [List.cons_append, Outline.joinWhile, if_pos h]
    exact ih htail

/-! ### Kinds of scalars -/

section Kinds

variable {c : Char} {text : List Char} (parent : Nat) (lines : List LogicalLine)

theorem scalarText_bare (block : ¬(c = '|' ∨ c = '>')) (quote : ¬(c = '"' ∨ c = '\''))
    (flow : ¬(c = '\x7b' ∨ c = '[')) :
    scalarText (c :: text) parent lines =
      (plainText (c :: text) (spanDeeper parent lines).1, spanDeeper parent lines) := by
  unfold scalarText
  dsimp only
  rw [if_neg block, if_neg quote, if_neg flow]

theorem IsPlain.scalarText_append (h : IsPlain text) (more : List Char) :
    scalarText (text ++ more) parent lines =
      (plainText (text ++ more) (spanDeeper parent lines).1, spanDeeper parent lines) := by
  obtain ⟨c, rest, rfl, -⟩ := h.starts
  have hfirst := h.first c rfl
  simp only [List.mem_cons, List.not_mem_nil, or_false, not_or] at hfirst
  obtain ⟨hdouble, hsingle, hliteral, hfolded, hbrace, hbracket, -⟩ := hfirst
  exact scalarText_bare parent lines (not_or.mpr ⟨hliteral, hfolded⟩)
    (not_or.mpr ⟨hdouble, hsingle⟩) (not_or.mpr ⟨hbrace, hbracket⟩)

theorem scalarText_block (h : c = '|' ∨ c = '>') :
    scalarText (c :: text) parent lines =
      (blockScalarText (c :: text) (spanDeeper parent lines).1, spanDeeper parent lines) := by
  unfold scalarText
  dsimp only
  rw [if_pos h]

theorem scalarText_quoted (h : c = '"' ∨ c = '\'') :
    scalarText (c :: text) parent lines =
      (quotedScalarText (joinWhile isUnclosed (c :: text) lines).1,
        (joinWhile isUnclosed (c :: text) lines).2) := by
  have hheader : ¬(c = '|' ∨ c = '>') := by rcases h with rfl | rfl <;> decide
  unfold scalarText
  dsimp only
  rw [if_neg hheader, if_pos h]

theorem scalarText_flow (h : c = '\x7b' ∨ c = '[') :
    scalarText (c :: text) parent lines =
      (flowText (joinWhile (fun t => 0 < openBrackets t) (c :: text) lines).1,
        (joinWhile (fun t => 0 < openBrackets t) (c :: text) lines).2) := by
  have hheader : ¬(c = '|' ∨ c = '>') := by rcases h with rfl | rfl <;> decide
  have hquote : ¬(c = '"' ∨ c = '\'') := by rcases h with rfl | rfl <;> decide
  unfold scalarText
  dsimp only
  rw [if_neg hheader, if_neg hquote, if_pos h]

end Kinds

/-! ### Scalars over lines -/

/-- A scalar or a collection in brackets: whether its end is found by depth, its
first line, and the lines that go on with it. -/
inductive WrittenScalar : Bool → List Char → List BlockLine → Prop
  | plain {text note : List Char} {lines : List BlockLine} (h : IsPlain text)
      (hnote : Note note) : WrittenScalar true (text ++ note) lines
  | block {c : Char} {rest : List Char} {lines : List BlockLine} (h : c = '|' ∨ c = '>') :
      WrittenScalar true (c :: rest) lines
  | quoted {quote : Char} {inner rest note : List Char} (h : quote = '"' ∨ quote = '\'')
      (hsplit : splitQuoted quote rest = some (inner, note)) (hnote : Note note) :
      WrittenScalar false (quote :: rest) []
  | quotedLines {quote : Char} {rest : List Char} {lines : List BlockLine}
      (h : quote = '"' ∨ quote = '\'') (hopen : isUnclosed (quote :: rest) = true)
      (hspans : Spans isUnclosed (quote :: rest) lines) : WrittenScalar false (quote :: rest) lines
  | flow {c : Char} {rest : List Char} {lines : List BlockLine} (h : c = '\x7b' ∨ c = '[')
      (hspans : Spans (fun t => 0 < openBrackets t) (c :: rest) lines) :
      WrittenScalar false (c :: rest) lines

section Scalars

variable {byDepth : Bool} {text : List Char} {lines : List BlockLine}

theorem WrittenScalar.opens (h : WrittenScalar byDepth text lines) : Opens text := by
  cases h with
  | plain h hnote => exact h.opens hnote
  | block h =>
    rcases h with rfl | rfl
    all_goals exact opens_of_opensNoKey (by decide) (by decide) _
  | quoted h hsplit hnote => exact opens_quoted h hsplit hnote
  | quotedLines h hopen _ => exact opens_unclosed h hopen
  | flow h _ =>
    rcases h with rfl | rfl
    all_goals exact opens_of_opensNoKey (by decide) (by decide) _

/-- No tag and no anchor opens it. -/
theorem WrittenScalar.no_property (h : WrittenScalar byDepth text lines) :
    ∀ c ∈ text.head?, ¬(c = '!' ∨ c = '&') := by
  cases h with
  | plain h _ => exact h.no_property _
  | block h | quoted h _ _ | quotedLines h _ _ | flow h _ =>
    rintro _ ⟨⟩
    rcases h with rfl | rfl <;> decide

/-- All its lines are taken if they are deeper. -/
theorem WrittenScalar.takes (h : WrittenScalar byDepth text lines) {parent : Nat}
    (hlines : byDepth = true → ∀ b ∈ lines, parent < b.indent) {ls rest : List LogicalLine}
    (hls : ls.map LogicalLine.block = lines) (hrest : ∀ next ∈ rest.head?, next.indent ≤ parent) :
    (scalarText text parent (ls ++ rest)).2.2 = rest := by
  have hdeeper : byDepth = true → ∀ line ∈ ls, parent < line.indent := by
    intro hdepth line hline
    refine hlines hdepth line.block ?_
    rw [← hls]
    exact List.mem_map_of_mem hline
  cases h with
  | plain h _ => rw [h.scalarText_append, spanDeeper_append_of_lt (hdeeper rfl) hrest]
  | block h => rw [scalarText_block _ _ h, spanDeeper_append_of_lt (hdeeper rfl) hrest]
  | quoted h hsplit _ =>
    have hclosed := Option.isNone_eq_false_iff.mpr (Option.isSome_of_eq_some hsplit)
    rw [scalarText_quoted _ _ h]
    exact (Spans.stop hclosed).joinWhile hls rest
  | quotedLines h _ hspans =>
    rw [scalarText_quoted _ _ h]
    exact hspans.joinWhile hls rest
  | flow h hspans =>
    rw [scalarText_flow _ _ h]
    exact hspans.joinWhile hls rest

/-- A line that is not deeper ends it where depth counts. -/
theorem WrittenScalar.stops (h : WrittenScalar true text lines) {parent : Nat}
    (hlines : ∃ b ∈ lines, b.indent ≤ parent) {ls rest : List LogicalLine}
    (hls : ls.map LogicalLine.block = lines) :
    ∃ next ∈ ls, (scalarText text parent (ls ++ rest)).2.2.head? = some next := by
  have hstop : ∃ line ∈ ls, line.indent ≤ parent := by
    obtain ⟨b, hb, hle⟩ := hlines
    rw [← hls] at hb
    obtain ⟨line, hline, rfl⟩ := List.mem_map.mp hb
    exact ⟨line, hline, hle⟩
  cases h with
  | plain h _ =>
    rw [h.scalarText_append]
    exact exists_spanDeeper_stop hstop
  | block h =>
    rw [scalarText_block _ _ h]
    exact exists_spanDeeper_stop hstop

end Scalars

/-! ### Tags and anchors -/

/-- Tags and anchors, each with a blank behind it. -/
inductive Properties : List Char → Prop
  | nil : Properties []
  | cons {c : Char} {word more : List Char} {g : Nat} (h : c = '!' ∨ c = '&')
      (hword : ∀ d ∈ word, isBlank d = false) (others : Properties more) :
      Properties (c :: (word ++ (gap g ++ more)))

theorem isBlank_of_property {c : Char} (h : c = '!' ∨ c = '&') : isBlank c = false := by
  rcases h with rfl | rfl <;> decide

theorem skipProperties_of_ne {c : Char} (h : ¬(c = '!' ∨ c = '&')) (tag? : Option (List Char))
    (column : Nat) (rest : List Char) :
    skipProperties tag? column (c :: rest) = (tag?, column, c :: rest) := by
  rw [skipProperties, dif_neg h]

/-- One tag or anchor is passed over, with the blanks behind it. -/
theorem skipProperties_word {c : Char} {word rest : List Char} (h : c = '!' ∨ c = '&')
    (hword : ∀ d ∈ word, isBlank d = false) (hrest : ∀ d ∈ rest.head?, isBlank d = true)
    (tag? : Option (List Char)) (column : Nat) :
    skipProperties tag? column (c :: (word ++ rest)) =
      skipProperties (if c = '!' then some (c :: word) else tag?)
        (column + (byteLength (c :: word) + byteLength (rest.takeWhile isBlank))) (trimStart rest) := by
  have hall : ∀ d ∈ c :: word, (!isBlank d) = true := by
    intro d hd
    rcases List.mem_cons.mp hd with rfl | hd
    · rw [isBlank_of_property h]
      rfl
    · rw [hword d hd]
      rfl
  have hcut : rest.takeWhile (!isBlank ·) = [] ∧ rest.dropWhile (!isBlank ·) = rest := by
    cases rest with
    | nil => exact ⟨rfl, rfl⟩
    | cons d more => exact ⟨List.takeWhile_cons_of_neg (by simp [hrest d rfl]),
        List.dropWhile_cons_of_neg (by simp [hrest d rfl])⟩
  have hbytes := congrArg byteLength (takeWhile_append_trimStart rest)
  rw [byteLength_append] at hbytes
  rw [skipProperties, dif_pos h, ← List.cons_append, List.dropWhile_append_of_pos hall,
    List.takeWhile_append_of_pos hall, hcut.1, hcut.2, List.append_nil, byteLength_append]
  dsimp only
  rw [← hbytes, ← Nat.add_assoc (byteLength _), Nat.add_sub_cancel]

theorem exists_skipProperties_word {c : Char} {word rest : List Char} (h : c = '!' ∨ c = '&')
    (hword : ∀ d ∈ word, isBlank d = false) (hrest : ∀ d ∈ rest.head?, isBlank d = true)
    (tag? : Option (List Char)) (column : Nat) :
    ∃ tag'? start, skipProperties tag? column (c :: (word ++ rest)) =
      skipProperties tag'? start (trimStart rest) :=
  ⟨_, _, skipProperties_word h hword hrest tag? column⟩

theorem starts_property {c : Char} (h : c = '!' ∨ c = '&') (rest : List Char) :
    Starts (c :: rest) := by
  refine ⟨c, rest, rfl, isBlank_of_property h, ?_⟩
  rcases h with rfl | rfl <;> decide

theorem Properties.starts_append {properties text : List Char} (h : Properties properties)
    (htext : Starts text) : Starts (properties ++ text) := by
  cases h with
  | nil => exact htext
  | cons hc _ _ => exact starts_property hc _

/-- All of them are passed over, up to what starts behind them. -/
theorem Properties.exists_skip {properties text : List Char} (h : Properties properties)
    (htext : Starts text) (tag? : Option (List Char)) (column : Nat) :
    ∃ tag'? start, skipProperties tag? column (properties ++ text) =
      skipProperties tag'? start text := by
  induction h generalizing tag? column with
  | nil => exact ⟨tag?, column, rfl⟩
  | cons hc hword others ih =>
    rename_i c word more g
    have hshape : c :: (word ++ (gap g ++ more)) ++ text =
        c :: (word ++ (gap g ++ (more ++ text))) := by simp
    have hgap : ∀ d ∈ (gap g ++ (more ++ text)).head?, isBlank d = true := by
      rintro d ⟨⟩
      decide
    obtain ⟨tag'?, start, hskip⟩ := exists_skipProperties_word hc hword hgap tag? column
    rw [hshape, hskip, trimStart_gap_append (others.starts_append htext)]
    exact ih tag'? start

theorem Properties.opens_append {properties text : List Char} (h : Properties properties)
    (htext : Opens text) : Opens (properties ++ text) := by
  cases h with
  | nil => exact htext
  | cons hc _ _ =>
    rcases hc with rfl | rfl
    all_goals exact opens_of_opensNoKey (by decide) (by decide) _

/-! ### Reading a scalar -/

/-- What stands behind tags and anchors, and is no comment, is read as a scalar. -/
theorem Properties.exists_valueAt {properties text : List Char} (h : Properties properties)
    (htext : Starts text) (hproperty : ∀ c ∈ text.head?, ¬(c = '!' ∨ c = '&'))
    (line column parent : Nat) (c : Cursor) :
    ∃ s after, ValueAt (properties ++ text) line column parent c (.scalar s) after ∧
      s.style = (scalarText text parent c.lines).1.style ∧
      s.text.toList = (scalarText text parent c.lines).1.text ∧
      after.lines = (scalarText text parent c.lines).2.2 := by
  obtain ⟨tag?, start, hskip⟩ := h.exists_skip htext none column
  have habsent := htext.isAbsent
  obtain ⟨first, rest, rfl, -⟩ := htext
  rw [skipProperties_of_ne (hproperty first rfl)] at hskip
  exact ⟨_, _, .scalar hskip habsent, rfl, String.toList_ofList, rfl⟩

end PlaybookStyle.Outline
