/-
Scalars over several lines, and where the scanner loses them.

`blockWriting` writes plain and quoted keys, and under them plain scalars, block
scalars, quoted scalars and collections in brackets, on one line or on several,
with tags and anchors before them. Below a key or a dash a scalar may begin on a
line of its own, and its other lines need only be deeper than the key or dash.
The scanner asks for more: where it goes by depth, it takes no line that is less
deep than the first. A scalar with such a line is shallow (`Course`); all others
are read as they are written (`blockWriting_legible`).
-/

import PlaybookStyle.Proofs.Outline.Scalars

namespace PlaybookStyle.Outline

open Text

/-! ### Keys -/

/-- A key between quotes, with nothing in it to escape. -/
structure IsQuotedKey (quote : Char) (key : List Char) : Prop where
  delimiter : quote = '"' ∨ quote = '\''
  inside : ∀ c ∈ key, c ≠ quote ∧ c ≠ '\\'

/-- A key as it is written before its colon. -/
inductive SpelledKey : List Char → List Char → Prop
  | plain {key : List Char} (h : IsPlainKey key) (n : Nat) :
      SpelledKey key (key ++ List.replicate n ' ')
  | quoted {quote : Char} {key : List Char} (h : IsQuotedKey quote key) (n : Nat) :
      SpelledKey key (quote :: (key ++ quote :: List.replicate n ' '))

/-! ### Scalars -/

/-- The first line of a scalar with tags and anchors before it. -/
structure Tagged (byDepth : Bool) (text : List Char) (lines : List BlockLine) : Prop where
  parts : ∃ properties scalar, Properties properties ∧ WrittenScalar byDepth scalar lines ∧
    text = properties ++ scalar
  closes : Closes text

/-- Tags and anchors alone on a line. -/
inductive TagLine : List Char → Prop
  | last {c : Char} {properties word note : List Char} (others : Properties properties)
      (h : c = '!' ∨ c = '&') (hword : ∀ d ∈ word, isBlank d = false) (hnote : Note note) :
      TagLine (properties ++ c :: (word ++ note))

/-- Lines deeper than an indentation, none of them without structure. -/
def GoOn (indent : Nat) (lines : List BlockLine) : Prop :=
  ∀ b ∈ lines, indent < b.indent ∧ Starts b.text ∧ Closes b.text

/-- How the lines of a scalar run that begins on a line of its own: none of those
that depth tells apart is less deep than the first, or some are. -/
inductive Course where
  | straight
  | shallow
deriving DecidableEq, Repr

/-- Keys and scalars over lines. -/
def blockWriting : Writing Course where
  view _ := .straight
  key := SpelledKey
  inline course n text lines := course = .straight ∧ (∃ byDepth, Tagged byDepth text lines) ∧
    GoOn n lines
  below course k m text lines := ∃ byDepth, Tagged byDepth text lines ∧ GoOn k lines ∧
    (course = .straight ↔ (byDepth = true → ∀ b ∈ lines, m ≤ b.indent))
  properties := TagLine
  straight course := course = .straight

/-! ### Reading keys -/

section Keys

variable {key written rest : List Char}

theorem splitDouble_key (h : ∀ c ∈ key, c ≠ '"' ∧ c ≠ '\\') :
    splitDouble (key ++ '"' :: rest) = some (key, rest) := by
  induction key with
  | nil => rfl
  | cons c more ih =>
    obtain ⟨hquote, hbackslash⟩ := h c List.mem_cons_self
    rw [List.cons_append, splitDouble.eq_4 c _ hquote (fun _ _ hc _ => hbackslash hc),
      ih fun d hd => h d (List.mem_cons_of_mem _ hd)]
    rfl

theorem splitSingle_key (h : ∀ c ∈ key, c ≠ '\'') (hrest : rest.head? ≠ some '\'') :
    splitSingle (key ++ '\'' :: rest) = some (key, rest) := by
  induction key with
  | nil =>
    rw [List.nil_append, splitSingle]
    rintro more rfl
    exact hrest rfl
  | cons c more ih =>
    have hquote := h c List.mem_cons_self
    rw [List.cons_append, splitSingle, ih fun d hd => h d (List.mem_cons_of_mem _ hd)]
    · rfl
    · simp [hquote]
    · simp [hquote]

theorem IsQuotedKey.splitQuoted_eq {quote : Char} (h : IsQuotedKey quote key)
    (hrest : rest.head? ≠ some quote) :
    splitQuoted quote (key ++ quote :: rest) = some (key, rest) := by
  obtain ⟨rfl | rfl, hinside⟩ := h
  · exact splitDouble_key hinside
  · exact splitSingle_key (fun c hc => (hinside c hc).1) hrest

theorem SpelledKey.starts (h : SpelledKey key written) : Starts written := by
  cases h with
  | plain h n => exact h.starts.append _
  | quoted h n =>
    rename_i quote
    refine ⟨quote, _, rfl, ?_⟩
    rcases h.delimiter with rfl | rfl <;> decide

theorem SpelledKey.isItem_append (h : SpelledKey key written) (rest : List Char) :
    isItem (written ++ ':' :: rest) = false := by
  cases h with
  | plain h n =>
    rw [List.append_assoc]
    exact h.isItem_append _
  | quoted h n =>
    refine isItem_of_ne_dash ?_ _
    rcases h.delimiter with rfl | rfl <;> decide

theorem SpelledKey.isDocumentMarker_append (h : SpelledKey key written) (rest : List Char) :
    isDocumentMarker (written ++ ':' :: rest) = false := by
  cases h with
  | plain h n =>
    rw [List.append_assoc]
    exact h.isDocumentMarker_append (by simp)
  | quoted h n =>
    refine isDocumentMarker_of_mem_colon (by simp) ?_ ?_
    all_goals rcases h.delimiter with rfl | rfl <;> decide

theorem SpelledKey.split (h : SpelledKey key written) (hrest : endsKey rest = true) :
    ∃ split, splitKey (written ++ ':' :: rest) = some split ∧ split.key = key ∧
      split.rest = rest := by
  cases h with
  | plain h n =>
    rw [List.append_assoc]
    exact h.split n hrest
  | quoted h n =>
    rename_i quote
    have hcolon : List.dropWhile (· == ' ') (List.replicate n ' ' ++ ':' :: rest) =
        ':' :: rest := by
      rw [List.dropWhile_append_of_pos (by simp)]
      rfl
    have hnext : (List.replicate n ' ' ++ ':' :: rest).head? ≠ some quote := by
      rcases h.delimiter with rfl | rfl <;> cases n <;> simp [List.replicate_succ]
    have hshape : quote :: (key ++ quote :: List.replicate n ' ') ++ ':' :: rest =
        quote :: (key ++ quote :: (List.replicate n ' ' ++ ':' :: rest)) := by simp
    rw [hshape]
    exact ⟨_, splitKey_eq_some_iff.mpr (.quoted h.delimiter (h.splitQuoted_eq hnext) hcolon hrest),
      rfl, rfl⟩

end Keys

/-! ### Reading scalars -/

section Scalars

variable {byDepth : Bool} {text : List Char} {lines : List BlockLine}

theorem Tagged.opens (h : Tagged byDepth text lines) : Opens text := by
  obtain ⟨properties, scalar, hproperties, hscalar, rfl⟩ := h.parts
  exact hproperties.opens_append hscalar.opens

/-- With tags and anchors before it, a scalar takes the same lines. -/
theorem Tagged.exists_valueAt (h : Tagged byDepth text lines) (line column parent : Nat)
    (c : Cursor) :
    ∃ scalar s after, WrittenScalar byDepth scalar lines ∧
      ValueAt text line column parent c (.scalar s) after ∧
      after.lines = (scalarText scalar parent c.lines).2.2 := by
  obtain ⟨properties, scalar, hproperties, hscalar, rfl⟩ := h.parts
  obtain ⟨s, after, hvalue, -, -, hafter⟩ := hproperties.exists_valueAt hscalar.opens.starts
    hscalar.no_property line column parent c
  exact ⟨scalar, s, after, hscalar, hvalue, hafter⟩

theorem GoOn.solid {indent : Nat} (h : GoOn indent lines) : ∀ b ∈ lines, b.Solid := by
  intro b hb
  obtain ⟨hdeeper, hstarts, hcloses⟩ := h b hb
  exact ⟨hstarts, hcloses, fun hzero => by omega⟩

end Scalars

/-! ### Reading tags -/

theorem closes_cons_of_forall {c : Char} {word : List Char} (hc : isBlank c = false)
    (hword : ∀ d ∈ word, isBlank d = false) : Closes (c :: word) := by
  rcases List.eq_nil_or_concat word with rfl | ⟨before, d, rfl⟩
  · exact closes_append_singleton hc []
  · rw [List.concat_eq_append] at hword ⊢
    exact closes_append_singleton (hword d (by simp)) (c :: before)

theorem TagLine.opens {text : List Char} (h : TagLine text) : Opens text := by
  cases h with
  | last others hc _ _ =>
    refine others.opens_append ?_
    rcases hc with rfl | rfl
    all_goals exact opens_of_opensNoKey (by decide) (by decide) _

theorem TagLine.closes {text : List Char} (h : TagLine text) : Closes text := by
  cases h with
  | last _ hc hword hnote =>
    exact (hnote.closes (closes_cons_of_forall (isBlank_of_property hc) hword)).append _

theorem Note.head?_isBlank {note : List Char} (h : Note note) :
    ∀ d ∈ note.head?, isBlank d = true := by
  cases h with
  | nothing => simp
  | comment _ =>
    rintro _ ⟨⟩
    decide

/-- Behind the last tag or anchor stands nothing. -/
theorem TagLine.skip {text : List Char} (h : TagLine text) (column : Nat) :
    isAbsent (skipProperties none column text).2.2 = true := by
  cases h with
  | last others hc hword hnote =>
    obtain ⟨tag?, start, hothers⟩ :=
      others.exists_skip (starts_property hc _) none column
    obtain ⟨tag'?, start', hlast⟩ :=
      exists_skipProperties_word hc hword hnote.head?_isBlank tag? start
    have habsent := hnote.isAbsent
    rw [hothers, hlast]
    cases hnote with
    | nothing => simpa [trimStart, skipProperties] using habsent
    | comment _ =>
      rw [trimStart_gap_cons (by decide)] at habsent ⊢
      rw [skipProperties_of_ne (by decide)]
      exact habsent

/-! ### Reading documents -/

/-- The scanner reads keys and scalars over lines, up to those that are shallow. -/
theorem blockWriting_legible : blockWriting.Legible where
  key_starts := fun h => h.starts
  key_item := fun rest h => h.isItem_append rest
  key_split := fun rest h hrest => h.split hrest
  key_marker := fun rest h => h.isDocumentMarker_append rest
  inline_opens := by
    rintro course n text lines ⟨-, ⟨byDepth, h⟩, -⟩
    exact h.opens
  inline_solid := by
    rintro course n text lines ⟨-, ⟨byDepth, h⟩, hlines⟩
    exact ⟨h.closes, hlines.solid⟩
  inline_straight := by
    rintro course n text lines ⟨hstraight, -⟩
    exact hstraight
  inline_read := by
    rintro course n text lines c ls rest line column ⟨rfl, ⟨byDepth, h⟩, hlines⟩ hc hls hrest
    obtain ⟨scalar, s, after, hscalar, hvalue, hafter⟩ := h.exists_valueAt line column n c
    refine ⟨s, after, hvalue, rfl, ?_⟩
    rw [hafter, hc]
    exact hscalar.takes (fun _ b hb => (hlines b hb).1) hls hrest
  below_opens := by
    rintro course k m text lines ⟨byDepth, h, -⟩
    exact h.opens
  below_solid := by
    rintro course k m text lines ⟨byDepth, h, hlines, -⟩ -
    exact ⟨h.closes, hlines.solid⟩
  below_read := by
    rintro course k m text lines c ls rest line column ⟨byDepth, h, hlines, hcourse⟩ deeper
      hstraight hc hls hrest
    obtain ⟨scalar, s, after, hscalar, hvalue, hafter⟩ := h.exists_valueAt line column (m - 1) c
    refine ⟨s, after, hvalue, hstraight.symm, ?_⟩
    rw [hafter, hc]
    refine hscalar.takes (fun hdepth b hb => ?_) hls fun next hnext => ?_
    · have hle := hcourse.mp hstraight hdepth b hb
      omega
    · exact Nat.le_trans (hrest next hnext) (Nat.le_sub_one_of_lt deeper)
  below_stops := by
    rintro course k m text lines c ls rest line column ⟨byDepth, h, hlines, hcourse⟩ deeper
      hshallow hc hls
    have hnot : ¬(byDepth = true → ∀ b ∈ lines, m ≤ b.indent) := fun h => hshallow (hcourse.mpr h)
    rw [Classical.not_imp] at hnot
    obtain ⟨rfl, hless⟩ := hnot
    obtain ⟨scalar, s, after, hscalar, hvalue, hafter⟩ := h.exists_valueAt line column (m - 1) c
    have hstop : ∃ b ∈ lines, b.indent ≤ m - 1 := by
      simp only [Classical.not_forall, Nat.not_le] at hless
      obtain ⟨b, hb, hlt⟩ := hless
      exact ⟨b, hb, Nat.le_sub_one_of_lt hlt⟩
    obtain ⟨next, hnext, hhead⟩ := hscalar.stops hstop hls
    rw [← hc, ← hafter] at hhead
    refine ⟨_, after, next, hvalue, hhead, ?_⟩
    have hmem : next.block ∈ lines := by
      rw [← hls]
      exact List.mem_map_of_mem hnext
    exact (hlines next.block hmem).1
  properties_opens := fun h => h.opens
  properties_closes := fun h => h.closes
  properties_skip := fun column h => h.skip column

end PlaybookStyle.Outline
