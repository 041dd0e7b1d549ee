/-
How the texts of keys and scalars are cut.

Plain text is a key up to the first colon with a blank or nothing behind it, and a
scalar if there is none (`PlainKey`, `PlainText`); a note behind it changes
nothing. A quoted text is no key as long as only a note stands behind the closing
quote, or no quote closes it.
-/

import PlaybookStyle.Proofs.Outline.Document

namespace PlaybookStyle.Outline

open Text

/-! ### First characters -/

theorem isItem_of_ne_dash {c : Char} (h : c ≠ '-') (rest : List Char) :
    isItem (c :: rest) = false := by
  unfold isItem
  split
  · rename_i heq
    exact absurd (List.cons.inj heq).1 h
  · rename_i heq
    exact absurd (List.cons.inj heq).1 h
  · rfl

/-- What is no item is none with more behind it. -/
theorem isItem_append {text : List Char} (h : isItem text = false) (hne : text ≠ [])
    (more : List Char) : isItem (text ++ more) = false := by
  obtain ⟨c, rest, rfl⟩ := List.exists_cons_of_ne_nil hne
  by_cases hdash : c = '-'
  · subst hdash
    cases rest with
    | nil => cases h
    | cons d rest =>
      rw [List.cons_append, List.cons_append]
      unfold isItem
      split
      · rename_i heq
        cases (List.cons.inj heq).2
      · rename_i heq
        obtain ⟨rfl, -⟩ := List.cons.inj (List.cons.inj heq).2
        cases h
      · rfl
  · exact isItem_of_ne_dash hdash _

/-- A text with a colon in it is a document marker only by its first character. -/
theorem isDocumentMarker_of_mem_colon {c : Char} {rest : List Char} (hcolon : ':' ∈ rest)
    (hdash : c ≠ '-') (hpercent : c ≠ '%') : isDocumentMarker (c :: rest) = false := by
  have hdots : rest ≠ ['.', '.'] := by
    rintro rfl
    simp at hcolon
  simp [isDocumentMarker, List.isPrefixOf, hdash, hdots, Ne.symm hdash, Ne.symm hpercent]

/-- A text that begins with a mark of some other token is no item and no key. -/
theorem opens_of_opensNoKey {c : Char} (h : opensNoKey c = true) (hmark : c ≠ '#')
    (rest : List Char) : Opens (c :: rest) := by
  have hne : c ≠ '-' ∧ c ≠ '"' ∧ c ≠ '\'' ∧ isBlank c = false := by
    simp only [opensNoKey, decide_eq_true_eq, List.mem_cons, List.not_mem_nil, or_false] at h
    rcases h with rfl | rfl | rfl | rfl | rfl | rfl | rfl | rfl | rfl | rfl | rfl | rfl
    all_goals decide
  obtain ⟨hdash, hdouble, hsingle, hblank⟩ := hne
  refine ⟨⟨c, rest, rfl, hblank, hmark⟩, isItem_of_ne_dash hdash rest,
    splitKey_eq_none fun split cut => ?_⟩
  cases cut with
  | quoted isQuote => exact not_or.mpr ⟨hdouble, hsingle⟩ isQuote
  | plain _ opens => exact absurd h (Bool.eq_false_iff.mp opens)

/-! ### Notes -/

section Notes

variable {note : List Char}

theorem Note.head?_ne (h : Note note) {c : Char} (hc : c ≠ ' ') : note.head? ≠ some c := by
  cases h with
  | nothing => simp
  | comment _ => simpa [gap, List.replicate_succ] using Ne.symm hc

theorem Note.dropWhile_spaces (h : Note note) (value : List Char) :
    note.dropWhile (· == ' ') ≠ ':' :: value := by
  cases h with
  | nothing => simp
  | comment _ =>
    rw [gap, List.dropWhile_append_of_pos (by simp), List.dropWhile_cons]
    simp

theorem splitColon_comment (g : Nat) (spaced : Bool) (text : List Char) :
    splitColon spaced (gap g ++ '#' :: text) = none := by
  induction g generalizing spaced with
  | zero =>
    have hmark : splitColon true ('#' :: text) = none := by rw [splitColon, if_pos ⟨rfl, rfl⟩]
    have hgap : gap 0 ++ '#' :: text = ' ' :: '#' :: text := rfl
    rw [hgap, splitColon, if_neg (fun h => absurd h.1 (by decide)),
      if_neg (fun h => absurd h.1 (by decide))]
    exact congrArg _ hmark
  | succ g ih =>
    have hgap : gap (g + 1) ++ '#' :: text = ' ' :: (gap g ++ '#' :: text) := rfl
    rw [hgap, splitColon, if_neg (fun h => absurd h.1 (by decide)),
      if_neg (fun h => absurd h.1 (by decide)), ih]
    rfl

theorem Note.splitColon_eq (h : Note note) (spaced : Bool) : splitColon spaced note = none := by
  cases h with
  | nothing => rfl
  | comment _ => exact splitColon_comment _ spaced _

theorem beforeComment_comment (g : Nat) (text : List Char) :
    beforeComment (gap g ++ '#' :: text) = List.replicate g ' ' := by
  induction g with
  | zero => exact if_pos ⟨rfl, rfl⟩
  | succ g ih =>
    have hgap : gap (g + 1) ++ '#' :: text = ' ' :: (gap g ++ '#' :: text) := rfl
    have hhead : (gap g ++ '#' :: text).head? = some ' ' := rfl
    have hno : ¬(' ' = ' ' ∧ (gap g ++ '#' :: text).head? = some '#') := by
      rw [hhead]
      decide
    rw [hgap, beforeComment, if_neg hno, ih]
    rfl

/-- Of a note only blanks are left. -/
theorem Note.beforeComment_eq (h : Note note) : (beforeComment note).all isBlank = true := by
  cases h with
  | nothing => rfl
  | comment _ =>
    rw [beforeComment_comment, List.all_eq_true]
    intro c hc
    rw [List.eq_of_mem_replicate hc]
    decide

end Notes

/-! ### Plain text -/

/-- Some colon ends a key. -/
def hasKeyColon : List Char → Bool
  | [] => false
  | c :: rest => (c == ':' && endsKey rest) || hasKeyColon rest

/-- Some comment mark has a space before it; `spaced` says that one stands before
the text. -/
def hasCommentMark (spaced : Bool) : List Char → Bool
  | [] => false
  | c :: rest => (c == '#' && spaced) || hasCommentMark (c == ' ') rest

section Plain

variable {text note : List Char}

theorem hasKeyColon_cons {c : Char} {rest : List Char} (h : hasKeyColon (c :: rest) = false) :
    (c = ':' → endsKey rest = false) ∧ hasKeyColon rest = false := by
  simpa [hasKeyColon] using h

theorem hasCommentMark_cons {spaced : Bool} {c : Char} {rest : List Char}
    (h : hasCommentMark spaced (c :: rest) = false) :
    ¬(c = '#' ∧ spaced = true) ∧ hasCommentMark (c == ' ') rest = false := by
  simpa [hasCommentMark] using h

theorem hasKeyColon_of_forall_ne (h : ∀ c ∈ text, c ≠ ':') : hasKeyColon text = false := by
  induction text with
  | nil => rfl
  | cons c rest ih =>
    rw [hasKeyColon, ih fun d hd => h d (List.mem_cons_of_mem _ hd),
      beq_eq_false_iff_ne.mpr (h c List.mem_cons_self)]
    rfl

theorem hasCommentMark_of_forall_ne (h : ∀ c ∈ text, c ≠ '#') (spaced : Bool) :
    hasCommentMark spaced text = false := by
  induction text generalizing spaced with
  | nil => rfl
  | cons c rest ih =>
    rw [hasCommentMark, ih fun d hd => h d (List.mem_cons_of_mem _ hd),
      beq_eq_false_iff_ne.mpr (h c List.mem_cons_self)]
    rfl

/-- What ends no key ends none with more behind it. -/
theorem endsKey_append (h : endsKey text = false) (more : List Char) :
    endsKey (text ++ more) = false := by
  cases text with
  | nil => cases h
  | cons c rest => exact h

/-- Text without a key's colon is not cut, whatever note stands behind it. -/
theorem splitColon_append_note (hcolon : hasKeyColon text = false) (hnote : Note note)
    (spaced : Bool) : splitColon spaced (text ++ note) = none := by
  induction text generalizing spaced with
  | nil => exact hnote.splitColon_eq spaced
  | cons c rest ih =>
    obtain ⟨hhead, hrest⟩ := hasKeyColon_cons hcolon
    have hno : ¬(c = ':' ∧ endsKey (rest ++ note) = true) := by
      rintro ⟨hc, hends⟩
      rw [endsKey_append (hhead hc)] at hends
      cases hends
    rw [List.cons_append, splitColon, if_neg hno, ih hrest]
    split
    · rfl
    · rfl

theorem splitColon_spaces (n : Nat) {rest : List Char} (hrest : endsKey rest = true)
    (spaced : Bool) :
    splitColon spaced (List.replicate n ' ' ++ ':' :: rest) =
      some (List.replicate n ' ', rest) := by
  induction n generalizing spaced with
  | zero =>
    rw [List.replicate_zero, List.nil_append, splitColon, if_neg (fun h => absurd h.1 (by decide)),
      if_pos ⟨rfl, hrest⟩]
  | succ n ih =>
    rw [List.replicate_succ, List.cons_append, splitColon, if_neg (fun h => absurd h.1 (by decide)),
      if_neg (fun h => absurd h.1 (by decide)), ih]
    rfl

/-- Text with neither a key's colon nor a comment is cut at the colon behind it. -/
theorem splitColon_append_colon {spaced : Bool} (hcolon : hasKeyColon text = false)
    (hmark : hasCommentMark spaced text = false) (n : Nat) {rest : List Char}
    (hrest : endsKey rest = true) :
    splitColon spaced (text ++ (List.replicate n ' ' ++ ':' :: rest)) =
      some (text ++ List.replicate n ' ', rest) := by
  induction text generalizing spaced with
  | nil => exact splitColon_spaces n hrest spaced
  | cons c more ih =>
    obtain ⟨hhead, hmore⟩ := hasKeyColon_cons hcolon
    obtain ⟨hnote, hmarks⟩ := hasCommentMark_cons hmark
    have hno : ¬(c = ':' ∧ endsKey (more ++ (List.replicate n ' ' ++ ':' :: rest)) = true) := by
      rintro ⟨hc, hends⟩
      rw [endsKey_append (hhead hc)] at hends
      cases hends
    rw [List.cons_append, splitColon, if_neg hnote, if_neg hno, ih hmore hmarks]
    rfl

theorem beforeComment_append_note {spaced : Bool} (h : hasCommentMark spaced text = false)
    (hnote : Note note) : beforeComment (text ++ note) = text ++ beforeComment note := by
  induction text generalizing spaced with
  | nil => rfl
  | cons c rest ih =>
    obtain ⟨-, hrest⟩ := hasCommentMark_cons h
    have hno : ¬(c = ' ' ∧ (rest ++ note).head? = some '#') := by
      rintro ⟨rfl, hhead⟩
      cases rest with
      | nil => exact hnote.head?_ne (by decide) hhead
      | cons d more =>
        obtain rfl : d = '#' := Option.some.inj hhead
        exact (hasCommentMark_cons hrest).1 ⟨rfl, rfl⟩
    rw [List.cons_append, beforeComment, if_neg hno, ih hrest]
    rfl

/-- Plain text is what is left when the note behind it is cut off. -/
theorem stripComment_append_note (hstarts : Starts text) (hcloses : Closes text)
    (hmark : hasCommentMark false text = false) (hnote : Note note) :
    stripComment (text ++ note) = text := by
  have hhead : ¬(text ++ note).head? = some '#' := by
    obtain ⟨c, rest, rfl, -, hc⟩ := hstarts
    intro hhead
    exact hc (Option.some.inj hhead)
  rw [stripComment, if_neg hhead, beforeComment_append_note hmark hnote]
  exact hcloses.trimEnd_append [] hnote.beforeComment_eq

/-- The first line of a plain scalar, without a note. -/
structure IsPlain (text : List Char) : Prop where
  starts : Starts text
  closes : Closes text
  first : ∀ c ∈ text.head?, c ∉ ['"', '\'', '|', '>', '\x7b', '[', '!', '&']
  item : isItem text = false
  colon : hasKeyColon text = false

/-- A plain key. -/
structure IsPlainKey (key : List Char) : Prop where
  starts : Starts key
  closes : Closes key
  first : ∀ c ∈ key.head?, c ≠ '-' ∧ c ≠ '"' ∧ c ≠ '\'' ∧ opensNoKey c = false
  colon : hasKeyColon key = false
  comment : hasCommentMark false key = false

theorem IsPlain.no_property (h : IsPlain text) (more : List Char) :
    ∀ c ∈ (text ++ more).head?, ¬(c = '!' ∨ c = '&') := by
  obtain ⟨c, rest, rfl, -⟩ := h.starts
  have hfirst := h.first c rfl
  rintro _ ⟨⟩ (rfl | rfl)
  all_goals exact hfirst (by decide)

theorem IsPlain.opens (h : IsPlain text) (hnote : Note note) : Opens (text ++ note) := by
  refine ⟨h.starts.append note, ?_, ?_⟩
  · refine isItem_append h.item ?_ note
    rintro rfl
    obtain ⟨c, rest, heq, -⟩ := h.starts
    cases heq
  · obtain ⟨c, rest, rfl, -⟩ := h.starts
    have hsplit := splitColon_append_note h.colon hnote false
    have hfirst := h.first c rfl
    have hquote : ¬(c = '"' ∨ c = '\'') := by
      rintro (rfl | rfl)
      all_goals exact hfirst (by decide)
    rw [List.cons_append] at hsplit ⊢
    refine splitKey_eq_none fun split cut => ?_
    cases cut with
    | quoted isQuote => exact hquote isQuote
    | plain _ _ cut => cases hsplit.symm.trans cut

theorem IsPlainKey.isItem_append {key : List Char} (h : IsPlainKey key) (more : List Char) :
    isItem (key ++ more) = false := by
  obtain ⟨c, rest, rfl, -⟩ := h.starts
  exact isItem_of_ne_dash (h.first c rfl).1 _

theorem IsPlainKey.isDocumentMarker_append {key more : List Char} (h : IsPlainKey key)
    (hcolon : ':' ∈ more) : isDocumentMarker (key ++ more) = false := by
  obtain ⟨c, rest, rfl, -⟩ := h.starts
  obtain ⟨hdash, -, -, hopens⟩ := h.first c rfl
  refine isDocumentMarker_of_mem_colon (List.mem_append_right rest hcolon) hdash ?_
  rintro rfl
  exact absurd hopens (by decide)

theorem IsPlainKey.split {key : List Char} (h : IsPlainKey key) (n : Nat) {rest : List Char}
    (hrest : endsKey rest = true) :
    ∃ split, splitKey (key ++ (List.replicate n ' ' ++ ':' :: rest)) = some split ∧
      split.key = key ∧ split.rest = rest := by
  have hsplit := splitColon_append_colon h.colon h.comment n hrest
  have htrim : trimEnd (key ++ List.replicate n ' ') = key := by
    refine h.closes.trimEnd_append [] ?_
    simp [show isBlank ' ' = true by decide]
  obtain ⟨c, more, rfl, -⟩ := h.starts
  obtain ⟨-, hdouble, hsingle, hopens⟩ := h.first c rfl
  have hquote : ¬(c = '"' ∨ c = '\'') := not_or.mpr ⟨hdouble, hsingle⟩
  have hkey : (trimEnd (c :: more ++ List.replicate n ' ')).isEmpty = false := by rw [htrim]; rfl
  exact ⟨_, splitKey_eq_some_iff.mpr (.plain hquote hopens hsplit hkey), htrim, rfl⟩

end Plain

/-! ### Quoted text -/

section Quoted

variable {text note : List Char}

theorem splitKey_quoted {quote : Char} {inner : List Char} (hquote : quote = '"' ∨ quote = '\'')
    (hsplit : splitQuoted quote text = some (inner, note)) (h : Note note) :
    splitKey (quote :: text) = none := by
  refine splitKey_eq_none fun split cut => ?_
  cases cut with
  | quoted _ cut colon =>
    cases hsplit.symm.trans cut
    exact h.dropWhile_spaces _ colon
  | plain noQuote => exact noQuote hquote

theorem opens_quoted {quote : Char} {inner : List Char} (hquote : quote = '"' ∨ quote = '\'')
    (hsplit : splitQuoted quote text = some (inner, note)) (h : Note note) :
    Opens (quote :: text) := by
  refine ⟨⟨quote, text, rfl, ?_, ?_⟩, ?_, splitKey_quoted hquote hsplit h⟩
  all_goals rcases hquote with rfl | rfl
  all_goals first
    | rfl
    | decide

/-- A quote that no other closes opens no key. -/
theorem opens_unclosed {quote : Char} (hquote : quote = '"' ∨ quote = '\'')
    (h : isUnclosed (quote :: text) = true) : Opens (quote :: text) := by
  have hnone : splitQuoted quote text = none := Option.isNone_iff_eq_none.mp h
  have hstarts : isBlank quote = false ∧ quote ≠ '#' ∧ quote ≠ '-' := by
    rcases hquote with rfl | rfl <;> decide
  obtain ⟨hblank, hmark, hdash⟩ := hstarts
  refine ⟨⟨quote, text, rfl, hblank, hmark⟩, isItem_of_ne_dash hdash text,
    splitKey_eq_none fun split cut => ?_⟩
  cases cut with
  | quoted _ cut => cases hnone.symm.trans cut
  | plain noQuote => exact noQuote hquote

end Quoted

end PlaybookStyle.Outline
