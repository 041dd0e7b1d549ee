/-
What the outline keeps on one line.

Keys and tokens are cut out of lines, and what stands on other lines is joined to them by
spaces; so neither holds a line feed (`scan_key_isLine`, `scan_scalar_isLine`). The text of a
scalar may: an escape in double quotes is one, and a literal block has one between its lines.
In every other style the text has none either.
-/

import PlaybookStyle.Proofs.Outline.Following
import PlaybookStyle.Proofs.Outline.Quoting
import PlaybookStyle.Proofs.Text.OneLine

namespace PlaybookStyle.Outline

open Text

/-! ### Parts of a line -/

theorem trimEnd_subset (text : List Char) : trimEnd text ⊆ text := by
  obtain ⟨cut, hcut, -⟩ := exists_append_trimEndOf isBlank text
  intro c hc
  rw [← hcut]
  exact List.mem_append_left _ hc

theorem trim_subset (text : List Char) : trim text ⊆ text := by
  intro c hc
  rw [← takeWhile_append_trimStart text]
  exact List.mem_append_right _ (trimEnd_subset _ hc)

theorem stripComment_subset (text : List Char) : stripComment text ⊆ text := by
  unfold stripComment
  split
  · exact List.nil_subset _
  · obtain ⟨cut, hcut, -⟩ := exists_beforeComment_append text
    intro c hc
    rw [hcut]
    exact List.mem_append_left _ (trimEnd_subset _ hc)

section Lines

variable {source text : List Char} {place : Position} {lines : List LogicalLine}

theorem RestAt.newline_not_mem (h : RestAt source place text) : '\n' ∉ text := by
  obtain ⟨cut, before, hcut, htext, -⟩ := h
  intro hbreak
  refine newline_not_mem_of_mem_splitLines (List.mem_of_getElem? hcut) (trimEnd_subset _ ?_)
  rw [htext]
  exact List.mem_append_right _ hbreak

theorem newline_not_mem_linesAfter (source : List Char) (n : Nat) :
    ∀ line ∈ linesAfter source n, '\n' ∉ line.text :=
  fun _ hline => (of_mem_linesAfter hline).restAt.newline_not_mem

theorem newline_not_mem_of_line? {n : Nat} {line : List Char} (h : line? source n = some line) :
    '\n' ∉ line := by
  cases n with
  | zero => cases h
  | succ n =>
    obtain ⟨hn, rfl⟩ := List.getElem?_eq_some_iff.mp h
    obtain ⟨hlength, hends⟩ := List.forall₂_iff_get.mp (forall₂_splitLines_lines source)
    have hcut : n < (splitLines source).length := hlength ▸ hn
    have hbreak := newline_not_mem_of_mem_splitLines (List.get_mem (splitLines source) ⟨n, hcut⟩)
    rcases hends n hcut hn with hline | hline
    · rwa [hline] at hbreak
    · rw [hline] at hbreak
      exact fun h => hbreak (List.mem_append_left _ h)

/-! ### Tokens -/

theorem newline_not_mem_joinWhile (more : List Char → Bool) (htext : '\n' ∉ text)
    (hlines : ∀ line ∈ lines, '\n' ∉ line.text) : '\n' ∉ (joinWhile more text lines).1 := by
  induction lines generalizing text with
  | nil => exact htext
  | cons line rest ih =>
    obtain ⟨hline, hrest⟩ := List.forall_mem_cons.mp hlines
    rw [joinWhile]
    split
    · refine ih ?_ hrest
      rw [List.mem_append, List.mem_cons, not_or, not_or]
      exact ⟨htext, by decide, fun h => hline (trim_subset _ h)⟩
    · exact htext

theorem splitQuoted_subset {quote : Char} {inner after : List Char}
    (h : splitQuoted quote text = some (inner, after)) : inner ⊆ text := by
  intro c hc
  unfold splitQuoted at h
  split at h
  · rw [← splitDouble_append h]
    exact List.mem_append_left _ hc
  · rw [← splitSingle_append h]
    exact List.mem_append_left _ hc

theorem undouble_subset (text : List Char) : undouble text ⊆ text := by
  fun_induction undouble text with
  | case1 rest ih =>
    exact List.cons_subset_cons _ (List.Subset.trans ih (List.subset_cons_self _ _))
  | case2 c rest _ ih => exact List.cons_subset_cons _ ih
  | case3 => exact List.Subset.refl _

/-- A quoted scalar has nothing but its characters; only in double quotes they may stand for
others. -/
theorem quotedScalarText_subset (text : List Char) :
    (quotedScalarText text).raw ⊆ text ∧
      ((quotedScalarText text).style ≠ .double → (quotedScalarText text).text ⊆ text) := by
  cases text with
  | nil => exact ⟨List.Subset.refl _, fun _ => List.Subset.refl _⟩
  | cons quote rest =>
    have read : ∀ raw inner, raw ⊆ quote :: rest → inner ⊆ rest →
        let found : ScalarText :=
          if quote = '"' then ⟨raw, unescape inner, .double⟩ else ⟨raw, undouble inner, .single⟩
        found.raw ⊆ quote :: rest ∧ (found.style ≠ .double → found.text ⊆ quote :: rest) := by
      intro raw inner hraw hinner found
      by_cases hquote : quote = '"'
      · rw [show found = _ from if_pos hquote]
        exact ⟨hraw, fun hstyle => absurd rfl hstyle⟩
      · rw [show found = _ from if_neg hquote]
        exact ⟨hraw, fun _ => List.Subset.trans (undouble_subset inner)
          (List.Subset.trans hinner (List.subset_cons_self _ _))⟩
    cases hsplit : splitQuoted quote rest with
    | some found =>
      obtain ⟨inner, after⟩ := found
      have hinner := splitQuoted_subset hsplit
      simp only [quotedScalarText, hsplit]
      refine read _ _ (List.append_subset.mpr ⟨List.cons_subset_cons _ hinner, ?_⟩) hinner
      exact List.cons_subset_cons _ (List.nil_subset _)
    | none =>
      simp only [quotedScalarText, hsplit]
      refine read _ _ (List.Subset.refl _) ?_
      split
      · exact List.dropLast_subset _
      · exact List.Subset.refl _

theorem newline_not_mem_intercalate {separator : Char} (hseparator : separator ≠ '\n')
    {texts : List (List Char)} (h : ∀ text ∈ texts, '\n' ∉ text) :
    '\n' ∉ [separator].intercalate texts := by
  induction texts with
  | nil => exact List.not_mem_nil
  | cons first rest ih =>
    obtain ⟨hfirst, hrest⟩ := List.forall_mem_cons.mp h
    cases rest with
    | nil => rwa [List.intercalate_singleton]
    | cons second rest =>
      rw [List.intercalate_cons_cons, List.mem_append, List.mem_append, List.mem_singleton, not_or,
        not_or]
      exact ⟨⟨hfirst, hseparator.symm⟩, ih hrest⟩

/-- The token of a block scalar is its header. -/
theorem newline_not_mem_blockScalarText (htext : '\n' ∉ text)
    (hlines : ∀ line ∈ lines, '\n' ∉ line.text) :
    let found := blockScalarText text lines
    '\n' ∉ found.raw ∧ (found.style ≠ .literal → '\n' ∉ found.text) := by
  refine ⟨fun h => htext (stripComment_subset _ h), fun folded => ?_⟩
  by_cases hliteral : text.head? = some '|'
  · exact absurd (if_pos hliteral) folded
  · have hseparator : (if text.head? = some '|' then '\n' else ' ') ≠ '\n' := by
      rw [if_neg hliteral]
      decide
    exact newline_not_mem_intercalate hseparator (List.forall_mem_map.mpr hlines)

theorem newline_not_mem_plainText (htext : '\n' ∉ text)
    (hlines : ∀ line ∈ lines, '\n' ∉ line.text) : '\n' ∉ (plainText text lines).raw := by
  intro h
  rcases List.mem_append.mp h with h | h
  · exact htext (stripComment_subset _ h)
  · obtain ⟨line, hline, h⟩ := List.mem_flatMap.mp h
    rcases List.mem_cons.mp h with h | h
    · cases h
    · exact hlines line hline (trim_subset _ (stripComment_subset _ h))

/-- Of a scalar that begins on a line the token has no line feed. Nor has its text, but for an
escape in double quotes or a literal block. -/
theorem newline_not_mem_scalarText (htext : '\n' ∉ text) (hlines : ∀ line ∈ lines, '\n' ∉ line.text)
    (parent : Nat) :
    let found := (scalarText text parent lines).1
    '\n' ∉ found.raw ∧ (found.style ≠ .double → found.style ≠ .literal → '\n' ∉ found.text) := by
  have strip : ∀ more : List Char, '\n' ∉ more → '\n' ∉ stripComment more :=
    fun more h hbreak => h (stripComment_subset _ hbreak)
  have deeper : ∀ line ∈ (spanDeeper parent lines).1, '\n' ∉ line.text := fun line hline =>
    hlines line (spanDeeper_append parent lines ▸ List.mem_append_left _ hline)
  unfold scalarText
  split
  · exact ⟨htext, fun _ _ => htext⟩
  · rename_i c rest
    split
    · obtain ⟨hraw, hfolded⟩ := newline_not_mem_blockScalarText htext deeper
      exact ⟨hraw, fun _ => hfolded⟩
    · split
      · dsimp only
        have joined : '\n' ∉ (joinWhile isUnclosed (c :: rest) lines).1 :=
          newline_not_mem_joinWhile _ htext hlines
        obtain ⟨hraw, hinner⟩ := quotedScalarText_subset (joinWhile isUnclosed (c :: rest) lines).1
        exact ⟨fun h => joined (hraw h), fun double _ h => joined (hinner double h)⟩
      · split
        · have joined := strip _
            (newline_not_mem_joinWhile (fun t => 0 < openBrackets t) htext hlines)
          exact ⟨joined, fun _ _ => joined⟩
        · have value := newline_not_mem_plainText htext deeper
          exact ⟨value, fun _ _ => value⟩

end Lines

/-! ### The outline -/

variable {source : List Char}

theorem Node.Placed.of_mem_allEntries {n : Node} (placed : n.Placed source) {e : Entry Node}
    (he : e ∈ n.allEntries) : e.Stands source := by
  induction placed with
  | empty => simp at he
  | scalar => simp at he
  | sequence _ _ _ ih =>
    rw [Node.allEntries_sequence] at he
    obtain ⟨item, hitem, he⟩ := List.mem_flatMap.mp he
    exact ih item hitem he
  | mapping _ stands _ ih =>
    rw [Node.allEntries_mapping] at he
    obtain ⟨entry, hentry, he⟩ := List.mem_flatMap.mp he
    rcases List.mem_cons.mp he with rfl | he
    · exact stands e hentry
    · exact ih entry hentry he

/-- **A key** of the outline stays on one line. -/
theorem scan_key_isLine {e : Entry Node} (he : e ∈ (Outline.scan source).root.allEntries) :
    IsLine e.key := by
  obtain ⟨written, blanks, rest, hwritten, -, -, ⟨before, after, hline, -⟩, -⟩ :=
    (scan_placed source).of_mem_allEntries he
  have hkey : e.key.toList ⊆ written := by
    cases hwritten with
    | bare => exact List.Subset.refl _
    | quoted quote _ => exact fun c hc => List.mem_cons_of_mem _ (List.mem_append_left _ hc)
  intro hbreak
  refine newline_not_mem_of_line? hline (List.mem_append_left _ (List.mem_append_right _ ?_))
  exact List.mem_append_left _ (List.mem_append_left _ (hkey hbreak))

/-- **A token** of the outline stays on one line, and so does the text of a scalar that is
neither in double quotes nor a literal block. -/
theorem scan_scalar_isLine {holder last : Nat} {s : Scalar}
    (held : (Outline.scan source).root.Holds holder last s) :
    IsLine s.raw ∧ (s.style ≠ .double → s.style ≠ .literal → IsLine s.text) := by
  obtain ⟨⟨text, rest, -, hraw, htext, hstyle, -⟩, -⟩ := scan_scalar held
  have hlines := newline_not_mem_linesAfter source s.position.line
  rw [hraw, htext, hstyle, isLine_ofList, isLine_ofList]
  exact newline_not_mem_scalarText rest.newline_not_mem hlines _

end PlaybookStyle.Outline
