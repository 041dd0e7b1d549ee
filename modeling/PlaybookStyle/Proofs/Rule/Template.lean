/-
Respacing the expressions of a text.

A text is a row of expressions with gaps before them and a remainder behind
(`Cut`). The search for delimiters runs once from left to right, so a row of
gaps and inner texts is found again in the text it makes exactly when no gap
holds an opening delimiter and no inner text a closing one (`Cut.Proper`,
`cut_written`). Writing a suggestion in the place of an expression keeps that,
and what is suggested has its blanks as they should be: one round settles a text.
-/

import PlaybookStyle.Rule.Template
import PlaybookStyle.Proofs.Text.Trimming

namespace PlaybookStyle.Text

/-! ### The first occurrence of a doubled character -/

/-- A doubled character is found behind a text that does not hold it, not even
when the first of the two is the last of the text. -/
theorem splitAround_pair {c : Char} {before : List Char} (h : ¬[c, c] <:+: before ++ [c])
    (after : List Char) :
    splitAround [c, c] (before ++ c :: c :: after) = some (before, after) := by
  induction before with
  | nil => simp [splitAround]
  | cons d rest ih =>
    have hrest : ¬[c, c] <:+: rest ++ [c] := fun hin => h (hin.trans (List.suffix_cons _ _).isInfix)
    have hhere : [c, c].isPrefixOf (d :: (rest ++ c :: c :: after)) = false := by
      rw [Bool.eq_false_iff]
      intro hpair
      apply h
      cases rest with
      | nil =>
        obtain ⟨rfl, -⟩ : c = d ∧ c = c := by simpa using hpair
        exact List.infix_rfl
      | cons e more =>
        obtain ⟨rfl, rfl⟩ : c = d ∧ c = e := by simpa using hpair
        exact ⟨[], more ++ [c], rfl⟩
    rw [List.cons_append, splitAround, hhere, ih hrest]
    rfl

theorem not_infix_of_splitAround {c : Char} {text before after : List Char}
    (h : splitAround [c, c] text = some (before, after)) : ¬[c, c] <:+: before ++ [c] := by
  induction text generalizing before with
  | nil => simp [splitAround] at h
  | cons d rest ih =>
    rw [splitAround] at h
    split at h
    · obtain ⟨rfl, -⟩ := by simpa only [Option.some.injEq, Prod.mk.injEq] using h
      intro hin
      exact absurd hin.length_le (Nat.not_succ_le_self 1)
    · rename_i hhere
      obtain ⟨⟨gap, behind⟩, hgap, heq⟩ := Option.map_eq_some_iff.mp h
      obtain ⟨rfl, rfl⟩ := by simpa only [Prod.mk.injEq] using heq
      have hrest := splitAround_eq_append hgap
      intro hin
      rw [List.cons_append, List.infix_cons_iff] at hin
      cases hin with
      | inl hprefix =>
        -- The character behind the gap is the first of the pair, so the text has it too.
        apply hhere
        rw [List.isPrefixOf_iff_prefix]
        refine hprefix.trans ⟨c :: behind, ?_⟩
        simp [hrest]
      | inr hinfix => exact ih hgap hinfix

/-- Blanks around a text bring no doubled character into it. -/
theorem infix_of_infix_spaced {c : Char} (hc : c ≠ ' ') {text : List Char}
    (h : [c, c] <:+: ' ' :: text ++ [' '] ++ [c]) : [c, c] <:+: text := by
  rw [← List.reverse_infix] at h
  have hback : [c, c] <:+: c :: ' ' :: (text.reverse ++ [' ']) := by simpa using h
  -- Both ends of the text are read off one after the other, the second on the reversed text.
  have hfront : [c, c] <:+: ' ' :: text := by
    rw [← List.reverse_infix]
    simpa [List.infix_cons_iff, hc] using hback
  simpa [List.infix_cons_iff, hc] using hfront

end PlaybookStyle.Text

namespace PlaybookStyle.Rule

open Text

/-! ### A text as a row of expressions -/

/-- The expressions of a text, each with the gap before it, and what is behind
the last one. -/
structure Cut where
  pieces : List (List Char × List Char)
  rest : List Char

namespace Cut

/-- A row with each inner text written out in a given way. -/
def written (write : List Char → List Char) (cut : Cut) : List Char :=
  cut.pieces.flatMap (fun piece => piece.1 ++ write piece.2) ++ cut.rest

/-- A row with its inner texts changed. -/
def map (change : List Char → List Char) (cut : Cut) : Cut :=
  { cut with pieces := cut.pieces.map fun piece => (piece.1, change piece.2) }

/-- A row with one more expression at its start. -/
def cons (gap inner : List Char) (cut : Cut) : Cut :=
  { cut with pieces := (gap, inner) :: cut.pieces }

theorem written_map (write change : List Char → List Char) (cut : Cut) :
    (cut.map change).written write = cut.written (write ∘ change) := by
  rw [written, written, map, List.flatMap_map]
  rfl

theorem written_cons (write : List Char → List Char) (gap inner : List Char) (cut : Cut) :
    (cut.cons gap inner).written write = gap ++ write inner ++ cut.written write := by
  simp [written, cons]

end Cut

/-- The expressions of a text with the gaps between them. -/
def cut (text : List Char) : Cut :=
  match _h₁ : splitAround openDelimiter text with
  | none => ⟨[], text⟩
  | some (gap, opened) =>
    match _h₂ : splitAround closeDelimiter opened with
    | none => ⟨[], text⟩
    | some (inner, rest) => (cut rest).cons gap inner
termination_by text.length
decreasing_by
  have h1 := splitAround_eq_append _h₁
  have h2 := splitAround_eq_append _h₂
  subst h1 h2
  simp [openDelimiter, closeDelimiter]
  omega

/-- No gap opens an expression and no inner text closes one, the characters of
the delimiter behind it included; and nothing is left over. -/
structure Cut.Proper (c : Cut) : Prop where
  gaps : ∀ piece ∈ c.pieces, ¬openDelimiter <:+: piece.1 ++ ['\x7b']
  inners : ∀ piece ∈ c.pieces, ¬closeDelimiter <:+: piece.2 ++ ['\x7d']
  rest : cut c.rest = ⟨[], c.rest⟩

theorem cut_of_closed {text gap opened inner rest : List Char}
    (hopen : splitAround openDelimiter text = some (gap, opened))
    (hclose : splitAround closeDelimiter opened = some (inner, rest)) :
    cut text = (cut rest).cons gap inner := by
  rw [cut]
  split
  · simp_all
  · split <;> simp_all

theorem map_snd_cut (text : List Char) : (cut text).pieces.map Prod.snd = expressions text := by
  fun_induction cut text with
  | case1 text hopen =>
    rw [expressions]
    split <;> simp_all
  | case2 text gap opened hopen hclose =>
    rw [expressions]
    split
    · rfl
    · split <;> simp_all
  | case3 text gap opened hopen inner rest hclose ih =>
    rw [expressions]
    split
    · simp_all
    · split <;> simp_all [Cut.cons]

theorem written_cut (text : List Char) : (cut text).written delimited = text := by
  fun_induction cut text with
  | case1 | case2 => rfl
  | case3 text gap opened hopen inner rest hclose ih =>
    rw [Cut.written_cons, ih, splitAround_eq_append hopen, splitAround_eq_append hclose]
    simp [delimited]

theorem proper_cut (text : List Char) : (cut text).Proper := by
  fun_induction cut text with
  | case1 text hopen =>
    refine ⟨by simp, by simp, ?_⟩
    rw [cut]
    split <;> simp_all
  | case2 text gap opened hopen hclose =>
    refine ⟨by simp, by simp, ?_⟩
    rw [cut]
    split
    · rfl
    · split <;> simp_all
  | case3 text gap opened hopen inner rest hclose ih =>
    constructor
    · rw [Cut.cons, List.forall_mem_cons]
      exact ⟨not_infix_of_splitAround hopen, ih.gaps⟩
    · rw [Cut.cons, List.forall_mem_cons]
      exact ⟨not_infix_of_splitAround hclose, ih.inners⟩
    · exact ih.rest

/-- A proper row is what the text it makes is cut into. -/
theorem cut_written {c : Cut} (h : c.Proper) : cut (c.written delimited) = c := by
  obtain ⟨pieces, rest⟩ := c
  induction pieces with
  | nil => exact h.rest
  | cons piece more ih =>
    obtain ⟨hgap, hgaps⟩ := List.forall_mem_cons.mp h.gaps
    obtain ⟨hinner, hinners⟩ := List.forall_mem_cons.mp h.inners
    have hmore : cut (Cut.written delimited ⟨more, rest⟩) = ⟨more, rest⟩ :=
      ih ⟨hgaps, hinners, h.rest⟩
    have hopen : splitAround openDelimiter
        (piece.1 ++ openDelimiter ++
          (piece.2 ++ closeDelimiter ++ Cut.written delimited ⟨more, rest⟩)) =
        some (piece.1, piece.2 ++ closeDelimiter ++ Cut.written delimited ⟨more, rest⟩) := by
      rw [List.append_assoc]
      exact splitAround_pair (c := '\x7b') hgap _
    have hclose : splitAround closeDelimiter
        (piece.2 ++ closeDelimiter ++ Cut.written delimited ⟨more, rest⟩) =
        some (piece.2, Cut.written delimited ⟨more, rest⟩) := by
      rw [List.append_assoc]
      exact splitAround_pair (c := '\x7d') hinner _
    have htext : Cut.written delimited ⟨piece :: more, rest⟩ =
        piece.1 ++ openDelimiter ++
          (piece.2 ++ closeDelimiter ++ Cut.written delimited ⟨more, rest⟩) := by
      have hcons : Cut.written delimited ⟨piece :: more, rest⟩ = _ :=
        Cut.written_cons delimited piece.1 piece.2 ⟨more, rest⟩
      rw [hcons, delimited]
      simp only [List.append_assoc]
    rw [htext, cut_of_closed hopen hclose, hmore]
    rfl

/-! ### Writing the suggestions -/

/-- The inner text of a suggestion. -/
def respacedInner (inner : List Char) : List Char := ' ' :: trim (expressionBody inner) ++ [' ']

/-- An inner text as one round leaves it. -/
def settledInner (inner : List Char) : List Char :=
  if isPadded inner then inner else respacedInner inner

/-- A text with the suggestion in the place of each expression whose blanks are
not as they should be. -/
def settled (text : List Char) : List Char :=
  (cut text).written fun inner => if isPadded inner then delimited inner else respaced inner

theorem settled_eq (text : List Char) :
    settled text = ((cut text).map settledInner).written delimited := by
  rw [Cut.written_map, settled]
  congr 1
  funext inner
  rw [Function.comp_apply, settledInner, apply_ite delimited]
  rfl

theorem expressionBody_respacedInner (inner : List Char) :
    expressionBody (respacedInner inner) = respacedInner inner := by
  have hfront : ∀ text, dropTrimMark (' ' :: text) = ' ' :: text := fun _ => rfl
  rw [respacedInner, expressionBody, List.cons_append, hfront, List.reverse_cons,
    List.reverse_append, List.reverse_singleton, List.append_assoc, List.singleton_append, hfront]
  simp

theorem takeWhile_isBlank_spaced {c : Char} (h : isBlank c = false) (text : List Char) :
    (' ' :: c :: text).takeWhile isBlank = [' '] := by
  have hspace : isBlank ' ' = true := rfl
  rw [List.takeWhile_cons_of_pos hspace, List.takeWhile_cons_of_neg (by simp [h])]

theorem isPadded_respacedInner {inner : List Char} (h : trim (expressionBody inner) ≠ []) :
    isPadded (respacedInner inner) = true := by
  obtain ⟨c, rest, hfront⟩ := List.exists_cons_of_ne_nil h
  have hc : isBlank c = false := by
    obtain ⟨cut, hcut, -⟩ := exists_append_trimEndOf isBlank (trimStart (expressionBody inner))
    rw [← trimEnd, ← trim, hfront] at hcut
    exact isBlank_head_trimStart hcut.symm
  obtain ⟨before, d, hback⟩ := List.eq_nil_or_concat _ |>.resolve_left h
  rw [List.concat_eq_append] at hback
  have hd : isBlank d = false := isBlank_getLast_trimEnd hback
  have hleading : (respacedInner inner).takeWhile isBlank = [' '] := by
    rw [respacedInner, hfront]
    exact takeWhile_isBlank_spaced hc _
  have htrailing : (respacedInner inner).reverse.takeWhile isBlank = [' '] := by
    rw [respacedInner, hback]
    simpa using takeWhile_isBlank_spaced hd (before.reverse ++ [' '])
  rw [isPadded, expressionBody_respacedInner, hleading, htrailing]
  simp [isPadding]

theorem isPadded_settledInner (inner : List Char) : isPadded (settledInner inner) = true := by
  rw [settledInner]
  split
  · assumption
  · rename_i h
    apply isPadded_respacedInner
    intro hnone
    simp [isPadded, hnone] at h

theorem dropTrimMark_isSuffix (text : List Char) : dropTrimMark text <:+ text := by
  cases text with
  | nil => exact List.suffix_rfl
  | cons c rest =>
    rw [dropTrimMark]
    split
    · exact List.suffix_cons _ _
    · exact List.suffix_rfl

theorem expressionBody_isInfix (inner : List Char) : expressionBody inner <:+: inner := by
  have hfront := (dropTrimMark_isSuffix inner).isInfix
  have hback := (dropTrimMark_isSuffix (dropTrimMark inner).reverse).isInfix
  rw [← List.reverse_infix, List.reverse_reverse] at hback
  exact hback.trans hfront

theorem proper_map_settledInner {c : Cut} (h : c.Proper) : (c.map settledInner).Proper := by
  refine ⟨?_, ?_, h.rest⟩
  · intro piece hpiece
    obtain ⟨old, hold, rfl⟩ := List.mem_map.mp hpiece
    exact h.gaps old hold
  · intro piece hpiece
    obtain ⟨old, hold, rfl⟩ := List.mem_map.mp hpiece
    have hkept := h.inners old hold
    rw [settledInner]
    split
    · exact hkept
    · intro hin
      apply hkept
      have hbody := infix_of_infix_spaced (by decide) hin
      exact ((hbody.trans (trim_isInfix _)).trans (expressionBody_isInfix _)).trans
        (List.prefix_append _ _).isInfix

theorem filter_expressions_settled (text : List Char) :
    (expressions (settled text)).filter (!isPadded ·) = [] := by
  rw [← map_snd_cut, settled_eq, cut_written (proper_map_settledInner (proper_cut text)),
    List.filter_eq_nil_iff]
  intro inner hinner
  obtain ⟨piece, hpiece, rfl⟩ := List.mem_map.mp hinner
  obtain ⟨old, -, rfl⟩ := List.mem_map.mp hpiece
  simp [isPadded_settledInner]

/-- One round settles a text: with the suggestion in the place of each expression
that is reported nothing is left to report, and a text is as it was exactly when
it had nothing to report. -/
theorem settled_once (text : List Char) :
    (expressions (settled text)).filter (!isPadded ·) = [] ∧
      (settled text = text ↔ (expressions text).filter (!isPadded ·) = []) := by
  refine ⟨filter_expressions_settled text, ?_, ?_⟩
  · intro hsame
    rw [← hsame]
    exact filter_expressions_settled text
  · intro hnone
    rw [← map_snd_cut, List.filter_eq_nil_iff] at hnone
    have hkept : ∀ piece ∈ (cut text).pieces, (piece.1, settledInner piece.2) = piece := by
      intro piece hpiece
      have hpadded := hnone piece.2 (List.mem_map_of_mem hpiece)
      rw [settledInner, if_pos (by simpa using hpadded)]
    rw [settled_eq, Cut.map, List.map_congr_left hkept, List.map_id', written_cut]

end PlaybookStyle.Rule
