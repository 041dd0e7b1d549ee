/-
Tokens exchanged in the text of a source.

A text is what stands before a place, what stands there and the rest. With another text
there, all on the same line, the other lines are the same (`Text.exists_splitLines_at`). The
token of a scalar on one line stands at its place in the text, and can be exchanged so
(`exists_retokens`).
-/

import PlaybookStyle.Proofs.Outline.Appending
import PlaybookStyle.Proofs.Outline.Lines
import PlaybookStyle.Proofs.Outline.Quoting

namespace PlaybookStyle

open Text

/-- The place that is reached from another past a text. -/
def Position.past (place : Position) : List Char → Position
  | [] => place
  | c :: rest =>
    past (if c = '\n' then ⟨place.line + 1, 1⟩ else ⟨place.line, place.column + c.utf8Size⟩) rest

/-- The place right behind a text. -/
def placeBehind (text : List Char) : Position := Position.start.past text

/-- What a text has up to the end of its first line. -/
def restOfLine (text : List Char) : List Char := text.takeWhile (· != '\n')

namespace Position

variable {place : Position} {line : List Char}

theorem past_line (h : '\n' ∉ line) (place : Position) :
    place.past line = ⟨place.line, place.column + byteLength line⟩ := by
  induction line generalizing place with
  | nil => rfl
  | cons c rest ih =>
    rw [List.mem_cons, not_or] at h
    rw [past, if_neg (Ne.symm h.1), ih h.2, byteLength_cons, Nat.add_assoc]

theorem past_newline (h : '\n' ∉ line) (place : Position) (rest : List Char) :
    place.past (line ++ '\n' :: rest) = (Position.mk (place.line + 1) 1).past rest := by
  induction line generalizing place with
  | nil => rw [List.nil_append, past, if_pos rfl]
  | cons c more ih =>
    rw [List.mem_cons, not_or] at h
    rw [List.cons_append, past, if_neg (Ne.symm h.1), ih h.2]

end Position

namespace Text

variable {line text : List Char} {more : List (List Char)}

theorem splitLines_line (h : '\n' ∉ line) (present : line ≠ []) : splitLines line = [line] := by
  induction line with
  | nil => exact absurd rfl present
  | cons c rest ih =>
    rw [List.mem_cons, not_or] at h
    rw [splitLines, if_neg (Ne.symm h.1)]
    cases rest with
    | nil => rfl
    | cons d others => rw [ih h.2 (List.cons_ne_nil _ _)]

/-- The first line of a text, with a line feed behind it or nothing. -/
theorem exists_of_splitLines_cons (h : splitLines text = line :: more) :
    text = line ∧ more = [] ∨ ∃ rest, text = line ++ '\n' :: rest ∧ splitLines rest = more := by
  induction text generalizing line with
  | nil => cases h
  | cons c rest ih =>
    rw [splitLines] at h
    split at h
    · rename_i hnewline
      obtain ⟨rfl, rfl⟩ := List.cons.inj h
      exact .inr ⟨rest, by rw [hnewline]; rfl, rfl⟩
    · split at h
      · rename_i hrest
        obtain ⟨rfl, rfl⟩ := List.cons.inj h
        cases rest with
        | nil => exact .inl ⟨rfl, rfl⟩
        | cons d others => exact absurd hrest (Outline.splitLines_cons_ne_nil d others)
      · rename_i first lines hrest
        obtain ⟨rfl, rfl⟩ := List.cons.inj h
        rcases ih hrest with ⟨rfl, rfl⟩ | ⟨others, rfl, hothers⟩
        · exact .inl ⟨rfl, rfl⟩
        · exact .inr ⟨others, rfl, hothers⟩

theorem restOfLine_eq {after rest : List Char} (h : '\n' ∉ after)
    (ends : rest = after ∨ ∃ more, rest = after ++ '\n' :: more) : restOfLine rest = after := by
  have hall : ∀ c ∈ after, (c != '\n') = true := by
    intro c hc
    rw [bne_iff_ne]
    rintro rfl
    exact h hc
  rcases ends with rfl | ⟨more, rfl⟩
  · rw [restOfLine, ← List.append_nil rest, List.takeWhile_append_of_pos hall, List.takeWhile_nil]
  · rw [restOfLine, List.takeWhile_append_of_pos hall, List.takeWhile_cons_of_neg (by decide),
      List.append_nil]

/-- Around what stands on a line are the text before and the text behind, and with another
text between them only that line is another. -/
theorem exists_splitLines_at {source : List Char} {above below : List (List Char)}
    {before token after : List Char}
    (h : splitLines source = above ++ (before ++ (token ++ after)) :: below) :
    ∃ front rest, source = front ++ (token ++ rest) ∧
      placeBehind front = ⟨above.length + 1, byteLength before + 1⟩ ∧ restOfLine rest = after ∧
      ∀ token', '\n' ∉ token' → token' ≠ [] →
        splitLines (front ++ (token' ++ rest)) = above ++ (before ++ (token' ++ after)) :: below := by
  suffices found : ∀ place : Position, place.column = 1 → ∃ front rest, source = front ++ (token ++ rest) ∧
      place.past front = ⟨above.length + place.line, byteLength before + 1⟩ ∧
      restOfLine rest = after ∧ ∀ token', '\n' ∉ token' → token' ≠ [] →
        splitLines (front ++ (token' ++ rest)) = above ++ (before ++ (token' ++ after)) :: below from
    found .start rfl
  induction above generalizing source with
  | nil =>
    intro place hcolumn
    have hmem : '\n' ∉ before ++ (token ++ after) :=
      newline_not_mem_of_mem_splitLines (by rw [h]; exact List.mem_cons_self)
    simp only [List.mem_append, not_or] at hmem
    obtain ⟨hbefore, -, hafter⟩ := hmem
    have hpast : place.past before = ⟨place.line, byteLength before + 1⟩ := by
      rw [Position.past_line hbefore, hcolumn, Nat.add_comm 1]
    have hline : ∀ token', '\n' ∉ token' → '\n' ∉ before ++ (token' ++ after) := by
      intro token' htoken
      simp only [List.mem_append, not_or]
      exact ⟨hbefore, htoken, hafter⟩
    rcases exists_of_splitLines_cons h with ⟨rfl, rfl⟩ | ⟨rest, rfl, rfl⟩
    · refine ⟨before, after, rfl, by rw [hpast]; simp, restOfLine_eq hafter (.inl rfl), ?_⟩
      intro token' htoken hpresent
      exact splitLines_line (hline token' htoken) (by simp [hpresent])
    · refine ⟨before, after ++ '\n' :: rest, by simp, by rw [hpast]; simp,
        restOfLine_eq hafter (.inr ⟨rest, rfl⟩), ?_⟩
      intro token' htoken _
      have hsplit := splitLines_append_newline (hline token' htoken) rest
      simpa using hsplit
  | cons line above ih =>
    intro place _
    rcases exists_of_splitLines_cons h with ⟨-, hnil⟩ | ⟨rest, rfl, hrest⟩
    · exact absurd hnil (List.append_ne_nil_of_right_ne_nil _ (List.cons_ne_nil _ _))
    · have hmem : '\n' ∉ line :=
        newline_not_mem_of_mem_splitLines (by rw [h]; exact List.mem_cons_self)
      obtain ⟨front, tail, rfl, hpast, htail, hothers⟩ := ih hrest ⟨place.line + 1, 1⟩ rfl
      refine ⟨line ++ '\n' :: front, tail, by simp, ?_, htail, fun token' htoken hpresent => ?_⟩
      · rw [Position.past_newline hmem, hpast, List.length_cons]
        congr 1
        change above.length + (place.line + 1) = above.length + 1 + place.line
        omega
      · have hsplit := splitLines_append_newline hmem (front ++ (token' ++ tail))
        rw [hothers token' htoken hpresent] at hsplit
        simpa using hsplit

end Text

namespace Outline

variable {source : List Char} {holder last : Nat} {s : Scalar}

/-- Around the token of a scalar on one line are the text before its place and the text
behind, and another token can stand between them. -/
theorem exists_retokens (held : (Outline.scan source).root.Holds holder last s)
    (single : s.endLine = s.position.line) :
    ∃ front rest, source = front ++ (s.raw.toList ++ rest) ∧ placeBehind front = s.position ∧
      ∀ token', '\n' ∉ token' → token' ≠ [] →
        Retokens s.position s.raw.toList token' (restOfLine rest) source
          (front ++ (token' ++ rest)) := by
  have hread := (scan_scalar held).1
  have hline : 0 < s.position.line := by
    obtain ⟨c, more, -, stands⟩ := (held.stands (scan_placed source)).first
    exact line_pos_of_standsAt stands
  obtain ⟨text, opens, hcontent, hraw, -⟩ := id hread
  have hprefix : s.raw.toList <+: text := by
    cases text with
    | nil => cases hcontent
    | cons c rest =>
      rw [hraw, String.toList_ofList]
      exact (scalarText_raw hcontent _ _).2 (hread.taken_eq_nil opens single)
  obtain ⟨tail, rfl⟩ := hprefix
  obtain ⟨cut, before, hcut, htrim, hcolumn⟩ := opens
  obtain ⟨blanks, hblanks, -⟩ := exists_append_trimEndOf isBlank cut
  rw [← trimEnd, htrim] at hblanks
  obtain ⟨hlt, hget⟩ := List.getElem?_eq_some_iff.mp hcut
  have hlines : splitLines source = (splitLines source).take (s.position.line - 1) ++
      (before ++ (s.raw.toList ++ (tail ++ blanks))) ::
        (splitLines source).drop (s.position.line - 1 + 1) := by
    rw [show before ++ (s.raw.toList ++ (tail ++ blanks)) = cut by simpa using hblanks, ← hget,
      List.getElem_cons_drop, List.take_append_drop]
  have habove : ((splitLines source).take (s.position.line - 1)).length + 1 = s.position.line := by
    rw [List.length_take]
    omega
  obtain ⟨front, rest, hsource, hplace, hrest, hothers⟩ := exists_splitLines_at hlines
  refine ⟨front, rest, hsource, ?_, fun token' htoken hpresent => ?_⟩
  · rw [hplace, habove, ← hcolumn]
  · rw [hrest]
    exact .intro hlines (hothers token' htoken hpresent) habove hcolumn.symm

theorem Undoubles.subset {text text' : List Char} (h : Undoubles text text') : text' ⊆ text := by
  induction h with
  | nil => exact List.Subset.refl _
  | cons _ ih => exact List.cons_subset_cons _ ih
  | pair _ ih =>
    exact List.cons_subset_cons _ fun c hc => List.mem_cons_of_mem _ (ih hc)

/-- A text on one line, plain or in single quotes, has no other characters than the line. -/
theorem Scalar.OnLine.text_subset {old : List Char} (token : s.OnLine old)
    (style : s.style = .unquoted ∨ s.style = .single) : s.text.toList ⊆ old := by
  have notDouble : s.style ≠ .double := by rcases style with h | h <;> rw [h] <;> decide
  cases token with
  | plain _ raw text =>
    rw [text, raw]
    exact (stripComment_isPrefix _).subset
  | @closed quote rest inner tail isQuote cut raw text double =>
    obtain rfl : quote = '\'' := isQuote.resolve_left fun h => notDouble (double h)
    rw [text, contentOf, if_neg (by decide), ← splitQuoted_append isQuote cut]
    intro c hc
    exact List.mem_cons_of_mem _
      (List.mem_append_left _ ((undoubles_undouble inner).subset hc))
  | @unclosed quote rest isQuote cut raw text double =>
    obtain rfl : quote = '\'' := isQuote.resolve_left fun h => notDouble (double h)
    obtain ⟨more, hmore⟩ := exists_insideOf_append '\'' rest
    rw [text, contentOf, if_neg (by decide)]
    intro c hc
    rw [hmore]
    exact List.mem_cons_of_mem _
      (List.mem_append_left _ ((undoubles_undouble _).subset hc))
  | other other =>
    rcases style with h | h
    · exact absurd h other.1
    · rw [h] at other
      exact absurd other.2 (by decide)

theorem newline_not_mem_text (held : (Outline.scan source).root.Holds holder last s)
    (single : s.endLine = s.position.line) (style : s.style = .unquoted ∨ s.style = .single) :
    '\n' ∉ s.text.toList := by
  have hread := (scan_scalar held).1
  obtain ⟨text, opens, hcontent, -⟩ := id hread
  have present : text ≠ [] := by
    rintro rfl
    cases hcontent
  have hsubset := (hread.onLine opens single present).text_subset style
  obtain ⟨cut, before, hcut, htrim, -⟩ := opens
  intro hnewline
  refine newline_not_mem_of_mem_splitLines (List.mem_of_getElem? hcut) ?_
  refine (trimEnd_isPrefix cut).subset ?_
  rw [htrim]
  exact List.mem_append_right _ (hsubset hnewline)

end Outline

end PlaybookStyle
