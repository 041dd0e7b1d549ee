/-
What is cut out of a line stands in the line.

Each function of the scanner that takes a line apart has its lemma here: the text
is what was found, with the rest around it, and the bytes that the function
counts are the bytes in front of the rest. Columns are sums of such counts.
-/

import PlaybookStyle.Outline.Scan
import PlaybookStyle.Proofs.Text.Trimming

namespace PlaybookStyle.Outline

open Text

/-! ### Lines -/

/-- What a source line gives, as one question after the other. -/
theorem LogicalLine.ofLine?_eq (number : Nat) (line : List Char) :
    LogicalLine.ofLine? number line =
      if isAbsent (trimStart (trimEnd line)) then none
      else if decide (((trimEnd line).takeWhile (· == ' ')).length = 0) &&
          isDocumentMarker (trimStart (trimEnd line)) then none
      else some ⟨number, ((trimEnd line).takeWhile (· == ' ')).length,
        (trimEnd line).dropWhile (· == ' ')⟩ := by
  rw [LogicalLine.ofLine?]
  cases hcontent : trimStart (trimEnd line) with
  | nil => rfl
  | cons c rest =>
    by_cases hc : c = '#'
    · subst hc
      rfl
    · rw [if_neg (show ¬isAbsent (c :: rest) = true by simp [isAbsent, hc])]
      split
      · rename_i heq
        cases heq
      · rename_i heq
        exact absurd (List.cons.inj heq).1 hc
      · rfl

/-- The line of a logical line. -/
theorem exists_of_mem_ofLines {number : Nat} {lines : List (List Char)} {line : LogicalLine}
    (h : line ∈ LogicalLine.ofLines number lines) :
    ∃ i cut, line.number = number + i ∧ lines[i]? = some cut ∧
      LogicalLine.ofLine? line.number cut = some line := by
  induction lines generalizing number with
  | nil => cases h
  | cons first rest ih =>
    rw [LogicalLine.ofLines, List.mem_append, Option.mem_toList] at h
    rcases h with h | h
    · have hnumber : line.number = number := by
        have hline := h
        rw [LogicalLine.ofLine?_eq] at hline
        repeat' split at hline
        all_goals cases hline
        rfl
      exact ⟨0, first, hnumber, rfl, by rw [hnumber]; exact h⟩
    · obtain ⟨i, cut, hnumber, hcut, hline⟩ := ih h
      exact ⟨i + 1, cut, by omega, hcut, hline⟩

/-- A logical line with the number of a line is made from that. -/
theorem ofLine?_of_mem_ofText {source line : List Char} {above below : List (List Char)}
    {top : LogicalLine} (h : top ∈ LogicalLine.ofText source)
    (lines : splitLines source = above ++ line :: below) (number : top.number = above.length + 1) :
    LogicalLine.ofLine? top.number line = some top := by
  obtain ⟨i, cut, hnumber, hcut, hline⟩ := exists_of_mem_ofLines h
  obtain rfl : i = above.length := by omega
  rw [lines, List.getElem?_append_right (Nat.le_refl _), Nat.sub_self] at hcut
  obtain rfl : line = cut := Option.some.inj hcut
  exact hline

theorem LogicalLine.ofLines_append (number : Nat) (a b : List (List Char)) :
    ofLines number (a ++ b) = ofLines number a ++ ofLines (number + a.length) b := by
  induction a generalizing number with
  | nil => rfl
  | cons line rest ih =>
    rw [List.cons_append, ofLines, ofLines, ih, List.append_assoc, List.length_cons,
      Nat.add_assoc number, Nat.add_comm 1]

/-- A logical line is a line with content. -/
theorem isAbsent_trim_of_ofLine? {number : Nat} {cut : List Char} {line : LogicalLine}
    (h : LogicalLine.ofLine? number cut = some line) :
    isAbsent (trim (trimEndOf (· == '\r') cut)) = false := by
  rw [trim_trimEndOf_returns, trim_eq_trimStart_trimEnd]
  rw [LogicalLine.ofLine?_eq] at h
  split at h
  · cases h
  · rename_i habsent
    exact Bool.eq_false_iff.mpr habsent

/-! ### Texts with content -/

/-- Behind its blanks, a text has something other than a comment. -/
def HasContent (text : List Char) : Prop := isAbsent (trimStart text) = false

theorem hasContent_trimStart {text : List Char} (h : isAbsent (trimStart text) = false) :
    HasContent (trimStart text) := by
  rw [HasContent, trimStart_trimStart]
  exact h

/-! ### Comments -/

theorem beforeComment_isPrefix (text : List Char) : beforeComment text <+: text := by
  induction text with
  | nil => exact List.prefix_refl _
  | cons c rest ih =>
    rw [beforeComment]
    split
    · exact List.nil_prefix
    · exact (List.prefix_cons_inj c).mpr ih

theorem stripComment_isPrefix (text : List Char) : stripComment text <+: text := by
  rw [stripComment]
  split
  · exact List.nil_prefix
  · exact (trimEnd_isPrefix _).trans (beforeComment_isPrefix text)

theorem trimEnd_beforeComment_cons {c : Char} {rest : List Char} (h : HasContent (c :: rest)) :
    trimEnd (beforeComment (c :: rest)) = c :: trimEnd (beforeComment rest) := by
  induction rest generalizing c with
  | nil =>
    have hblank : isBlank c = false := by
      cases hc : isBlank c with
      | false => rfl
      | true => simp [HasContent, trimStart, hc, isAbsent] at h
    have hbefore : beforeComment [c] = [c] := by simp [beforeComment]
    rw [hbefore, trimEnd_cons_of_not_isBlank hblank]
    rfl
  | cons next rest ih =>
    cases hc : isBlank c with
    | false =>
      have hspace : ¬(c = ' ' ∧ (next :: rest).head? = some '#') := by
        rintro ⟨rfl, -⟩
        cases hc
      rw [beforeComment, if_neg hspace, trimEnd_cons_of_not_isBlank hc]
    | true =>
      have hnext : HasContent (next :: rest) := by
        simpa only [HasContent, trimStart, hc, if_true] using h
      have hspace : ¬(c = ' ' ∧ (next :: rest).head? = some '#') := by
        rintro ⟨-, hhead⟩
        obtain rfl : next = '#' := by simpa using hhead
        rw [HasContent, trimStart_of_not_isBlank (by decide)] at hnext
        cases hnext
      have hne : trimEnd (beforeComment (next :: rest)) ≠ [] := by
        rw [ih hnext]
        exact List.cons_ne_nil _ _
      rw [beforeComment, if_neg hspace, trimEnd_cons_of_ne_nil hne]

/-- Without its comment, a text with content keeps its first character. -/
theorem stripComment_cons {c : Char} {rest : List Char} (h : HasContent (c :: rest)) :
    ∃ more, stripComment (c :: rest) = c :: more := by
  have hmark : ¬(c :: rest).head? = some '#' := by
    intro hhead
    obtain rfl : c = '#' := by simpa using hhead
    rw [HasContent, trimStart_of_not_isBlank (by decide)] at h
    cases h
  rw [stripComment, if_neg hmark, trimEnd_beforeComment_cons h]
  exact ⟨_, rfl⟩

/-! ### Tags and anchors -/

/-- Properties stand in front of the value; what is behind them starts where the
column says, and if it is there at all, it has content. -/
theorem skipProperties_append (tag? : Option (List Char)) (column : Nat) (text : List Char) :
    ∃ skipped, text = skipped ++ (skipProperties tag? column text).2.2 ∧
      (skipProperties tag? column text).2.1 = column + byteLength skipped ∧
      (trimStart text = text ∨ HasContent text →
        isAbsent (skipProperties tag? column text).2.2 = false →
        HasContent (skipProperties tag? column text).2.2) := by
  fun_induction skipProperties tag? column text with
  | case1 => exact ⟨[], rfl, rfl, fun _ h => by cases h⟩
  | case2 tag? column c rest hmark after ih =>
    simp only [dite_eq_ite] at ih
    obtain ⟨skipped, hafter, hcolumn, hcontent⟩ := ih
    have hword := List.takeWhile_append_dropWhile (p := (!isBlank ·)) (l := c :: rest)
    have hgap := takeWhile_append_trimStart ((c :: rest).dropWhile (!isBlank ·))
    have htext : c :: rest = ((c :: rest).takeWhile (!isBlank ·) ++
        ((c :: rest).dropWhile (!isBlank ·)).takeWhile isBlank) ++ after := by
      rw [List.append_assoc, hgap, hword]
    generalize (c :: rest).takeWhile (!isBlank ·) ++
      ((c :: rest).dropWhile (!isBlank ·)).takeWhile isBlank = front at htext
    refine ⟨front ++ skipped, ?_, ?_, ?_⟩
    · rw [List.append_assoc, ← hafter]
      exact htext
    · rw [hcolumn, htext]
      simp only [byteLength_append]
      omega
    · intro _ hpresent
      exact hcontent (.inl (trimStart_trimStart _)) hpresent
  | case3 tag? column c rest hmark =>
    refine ⟨[], rfl, rfl, ?_⟩
    rintro (htrim | hcontent) hpresent
    · rw [HasContent, htrim]
      exact hpresent
    · exact hcontent

/-! ### Keys -/

/-- A key as it is written: bare, or between quotes of one kind. -/
inductive WrittenKey (key : List Char) : List Char → Prop
  | bare : WrittenKey key key
  | quoted (quote : Char) (h : quote = '"' ∨ quote = '\'') : WrittenKey key (quote :: key ++ [quote])

/-- Nothing is lost at a closing quote. -/
theorem splitQuoted_append {quote : Char} {text inner after : List Char}
    (hquote : quote = '"' ∨ quote = '\'') (h : splitQuoted quote text = some (inner, after)) :
    inner ++ quote :: after = text := by
  rcases hquote with rfl | rfl
  · exact splitDouble_append h
  · exact splitSingle_append h

theorem byteLength_eq_length_of_spaces {text : List Char} (h : text.all (· == ' ')) :
    byteLength text = text.length := by
  induction text with
  | nil => rfl
  | cons c rest ih =>
    rw [List.all_cons, Bool.and_eq_true, beq_iff_eq] at h
    have hsize : c.utf8Size = 1 := by rw [h.1]; decide
    rw [byteLength_cons, ih h.2, hsize, List.length_cons, Nat.add_comm]

theorem all_isBlank_of_spaces {text : List Char} (h : text.all (· == ' ')) : text.all isBlank := by
  rw [List.all_eq_true] at h ⊢
  intro c hc
  rw [beq_iff_eq.mp (h c hc)]
  decide

/-- How a line is cut at its key: at the colon behind a quoted text, or at the first one
that ends a plain key. -/
inductive CutAtKey : List Char → KeySplit → Prop
  | quoted {quote : Char} {text inner after value : List Char}
      (isQuote : quote = '"' ∨ quote = '\'')
      (cut : splitQuoted quote text = some (inner, after))
      (colon : after.dropWhile (· == ' ') = ':' :: value) (ends : endsKey value = true) :
      CutAtKey (quote :: text)
        ⟨inner, byteLength inner + 2 + (after.takeWhile (· == ' ')).length,
          (after.takeWhile (· == ' ')).length, value⟩
  | plain {c : Char} {more before value : List Char} (noQuote : ¬(c = '"' ∨ c = '\''))
      (opens : opensNoKey c = false) (cut : splitColon false (c :: more) = some (before, value))
      (key : (trimEnd before).isEmpty = false) :
      CutAtKey (c :: more)
        ⟨trimEnd before, byteLength before, byteLength before - byteLength (trimEnd before), value⟩

theorem CutAtKey.of_splitKey {text : List Char} {split : KeySplit} (h : splitKey text = some split) :
    CutAtKey text split := by
  unfold splitKey at h
  split at h
  · cases h
  · split at h
    · rename_i hquote
      split at h
      · cases h
      · rename_i inner after hcut
        split at h
        · rename_i value hvalue
          split at h
          · rename_i hends
            obtain rfl := Option.some.inj h
            exact .quoted hquote hcut hvalue hends
          · cases h
        · cases h
    · rename_i hquote
      split at h
      · cases h
      · rename_i hopens
        split at h
        · cases h
        · rename_i before value hcut
          dsimp only at h
          split at h
          · cases h
          · rename_i hkey
            obtain rfl := Option.some.inj h
            exact .plain hquote (Bool.eq_false_iff.mpr hopens) hcut (Bool.eq_false_iff.mpr hkey)

theorem splitKey_eq_some_iff {text : List Char} {split : KeySplit} :
    splitKey text = some split ↔ CutAtKey text split := by
  refine ⟨.of_splitKey, fun h => ?_⟩
  cases h with
  | quoted isQuote cut colon ends =>
    rw [splitKey, if_pos isQuote, cut]
    dsimp only
    rw [colon]
    exact if_pos ends
  | plain noQuote opens cut key =>
    rw [splitKey, if_neg noQuote, opens, cut]
    dsimp only
    rw [key]
    rfl

theorem splitKey_eq_none {text : List Char} (h : ∀ split, ¬CutAtKey text split) :
    splitKey text = none :=
  Option.eq_none_iff_forall_ne_some.mpr fun split hkey => h split (splitKey_eq_some_iff.mp hkey)

/-- A line cut at its key is the key as written, blanks, the colon and the rest;
the bytes before the colon and among them the blanks are counted right. -/
theorem splitKey_append {text : List Char} {split : KeySplit} (h : splitKey text = some split) :
    ∃ written blanks, WrittenKey split.key written ∧ blanks.all isBlank ∧
      text = written ++ blanks ++ ':' :: split.rest ∧
      split.beforeColon = byteLength blanks ∧ split.colon = byteLength (written ++ blanks) := by
  cases splitKey_eq_some_iff.mp h with
  | @quoted c text inner after value hquote hinner hvalue =>
    have hspaces : (after.takeWhile (· == ' ')).all (· == ' ') := List.all_takeWhile
    have hcount := byteLength_eq_length_of_spaces hspaces
    have hafter := List.takeWhile_append_dropWhile (p := (· == ' ')) (l := after)
    rw [hvalue] at hafter
    have hquoteSize : c.utf8Size = 1 := by rcases hquote with rfl | rfl <;> decide
    refine ⟨c :: inner ++ [c], after.takeWhile (· == ' '), .quoted c hquote,
      all_isBlank_of_spaces hspaces, ?_, hcount.symm, ?_⟩
    · simp [← splitQuoted_append hquote hinner, hafter]
    · simp only [byteLength_append, byteLength_cons, byteLength_nil, hcount, hquoteSize]
      omega
  | @plain c more before value _ _ hcolon =>
    obtain ⟨blanks, hblanks, hall⟩ := exists_append_trimEndOf isBlank before
    have hbytes : byteLength before = byteLength (trimEnd before) + byteLength blanks := by
      rw [← byteLength_append]
      exact congrArg byteLength hblanks.symm
    refine ⟨trimEnd before, blanks, .bare, hall, ?_, ?_, ?_⟩
    · have hline := splitColon_append hcolon
      rw [trimEnd, hblanks]
      exact hline.symm
    · simp only [hbytes]
      omega
    · simp only [hbytes, byteLength_append]

/-- The text behind a colon is the gap and the value. -/
theorem KeySplit.rest_eq (split : KeySplit) : split.rest = split.gap ++ split.value :=
  (takeWhile_append_trimStart split.rest).symm

/-- In front of the value stand the bytes up to the colon, the colon and the gap. -/
theorem exists_front_of_splitKey {text : List Char} {split : KeySplit}
    (h : splitKey text = some split) :
    ∃ front, text = front ++ split.value ∧
      byteLength front = split.colon + 1 + byteLength split.gap := by
  obtain ⟨written, blanks, -, -, htext, -, hcolon⟩ := splitKey_append h
  have hmark : Char.utf8Size ':' = 1 := by decide
  refine ⟨written ++ blanks ++ ':' :: split.gap, ?_, ?_⟩
  · rw [htext, split.rest_eq, List.append_assoc _ (':' :: _), List.cons_append]
  · rw [byteLength_append, byteLength_cons, hmark, ← hcolon, Nat.add_assoc]

/-! ### Items -/

theorem exists_eq_cons_of_isItem {text : List Char} (h : isItem text = true) :
    ∃ rest, text = '-' :: rest := by
  unfold isItem at h
  split at h
  · exact ⟨[], rfl⟩
  · exact ⟨_, rfl⟩
  · cases h

/-- The text of an item's line is the dash, blanks and the item. -/
theorem LogicalLine.text_eq_of_isItem {line : LogicalLine} (h : isItem line.text = true) :
    ∃ blanks, line.text = '-' :: blanks ++ line.item ∧
      line.behindDash.indent = line.indent + 1 + byteLength blanks := by
  obtain ⟨rest, hrest⟩ := exists_eq_cons_of_isItem h
  have hgap := takeWhile_append_trimStart rest
  have hbytes := congrArg byteLength hgap
  refine ⟨rest.takeWhile isBlank, ?_, ?_⟩
  · simp [item, hrest, hgap]
  · simp only [byteLength_append] at hbytes
    simp only [behindDash, item, hrest, List.drop_succ_cons, List.drop_zero]
    omega

/-- In front of the item stand the bytes that its indentation is deeper by. -/
theorem LogicalLine.exists_front_of_isItem {line : LogicalLine} (h : isItem line.text = true) :
    ∃ front, line.text = front ++ line.item ∧
      line.behindDash.indent = line.indent + byteLength front := by
  obtain ⟨blanks, htext, hindent⟩ := text_eq_of_isItem h
  have hdash : Char.utf8Size '-' = 1 := by decide
  refine ⟨'-' :: blanks, htext, ?_⟩
  rw [hindent, byteLength_cons, hdash, Nat.add_assoc]

/-! ### Scalars -/

theorem joinWhile_isPrefix (more : List Char → Bool) (text : List Char)
    (lines : List LogicalLine) : text <+: (joinWhile more text lines).1 := by
  induction lines generalizing text with
  | nil => exact List.prefix_refl _
  | cons line rest ih =>
    rw [joinWhile]
    split
    · exact (List.prefix_append text _).trans (ih _)
    · exact List.prefix_refl _

theorem joinWhile_eq_of_taken_nil {more : List Char → Bool} {text : List Char}
    {lines : List LogicalLine} (h : (joinWhile more text lines).2.1 = []) :
    (joinWhile more text lines).1 = text := by
  cases lines with
  | nil => rfl
  | cons line rest =>
    rw [joinWhile] at h ⊢
    split at h
    · cases h
    · rename_i hmore
      rw [if_neg hmore]

/-- The token of a quoted scalar begins the text that it is read from. -/
theorem quotedScalarText_raw {quote : Char} (hquote : quote = '"' ∨ quote = '\'')
    (rest : List Char) :
    ∃ more, (quotedScalarText (quote :: rest)).raw = quote :: more ∧ more <+: rest := by
  unfold quotedScalarText
  cases h : splitQuoted quote rest with
  | none => exact ⟨rest, by simp only [apply_ite ScalarText.raw, ite_self, h], List.prefix_refl _⟩
  | some found =>
    obtain ⟨inner, after⟩ := found
    refine ⟨inner ++ [quote], by simp only [apply_ite ScalarText.raw, ite_self, h]; rfl, after, ?_⟩
    rw [List.append_assoc, List.singleton_append]
    exact splitQuoted_append hquote h

/-- The token of a scalar begins with the first character of the text that it
starts with, and is all in that text if no line is taken. -/
theorem scalarText_raw {c : Char} {rest : List Char} (h : HasContent (c :: rest)) (parent : Nat)
    (lines : List LogicalLine) :
    (∃ more, (scalarText (c :: rest) parent lines).1.raw = c :: more) ∧
      ((scalarText (c :: rest) parent lines).2.1 = [] →
        (scalarText (c :: rest) parent lines).1.raw <+: c :: rest) := by
  unfold scalarText
  dsimp only
  split
  · exact ⟨stripComment_cons h, fun _ => stripComment_isPrefix _⟩
  · split
    · rename_i hquote
      obtain ⟨tail, htail⟩ := joinWhile_isPrefix isUnclosed (c :: rest) lines
      obtain ⟨more, hraw, -⟩ := quotedScalarText_raw hquote (rest ++ tail)
      refine ⟨⟨more, ?_⟩, ?_⟩
      · dsimp only
        rw [← htail]
        exact hraw
      · intro htaken
        dsimp only at htaken ⊢
        rw [joinWhile_eq_of_taken_nil htaken]
        obtain ⟨more, hraw, hmore⟩ := quotedScalarText_raw hquote rest
        rw [hraw]
        exact (List.prefix_cons_inj c).mpr hmore
    · split
      · rename_i hbracket
        obtain ⟨tail, htail⟩ :=
          joinWhile_isPrefix (fun t => decide (0 < openBrackets t)) (c :: rest) lines
        have hblank : isBlank c = false := by rcases hbracket with rfl | rfl <;> decide
        have hcontent : HasContent (c :: (rest ++ tail)) := by
          rw [HasContent, trimStart_of_not_isBlank hblank] at h ⊢
          exact h
        refine ⟨?_, ?_⟩
        · dsimp only [flowText]
          rw [← htail]
          exact stripComment_cons hcontent
        · intro htaken
          dsimp only [flowText] at htaken ⊢
          rw [joinWhile_eq_of_taken_nil htaken]
          exact stripComment_isPrefix _
      · refine ⟨?_, ?_⟩
        · obtain ⟨more, hmore⟩ := stripComment_cons h
          dsimp only [plainText]
          rw [hmore]
          exact ⟨_, rfl⟩
        · intro htaken
          dsimp only [plainText] at htaken ⊢
          rw [htaken, List.flatMap_nil, List.append_nil]
          exact stripComment_isPrefix _

end PlaybookStyle.Outline
