/-
Noise: what may be put between and behind the lines of a text without a meaning.

Noise is full-line comments between the lines, blanks at their ends and carriage
returns before their line feeds, in any combination and any order (`Noise`). It
comes with the line on which each line stands afterwards. Three readers look at
lines, each with an idea of its own of what is blank: the logical lines of the
outline, the count of blank lines before a line, and the rule on indentation.
For each of them noise moves what it reads and changes nothing else
(`Noise.ofLines`, `Noise.blankLinesBefore`, `Noise.indentRemarks`).

They part ways at one place, which is therefore no noise: blanks behind the
carriage returns of a line that has nothing but an odd indentation before them.
The returns at the end of a line are no part of it for the rule on indentation;
with blanks behind them they are, and the line has content all of a sudden
(`Rule.indentRemark?_carriage`).
-/

import PlaybookStyle.Proofs.Outline.Document
import PlaybookStyle.Proofs.Rule.Indentation

namespace PlaybookStyle

open Text Outline
open Rule (isIndent)

/-! ### Noise -/

/-- An indentation by spaces in multiples of two. -/
def IsEven (leading : List Char) : Prop :=
  '\t' ∉ leading ∧ leading.length % 2 = 0

/-- Noise at the end of one line: blanks before some of the carriage returns that
end it, or one more carriage return. Where carriage returns stand before the
blanks and only an indentation before these, it has to be an even one. -/
inductive LineNoise : List Char → List Char → Prop
  | blanks {line blanks returns : List Char} (hblanks : blanks.all isIndent)
      (hreturns : returns.all (· == '\r'))
      (even : ∀ leading more, line = leading ++ '\r' :: more → leading.all isIndent →
        more.all (· == '\r') → IsEven leading) :
      LineNoise (line ++ returns) (line ++ blanks ++ returns)
  | carriage (line : List Char) : LineNoise line (line ++ ['\r'])

/-- Noise in the lines of a text, with the line on which each line stands afterwards. -/
inductive Noise : (Nat → Nat) → List (List Char) → List (List Char) → Prop
  | refl (lines : List (List Char)) : Noise id lines lines
  | comment {before after : List (List Char)} {blanks : List Char} (text : List Char)
      (hblanks : blanks.all isIndent) :
      Noise (fun n => if n ≤ before.length then n else n + 1) (before ++ after)
        (before ++ (blanks ++ '#' :: text) :: after)
  | line {before after : List (List Char)} {line noisy : List Char} (h : LineNoise line noisy) :
      Noise id (before ++ line :: after) (before ++ noisy :: after)
  | trans {f g : Nat → Nat} {lines middle noisy : List (List Char)} (first : Noise f lines middle)
      (second : Noise g middle noisy) : Noise (g ∘ f) lines noisy

namespace Noise

variable {f : Nat → Nat} {lines noisy : List (List Char)}

/-- No line passes another. -/
theorem strictMono (h : Noise f lines noisy) : StrictMono f := by
  induction h with
  | refl lines => exact strictMono_id
  | comment text hblanks =>
    intro m n hmn
    dsimp only
    split <;> split <;> omega
  | line h => exact strictMono_id
  | trans first second hfirst hsecond => exact hsecond.comp hfirst

/-- What stands before the first line stays there. -/
theorem zero (h : Noise f lines noisy) : f 0 = 0 := by
  induction h with
  | refl lines => rfl
  | comment text hblanks => exact if_pos (Nat.zero_le _)
  | line h => rfl
  | trans first second hfirst hsecond => rw [Function.comp_apply, hfirst, hsecond]

/-- Noise at the ends of any number of lines. -/
theorem ofLineNoise {before a b : List (List Char)}
    (h : List.Forall₂ (fun line noisy => noisy = line ∨ LineNoise line noisy) a b) :
    Noise id (before ++ a) (before ++ b) := by
  induction h generalizing before with
  | nil => exact .refl _
  | @cons line noisy a b hline _ ih =>
    have hfirst : Noise id (before ++ line :: a) (before ++ noisy :: a) := by
      rcases hline with rfl | hline
      · exact .refl _
      · exact .line hline
    have hrest := @ih (before ++ [noisy])
    rw [List.append_assoc, List.append_assoc] at hrest
    exact hfirst.trans hrest

/-- Every line feed of a text turned into a carriage return and a line feed. -/
def carriages (text : List Char) : List Char :=
  text.flatMap fun c => if c = '\n' then ['\r', '\n'] else [c]

theorem ofCarriages (text : List Char) :
    Noise id (splitLines text) (splitLines (carriages text)) := by
  have hlines : List.Forall₂ (fun line noisy => noisy = line ∨ noisy = line ++ ['\r'])
      (splitLines text) (splitLines (carriages text)) := by
    induction text with
    | nil => exact .nil
    | cons c rest ih =>
      rw [carriages, List.flatMap_cons, ← carriages]
      by_cases hc : c = '\n'
      · subst hc
        rw [if_pos rfl, splitLines_newline]
        exact .cons (.inr rfl) ih
      · rw [if_neg hc, List.singleton_append, splitLines, if_neg hc, splitLines, if_neg hc]
        generalize splitLines rest = lines, splitLines (carriages rest) = noisy at ih ⊢
        cases ih with
        | nil => exact .cons (.inl rfl) .nil
        | cons hline hlines =>
          refine .cons ?_ hlines
          rcases hline with rfl | rfl
          · exact .inl rfl
          · exact .inr rfl
  refine @ofLineNoise [] _ _ (hlines.imp fun line noisy h => ?_)
  rcases h with rfl | rfl
  · exact .inl rfl
  · exact .inr (.carriage line)

end Noise

/-! ### Blanks -/

section Trimming

theorem isBlank_of_isIndent {c : Char} (h : isIndent c = true) : isBlank c = true := by
  simp only [isIndent, Bool.or_eq_true, decide_eq_true_eq] at h
  rcases h with rfl | rfl <;> rfl

theorem all_isBlank_of_isIndent {text : List Char} (h : text.all isIndent) : text.all isBlank := by
  rw [List.all_eq_true] at h ⊢
  exact fun c hc => isBlank_of_isIndent (h c hc)

end Trimming

namespace LineNoise

variable {line noisy : List Char}

theorem trimEnd_eq (h : LineNoise line noisy) : trimEnd noisy = trimEnd line := by
  cases h with
  | blanks hblanks hreturns _ =>
    have hreturns := all_isBlank_of_returns hreturns
    rw [trimEnd, trimEnd, trimEndOf_append_of_all hreturns, trimEndOf_append_of_all hreturns,
      trimEndOf_append_of_all (all_isBlank_of_isIndent hblanks)]
  | carriage => exact trimEndOf_append_singleton rfl line

theorem trim_eq (h : LineNoise line noisy) : trim noisy = trim line := by
  cases h with
  | blanks hblanks hreturns _ =>
    have hreturns := all_isBlank_of_returns hreturns
    rw [trim_append_of_all_isBlank hreturns, trim_append_of_all_isBlank hreturns,
      trim_append_of_all_isBlank (all_isBlank_of_isIndent hblanks)]
  | carriage => exact trim_append_of_all_isBlank (by decide) line

end LineNoise

theorem isIdle_comment {blanks : List Char} (h : blanks.all isIndent) (text : List Char) :
    IsIdle (blanks ++ '#' :: text) := .comment (all_isBlank_of_isIndent h)

/-! ### Logical lines -/

section LogicalLines

open Outline.LogicalLine

/-- **The outline's reader.** The logical lines move. -/
theorem Noise.ofLines {f : Nat → Nat} {lines noisy : List (List Char)} (h : Noise f lines noisy) :
    LogicalLine.ofLines 1 noisy = (LogicalLine.ofLines 1 lines).map (LogicalLine.moved f) := by
  induction h with
  | refl lines => exact ofLines_moved fun _ _ => rfl
  | @comment before after blanks text hblanks =>
    rw [LogicalLine.ofLines_append, LogicalLine.ofLines_append, LogicalLine.ofLines,
      ofLine?_idle (isIdle_comment hblanks text), Option.toList_none, List.nil_append,
      List.map_append]
    congr 1
    · exact ofLines_moved fun i hi => if_pos (by omega)
    · refine ofLines_moved fun i hi => ?_
      rw [if_neg (by omega)]
      omega
  | @line before after line noisy h =>
    have hline : ∀ n, ofLine? n noisy = ofLine? n line := fun n => by
      rw [ofLine?_eq, ofLine?_eq, h.trimEnd_eq]
    rw [LogicalLine.ofLines_append, LogicalLine.ofLines, hline, ← LogicalLine.ofLines,
      ← LogicalLine.ofLines_append]
    exact ofLines_moved fun _ _ => rfl
  | trans first second hfirst hsecond =>
    rw [hsecond, hfirst, List.map_map]
    rfl

end LogicalLines

/-! ### Blank lines -/

/-- The line view of lines that were cut at line feeds. -/
def SourceLines.ofCut (lines : List (List Char)) : SourceLines :=
  ⟨lines.map (trimEndOf (· == '\r'))⟩

section BlankLines

open SourceLines

/-- Only what is left of lines without blanks decides whether they are blank. -/
theorem blankLinesAbove_congr {a b : List (List Char)} (h : a.map trim = b.map trim) :
    blankLinesAbove a = blankLinesAbove b := by
  induction a generalizing b with
  | nil => rw [List.map_eq_nil_iff.mp h.symm]
  | cons line rest ih =>
    obtain ⟨other, others, rfl, htrim, hrest⟩ := List.map_eq_cons_iff.mp h.symm
    rw [blankLinesAbove, blankLinesAbove, ih hrest.symm, htrim]

theorem blankLinesAbove_comment {comment : List Char} {text : List Char}
    (h : trim comment = '#' :: text) (a b : List (List Char)) :
    blankLinesAbove (a ++ comment :: b) = blankLinesAbove (a ++ b) := by
  induction a with
  | nil =>
    rw [List.nil_append, List.nil_append, blankLinesAbove, h]
    rfl
  | cons line rest ih => rw [List.cons_append, List.cons_append, blankLinesAbove, blankLinesAbove, ih]

theorem trim_comment {blanks : List Char} (h : blanks.all isIndent) (text : List Char) :
    trim (blanks ++ '#' :: text) = '#' :: trimEnd text := by
  rw [trim, trimStart_append_of_all_isBlank (all_isBlank_of_isIndent h),
    trimStart_of_not_isBlank rfl, trimEnd_cons_of_not_isBlank rfl]

/-- **The counter of blank lines.** As many blank lines stand before a line as stood
before it. -/
theorem Noise.blankLinesBefore {f : Nat → Nat} {lines noisy : List (List Char)}
    (h : Noise f lines noisy) (n : Nat) :
    (ofCut noisy).blankLinesBefore (f n) = (ofCut lines).blankLinesBefore n := by
  induction h generalizing n with
  | refl lines => rfl
  | @comment before after blanks text hblanks =>
    have htrim : trim (trimEndOf (· == '\r') (blanks ++ '#' :: text)) = '#' :: trimEnd text := by
      rw [trim_trimEndOf_returns, trim_comment hblanks]
    have hbefore : ∀ k, before.length ≤ k → (before.map (trimEndOf (· == '\r'))).take k =
        before.map (trimEndOf (· == '\r')) := fun k hk =>
      List.take_of_length_le (by rwa [List.length_map])
    unfold SourceLines.blankLinesBefore
    simp only [ofCut, size, List.map_append, List.map_cons, List.length_append, List.length_cons,
      List.length_map]
    by_cases hn : n ≤ before.length
    · rw [if_pos hn, if_pos (by omega), if_pos (by omega),
        List.take_append_of_le_length (by rw [List.length_map]; omega),
        List.take_append_of_le_length (by rw [List.length_map]; omega)]
    · have htake : n - before.length = (n - 1 - before.length) + 1 := by omega
      rw [if_neg hn, Nat.add_sub_cancel, List.take_append, List.take_append, List.length_map,
        hbefore n (by omega), hbefore (n - 1) (by omega), htake, List.take_succ_cons,
        List.reverse_append, List.reverse_append, List.reverse_cons, List.append_assoc,
        List.singleton_append, blankLinesAbove_comment htrim]
      by_cases hsize : n - 1 ≤ before.length + after.length
      · rw [if_pos hsize, if_pos (by omega)]
      · rw [if_neg hsize, if_neg (by omega)]
  | @line before after line noisy h =>
    have hmap : ((before ++ noisy :: after).map (trimEndOf (· == '\r'))).map trim =
        ((before ++ line :: after).map (trimEndOf (· == '\r'))).map trim := by
      simp only [List.map_append, List.map_cons, trim_trimEndOf_returns, h.trim_eq]
    unfold SourceLines.blankLinesBefore
    have habove : ∀ k, blankLinesAbove ((ofCut (before ++ noisy :: after)).lines.take k).reverse =
        blankLinesAbove ((ofCut (before ++ line :: after)).lines.take k).reverse := fun k => by
      refine blankLinesAbove_congr ?_
      rw [List.map_reverse, List.map_reverse, List.map_take, List.map_take]
      exact congrArg (fun l => (l.take k).reverse) hmap
    have hsize : (ofCut (before ++ noisy :: after)).size =
        (ofCut (before ++ line :: after)).size := by simp [ofCut, size]
    rw [id_eq, habove, hsize]
  | trans first second hfirst hsecond => rw [Function.comp_apply, hsecond, hfirst]

end BlankLines

/-! ### Indentation -/

namespace Rule

/-- Only the indentation and the first character behind it matter. -/
theorem indentRemark?_congr {leading : List Char} {c : Char} (hleading : leading.all isIndent)
    (hc : isIndent c = false) (number : Nat) (a b : List Char) :
    indentRemark? number (leading ++ c :: a) = indentRemark? number (leading ++ c :: b) := by
  have htake : ∀ rest, (leading ++ c :: rest).takeWhile isIndent = leading := fun rest => by
    rw [List.takeWhile_append_of_pos (by simpa using hleading), List.takeWhile_cons, hc]
    simp
  have hdrop : ∀ rest, (leading ++ c :: rest).dropWhile isIndent = c :: rest := fun rest => by
    rw [List.dropWhile_append_of_pos (by simpa using hleading), List.dropWhile_cons, hc]
    rfl
  rw [indentRemark?_eq, indentRemark?_eq, htake, htake, hdrop, hdrop, isAbsent, isAbsent]

theorem indentRemark?_of_indent {line : List Char} (h : line.all isIndent) (number : Nat) :
    indentRemark? number line = none := by
  have hdrop : line.dropWhile isIndent = [] := by
    rw [← List.append_nil line, List.dropWhile_append_of_pos (by simpa using h)]
    rfl
  rw [indentRemark?_eq, hdrop]
  rfl

/-- **Where the rule parts ways with the outline.** A line that is blank but for a
carriage return in it has content, so its indentation has to be even. -/
theorem indentRemark?_carriage {leading : List Char} (hleading : leading.all isIndent)
    (number : Nat) (rest : List Char) :
    indentRemark? number (leading ++ '\r' :: rest) = none ↔ IsEven leading := by
  have htake : (leading ++ '\r' :: rest).takeWhile isIndent = leading := by
    rw [List.takeWhile_append_of_pos (by simpa using hleading), List.takeWhile_cons_of_neg (by decide),
      List.append_nil]
  have hdrop : (leading ++ '\r' :: rest).dropWhile isIndent = '\r' :: rest := by
    rw [List.dropWhile_append_of_pos (by simpa using hleading),
      List.dropWhile_cons_of_neg (by decide)]
  rw [indentRemark?_eq, htake, hdrop, if_neg (by simp [isAbsent])]
  by_cases htab : '\t' ∈ leading
  · simp [IsEven, htab]
  · by_cases hwidth : leading.length % 2 = 0
    · simp [IsEven, htab, hwidth]
    · simp [IsEven, htab, hwidth]

end Rule

open Rule

/-- Blanks at the end of a line are nothing to the rule, as long as they do not
make content of the carriage returns behind an odd indentation. -/
theorem indentRemark?_append_blanks {line blanks : List Char} (hblanks : blanks.all isIndent)
    (even : ∀ leading more, line = leading ++ '\r' :: more → leading.all isIndent →
      more.all (· == '\r') → IsEven leading) (number : Nat) :
    indentRemark? number (line ++ blanks) =
      indentRemark? number (trimEndOf (· == '\r') line) := by
  have hreturn : ∀ c, isIndent c = true → (c == '\r') = false := by
    intro c hc
    refine beq_eq_false_iff_ne.mpr ?_
    rintro rfl
    cases hc
  by_cases hline : line.all isIndent
  · have hstrip : trimEndOf (· == '\r') line = line :=
      trimEndOf_of_forall fun c hc => hreturn c (List.all_eq_true.mp hline c hc)
    rw [hstrip, indentRemark?_of_indent hline,
      indentRemark?_of_indent (by rw [List.all_append, hline, hblanks]; rfl)]
  · obtain ⟨leading, c, rest, rfl, hleading, hc⟩ := exists_append_cons_of_not_all hline
    obtain ⟨cut, hcut, hall⟩ := exists_append_trimEndOf (· == '\r') (c :: rest)
    cases hrest : trimEndOf (· == '\r') (c :: rest) with
    | nil =>
      -- Behind its indentation, the line has nothing but carriage returns.
      rw [hrest, List.nil_append] at hcut
      subst hcut
      rw [List.all_cons, Bool.and_eq_true] at hall
      obtain rfl := beq_iff_eq.mp hall.1
      have hstrip : trimEndOf (· == '\r') (leading ++ '\r' :: rest) = leading := by
        rw [trimEndOf_append_of_all (by rw [List.all_cons, hall.2]; rfl)]
        exact trimEndOf_of_forall fun c hc => hreturn c (List.all_eq_true.mp hleading c hc)
      rw [hstrip, indentRemark?_of_indent hleading, List.append_assoc, List.cons_append]
      exact (indentRemark?_carriage hleading number _).mpr (even leading rest rfl hleading hall.2)
    | cons d more =>
      rw [hrest, List.cons_append] at hcut
      obtain ⟨rfl, -⟩ := List.cons.inj hcut
      rw [trimEndOf_append_of_ne_nil (by rw [hrest]; exact List.cons_ne_nil _ _), hrest,
        List.append_assoc, List.cons_append]
      exact indentRemark?_congr hleading hc number _ _

/-- The rule on indentation says the same about a line with noise at its end. -/
theorem LineNoise.indentRemark?_eq {line noisy : List Char} (h : LineNoise line noisy)
    (number : Nat) :
    indentRemark? number (trimEndOf (· == '\r') noisy) =
      indentRemark? number (trimEndOf (· == '\r') line) := by
  cases h with
  | carriage => rw [trimEndOf_append_singleton rfl]
  | @blanks line blanks returns hblanks hreturns even =>
    rw [trimEndOf_append_of_all hreturns, trimEndOf_append_of_all hreturns]
    cases blanks.eq_nil_or_concat with
    | inl hnil => rw [hnil, List.append_nil]
    | inr hlast =>
      rw [← indentRemark?_append_blanks hblanks even]
      obtain ⟨init, c, rfl⟩ := hlast
      have hc : isIndent c = true := by
        rw [List.concat_eq_append, List.all_append, Bool.and_eq_true] at hblanks
        simpa using hblanks.2
      have hreturn : (c == '\r') = false := by
        refine beq_eq_false_iff_ne.mpr ?_
        rintro rfl
        cases hc
      rw [List.concat_eq_append, ← List.append_assoc,
        trimEndOf_append_of_not (p := (· == '\r')) hreturn]

section Remarks

variable {f : Nat → Nat} {skip skip' : Nat → Bool}

/-- **The rule on indentation.** It says the same about the same lines. -/
theorem Noise.indentRemarks {lines noisy : List (List Char)} (h : Noise f lines noisy)
    (hskip : ∀ n, 0 < n → skip' (f n) = skip n) :
    indentRemarks skip' (SourceLines.ofCut noisy).numbered =
      (indentRemarks skip (SourceLines.ofCut lines).numbered).map (Remark.moved f) := by
  unfold SourceLines.numbered SourceLines.size SourceLines.ofCut
  induction h generalizing skip skip' with
  | refl lines => exact indentRemarks_moved _ Nat.one_pos hskip fun _ _ => rfl
  | @comment before after blanks text hblanks =>
    have hcomment : ∀ number,
        indentRemark? number (trimEndOf (· == '\r') (blanks ++ '#' :: text)) = none := by
      intro number
      have hbehind : trimEndOf (· == '\r') ('#' :: text) = '#' :: trimEndOf (· == '\r') text := by
        rw [trimEndOf]
        cases trimEndOf (· == '\r') text <;> rfl
      rw [trimEndOf_append_of_ne_nil (by rw [hbehind]; exact List.cons_ne_nil _ _), hbehind,
        indentRemark?_eq, List.dropWhile_append_of_pos (by simpa using hblanks)]
      rfl
    simp only [List.map_append, List.map_cons]
    rw [numbered_append, numbered_append, indentRemarks_append, indentRemarks_append, List.map_append,
      List.length_cons, List.range'_succ, List.zip_cons_cons, indentRemarks_cons_of_none (hcomment _),
      List.length_map]
    have hbefore := indentRemarks_moved (before.map (trimEndOf (· == '\r'))) Nat.one_pos hskip
      fun i hi => if_pos (show 1 + i ≤ before.length by simp at hi; omega)
    have hafter := indentRemarks_moved (after.map (trimEndOf (· == '\r')))
      (Nat.add_pos_left Nat.one_pos before.length) hskip fun i hi =>
        (if_neg (show ¬1 + before.length + i ≤ before.length by omega)).trans
          (Nat.add_right_comm (1 + before.length) i 1)
    rw [List.length_map] at hbefore
    rw [hbefore, hafter]
  | @line before after line noisy h =>
    have hline : ∀ skip : Nat → Bool, ∀ number rest,
        indentRemarks skip ((number, trimEndOf (· == '\r') noisy) :: rest) =
          indentRemarks skip ((number, trimEndOf (· == '\r') line) :: rest) := fun skip number rest => by
      simp only [indentRemarks, List.filterMap_cons, h.indentRemark?_eq]
    simp only [List.map_append, List.map_cons]
    rw [numbered_append, indentRemarks_append, List.length_cons, List.range'_succ,
      List.zip_cons_cons, hline, ← List.zip_cons_cons, ← List.range'_succ, ← List.length_cons,
      ← indentRemarks_append, ← numbered_append]
    exact indentRemarks_moved _ Nat.one_pos hskip fun _ _ => rfl
  | @trans f g lines middle noisy first second hfirst hsecond =>
    rw [@hsecond (fun n => skip' (g n)) skip' fun _ _ => rfl, hfirst hskip, List.map_map]
    rfl

end Remarks

end PlaybookStyle
