/-
Blank lines between two lines.

The scanner passes over every line without structure; the count of blank lines
before a line passes over blank lines and comments only, and ends at a document
marker. So where no line between two others carries structure, blank lines are
counted before the second exactly if one stands behind the last document marker
between them (`SourceLines.blankLinesBefore_pos_iff`).
-/

import PlaybookStyle.Proofs.Outline.Following
import PlaybookStyle.Proofs.Text.Trimming

namespace PlaybookStyle

open Text Outline

namespace SourceLines

/-- The line with a number is blank. -/
def IsBlankAt (source : SourceLines) (n : Nat) : Prop :=
  ∃ line, source.line? n = some line ∧ trim line = []

/-- The line with a number is a document marker or a directive at the margin. -/
def IsMarkerAt (source : SourceLines) (n : Nat) : Prop :=
  ∃ line, source.line? n = some line ∧ line.head? ≠ some ' ' ∧ isDocumentMarker (trim line) = true

/-- A blank line stands between two lines, with no document marker behind it. -/
def Apart (source : SourceLines) (last next : Nat) : Prop :=
  ∃ k, last < k ∧ k < next ∧ source.IsBlankAt k ∧
    ∀ j, k < j → j < next → ¬source.IsMarkerAt j

/-- Without a document marker between, any blank line will do. -/
theorem apart_iff {source : SourceLines} {last next : Nat}
    (unmarked : ∀ j, last < j → j < next → ¬source.IsMarkerAt j) :
    source.Apart last next ↔ ∃ k, last < k ∧ k < next ∧ source.IsBlankAt k := by
  constructor
  · rintro ⟨k, hlast, hnext, hblank, -⟩
    exact ⟨k, hlast, hnext, hblank⟩
  · rintro ⟨k, hlast, hnext, hblank⟩
    exact ⟨k, hlast, hnext, hblank, fun j hk hj => unmarked j (Nat.lt_trans hlast hk) hj⟩

/-! ### The lines of a text -/

section Text

variable {content : List Char} {n : Nat}

theorem line?_ofText (content : List Char) (hn : 0 < n) :
    (SourceLines.ofText content).line? n =
      (splitLines content)[n - 1]?.map (trimEndOf (· == '\r')) := by
  obtain ⟨m, rfl⟩ := Nat.exists_eq_succ_of_ne_zero (Nat.ne_of_gt hn)
  exact List.getElem?_map

theorem isAbsent_of_isDocumentMarker {text : List Char} (h : isDocumentMarker text = true) :
    isAbsent text = false := by
  cases text with
  | nil => cases h
  | cons c rest =>
    refine beq_eq_false_iff_ne.mpr ?_
    rintro rfl
    simp [isDocumentMarker] at h

/-- A line with structure is neither blank nor a comment. -/
theorem exists_line?_of_carriesAt (h : CarriesAt content n) (hn : 0 < n) :
    ∃ line, (SourceLines.ofText content).line? n = some line ∧ isAbsent (trim line) = false := by
  obtain ⟨logical, ⟨cut, hcut, hread⟩, rfl⟩ := h
  rw [line?_ofText content hn, hcut]
  exact ⟨_, rfl, isAbsent_trim_of_ofLine? hread⟩

/-- Trimming the end of a text leaves its first character or nothing. -/
theorem head?_trimEndOf (p : Char → Bool) (text : List Char) :
    trimEndOf p text = [] ∨ (trimEndOf p text).head? = text.head? := by
  obtain ⟨cut, hcut, -⟩ := exists_append_trimEndOf p text
  cases htrim : trimEndOf p text with
  | nil => exact .inl rfl
  | cons c rest =>
    rw [htrim] at hcut
    exact .inr (by rw [← hcut]; rfl)

/-- A line without structure is blank, a comment or a document marker. -/
theorem isAbsent_or_isMarkerAt (h : IdleAt content n) (hn : 0 < n) {line : List Char}
    (hline : (SourceLines.ofText content).line? n = some line) :
    isAbsent (trim line) = true ∨ (SourceLines.ofText content).IsMarkerAt n := by
  have hfound := hline
  rw [line?_ofText content hn] at hline
  obtain ⟨cut, hcut, rfl⟩ := Option.map_eq_some_iff.mp hline
  have hnone := h cut hcut
  rw [LogicalLine.ofLine?_eq] at hnone
  rw [trim_trimEndOf_returns, trim_eq_trimStart_trimEnd]
  split at hnone
  · exact .inl ‹_›
  · split at hnone
    · rename_i hmarker
      rw [Bool.and_eq_true, decide_eq_true_eq] at hmarker
      refine .inr ⟨_, hfound, ?_, ?_⟩
      · intro hspace
        have hcut : cut.head? = some ' ' := by
          rcases head?_trimEndOf (· == '\r') cut with hnil | hhead
          · rw [hnil] at hspace
            cases hspace
          · rw [← hhead]
            exact hspace
        rcases head?_trimEndOf isBlank cut with hnil | hhead
        · rw [trimEnd, hnil] at hmarker
          cases hmarker.2
        · obtain ⟨rest, hrest⟩ := List.head?_eq_some_iff.mp (hhead.trans hcut)
          rw [trimEnd, hrest] at hmarker
          cases hmarker.1
      · rw [trim_trimEndOf_returns, trim_eq_trimStart_trimEnd]
        exact hmarker.2
    · cases hnone

end Text

/-! ### Counting -/

/-- Blank lines are counted above if one stands there with only blank lines and
comments below it. -/
theorem blankLinesAbove_pos_iff (above : List (List Char)) :
    0 < blankLinesAbove above ↔ ∃ i : Nat, (∃ line, above[i]? = some line ∧ trim line = []) ∧
      ∀ j < i, ∀ line, above[j]? = some line → isAbsent (trim line) = true := by
  induction above with
  | nil => simp [blankLinesAbove]
  | cons first rest ih =>
    cases htrim : trim first with
    | nil =>
      have hcount : blankLinesAbove (first :: rest) = blankLinesAbove rest + 1 := by
        simp only [blankLinesAbove, htrim]
      refine iff_of_true (hcount ▸ Nat.succ_pos _) ⟨0, ⟨first, rfl, htrim⟩, ?_⟩
      intro j hj
      exact absurd hj (Nat.not_lt_zero j)
    | cons c more =>
      by_cases hc : c = '#'
      · -- A comment is passed over.
        subst hc
        have hcount : blankLinesAbove (first :: rest) = blankLinesAbove rest := by
          simp only [blankLinesAbove, htrim]
        rw [hcount]
        refine ih.trans ⟨?_, ?_⟩
        · rintro ⟨i, hblank, habsent⟩
          refine ⟨i + 1, hblank, fun j hj line hline => ?_⟩
          cases j with
          | zero =>
            obtain rfl := Option.some.inj hline
            rw [htrim]
            rfl
          | succ j => exact habsent j (Nat.lt_of_succ_lt_succ hj) line hline
        · rintro ⟨i, ⟨line, hline, hblank⟩, habsent⟩
          cases i with
          | zero =>
            obtain rfl := Option.some.inj hline
            rw [htrim] at hblank
            cases hblank
          | succ i =>
            exact ⟨i, ⟨line, hline, hblank⟩, fun j hj => habsent (j + 1) (Nat.succ_lt_succ hj)⟩
      · -- Content ends the count.
        have hcontent : isAbsent (trim first) = false := by
          rw [htrim]
          exact beq_eq_false_iff_ne.mpr hc
        have hcount : blankLinesAbove (first :: rest) = 0 := by
          simp [blankLinesAbove, htrim, hc]
        refine iff_of_false (hcount ▸ Nat.lt_irrefl 0) ?_
        rintro ⟨i, ⟨line, hline, hblank⟩, habsent⟩
        cases i with
        | zero =>
          obtain rfl := Option.some.inj hline
          rw [hblank] at hcontent
          cases hcontent
        | succ i =>
          rw [habsent 0 (Nat.succ_pos i) first rfl] at hcontent
          cases hcontent

/-- **Blank lines before a line.** Between two lines with structure where no other
line carries any, blank lines are counted before the second exactly if one stands
there with no document marker behind it. -/
theorem blankLinesBefore_pos_iff {content : List Char} {last next : Nat}
    (carries : CarriesAt content last) (carriesNext : CarriesAt content next) (hlt : last < next)
    (idle : ∀ k, last < k → k < next → IdleAt content k) :
    0 < (SourceLines.ofText content).blankLinesBefore next ↔
      (SourceLines.ofText content).Apart last next := by
  have hsize : next - 1 ≤ (SourceLines.ofText content).size := by
    obtain ⟨line, ⟨cut, hcut, -⟩, rfl⟩ := carriesNext
    obtain ⟨hlength, -⟩ := List.getElem?_eq_some_iff.mp hcut
    rw [size, SourceLines.ofText, List.length_map]
    exact Nat.le_of_lt hlength
  have habove : ∀ k, k < next → 0 < k →
      ((SourceLines.ofText content).lines.take (next - 1)).reverse[next - 1 - k]? =
        (SourceLines.ofText content).line? k := by
    intro k hk hpos
    have htake : ((SourceLines.ofText content).lines.take (next - 1)).length = next - 1 :=
      List.length_take_of_le hsize
    obtain ⟨m, rfl⟩ := Nat.exists_eq_succ_of_ne_zero (Nat.ne_of_gt hpos)
    rw [List.getElem?_reverse (by omega), htake, List.getElem?_take_of_lt (by omega)]
    rw [show next - 1 - 1 - (next - 1 - (m + 1)) = m by omega]
    rfl
  rw [blankLinesBefore, if_pos hsize, blankLinesAbove_pos_iff]
  constructor
  · rintro ⟨i, ⟨line, hline, hblank⟩, habsent⟩
    have hi : i < next - 1 := by
      obtain ⟨hlength, -⟩ := List.getElem?_eq_some_iff.mp hline
      rw [List.length_reverse, List.length_take_of_le hsize] at hlength
      exact hlength
    -- The line with structure before the gap would end the count.
    have hbetween : last < next - 1 - i := by
      by_contra hle
      have hlast : 0 < last := by omega
      obtain ⟨content, hcontent, hpresent⟩ := exists_line?_of_carriesAt carries hlast
      have hindex := (habove last hlt hlast).trans hcontent
      rcases Nat.lt_or_eq_of_le (show next - 1 - last ≤ i by omega) with hless | heq
      · rw [habsent _ hless content hindex] at hpresent
        cases hpresent
      · rw [heq, hline] at hindex
        obtain rfl := Option.some.inj hindex
        rw [hblank] at hpresent
        cases hpresent
    have hnumber := habove (next - 1 - i) (by omega) (by omega)
    rw [show next - 1 - (next - 1 - i) = i by omega, hline] at hnumber
    refine ⟨next - 1 - i, hbetween, by omega, ⟨line, hnumber.symm, hblank⟩, ?_⟩
    rintro j hlow hhigh ⟨marker, hmarker, -, hmark⟩
    have hindex := (habove j hhigh (by omega)).trans hmarker
    have habsentMarker := habsent _ (by omega) marker hindex
    rw [isAbsent_of_isDocumentMarker hmark] at habsentMarker
    cases habsentMarker
  · rintro ⟨k, hlow, hhigh, ⟨line, hline, hblank⟩, unmarked⟩
    refine ⟨next - 1 - k, ⟨line, (habove k hhigh (by omega)).trans hline, hblank⟩, ?_⟩
    intro j hj above habsent
    have hnumber := habove (next - 1 - j) (by omega) (by omega)
    rw [show next - 1 - (next - 1 - j) = j by omega, habsent] at hnumber
    rcases isAbsent_or_isMarkerAt (idle _ (by omega) (by omega)) (by omega) hnumber.symm with
      hfound | hmarker
    · exact hfound
    · exact absurd hmarker (unmarked _ (by omega) (by omega))

end SourceLines

end PlaybookStyle
