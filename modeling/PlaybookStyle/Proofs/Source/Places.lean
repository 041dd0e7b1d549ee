/-
Places in a source text.

The lines of a text are told apart here as an editor tells them: a line feed ends
a line, together with a carriage return right before it, and a carriage return
anywhere else is a character like any other. A text stands at a place
(`StandsAt`) if the line has it behind as many bytes as the column says, and a
place lies in a text (`LiesIn`) if its line exists and its column is at most the
one behind the last byte.
-/

import Mathlib.Data.List.Forall2
import PlaybookStyle.Proofs.Text.Trimming
import PlaybookStyle.Source.Lines
import PlaybookStyle.Source.Position

namespace PlaybookStyle

open Text

namespace Text

/-! ### Lines -/

/-- The lines of a text without their ends. -/
def lines : List Char → List (List Char)
  | [] => []
  | '\n' :: rest => [] :: lines rest
  | '\r' :: '\n' :: rest => [] :: lines rest
  | c :: rest =>
    match lines rest with
    | [] => [[c]]
    | line :: more => (c :: line) :: more

/-- The line with a number, counted from one. -/
def line? (text : List Char) : Nat → Option (List Char)
  | 0 => none
  | n + 1 => (lines text)[n]?

/-- Cut at line feeds only, a line may keep a carriage return at its end. -/
theorem forall₂_splitLines_lines (text : List Char) :
    List.Forall₂ (fun cut line => cut = line ∨ cut = line ++ ['\r']) (splitLines text)
      (lines text) := by
  fun_induction lines text with
  | case1 => exact .nil
  | case2 rest ih =>
    rw [splitLines_newline]
    exact .cons (.inl rfl) ih
  | case3 rest ih =>
    have hcut : splitLines ('\r' :: '\n' :: rest) = ['\r'] :: splitLines rest := by
      simp [splitLines]
    rw [hcut]
    exact .cons (.inr rfl) ih
  | case4 c rest hnewline _ hnone ih =>
    rw [hnone, List.forall₂_nil_right_iff] at ih
    have hcut : splitLines (c :: rest) = [[c]] := by
      simp [splitLines, ih, show c ≠ '\n' from hnewline]
    rw [hcut]
    exact .cons (.inl rfl) .nil
  | case5 c rest hnewline _ line more hlines ih =>
    rw [hlines, List.forall₂_cons_right_iff] at ih
    obtain ⟨cut, cuts, hcut, hmore, hsplit⟩ := ih
    have hcons : splitLines (c :: rest) = (c :: cut) :: cuts := by
      simp [splitLines, hsplit, show c ≠ '\n' from hnewline]
    rw [hcons]
    refine .cons ?_ hmore
    rcases hcut with rfl | rfl
    · exact .inl rfl
    · exact .inr rfl

/-- Trimming a class that carriage returns belong to leaves the start of a line. -/
theorem exists_line?_of_splitLines {text cut : List Char} {i : Nat} {p : Char → Bool}
    (hp : p '\r' = true) (h : (splitLines text)[i]? = some cut) :
    ∃ after, line? text (i + 1) = some (trimEndOf p cut ++ after) := by
  have hall := forall₂_splitLines_lines text
  obtain ⟨hi, rfl⟩ := List.getElem?_eq_some_iff.mp h
  have hi' : i < (lines text).length := hall.length_eq ▸ hi
  obtain ⟨after, hafter, -⟩ := exists_append_trimEndOf p (lines text)[i]
  have htrim : trimEndOf p (splitLines text)[i] = trimEndOf p (lines text)[i] := by
    rcases hall.get hi hi' with hcut | hcut <;> simp only [List.get_eq_getElem] at hcut
    · rw [hcut]
    · rw [hcut, trimEndOf_append_singleton hp]
  refine ⟨after, ?_⟩
  rw [htrim, hafter]
  exact List.getElem?_eq_getElem hi'

end Text

/-! ### Places -/

/-- A text stands at a place: on its line, behind as many bytes as its column says. -/
def StandsAt (source : List Char) (place : Position) (text : List Char) : Prop :=
  ∃ before after, line? source place.line = some (before ++ text ++ after) ∧
    place.column = byteLength before + 1

/-- A place lies in a text: on an existing line, at most right behind its end. -/
def LiesIn (source : List Char) (place : Position) : Prop :=
  ∃ line, line? source place.line = some line ∧
    1 ≤ place.column ∧ place.column ≤ byteLength line + 1

section Places

variable {source : List Char}

theorem StandsAt.left {place : Position} {a b : List Char} (h : StandsAt source place (a ++ b)) :
    StandsAt source place a := by
  obtain ⟨before, after, hline, hcolumn⟩ := h
  exact ⟨before, b ++ after, by simpa using hline, hcolumn⟩

theorem StandsAt.right {line column : Nat} {a b : List Char}
    (h : StandsAt source ⟨line, column⟩ (a ++ b)) :
    StandsAt source ⟨line, column + byteLength a⟩ b := by
  obtain ⟨before, after, hline, hcolumn⟩ := h
  refine ⟨before ++ a, after, by simpa using hline, ?_⟩
  simp only [byteLength_append] at hcolumn ⊢
  omega

theorem StandsAt.of_isPrefix {place : Position} {a b : List Char} (h : StandsAt source place b)
    (hab : a <+: b) : StandsAt source place a := by
  obtain ⟨rest, rfl⟩ := hab
  exact h.left

theorem StandsAt.liesIn {place : Position} {text : List Char} (h : StandsAt source place text) :
    LiesIn source place := by
  obtain ⟨before, after, hline, hcolumn⟩ := h
  refine ⟨_, hline, by omega, ?_⟩
  simp only [byteLength_append]
  omega

/-- The first line of a text that has a line at all. -/
theorem liesIn_start (h : source ≠ []) : LiesIn source .start := by
  have hline : ∃ line, line? source 1 = some line := by
    fun_cases lines source with
    | case1 => exact absurd rfl h
    | case2 rest => exact ⟨[], by simp [line?, lines]⟩
    | case3 rest => exact ⟨[], by simp [line?, lines]⟩
    | case4 c rest hnewline hreturn hnone => exact ⟨[c], by simp [line?, lines, hnone]⟩
    | case5 c rest hnewline hreturn line more hlines =>
      exact ⟨c :: line, by simp [line?, lines, hlines]⟩
  obtain ⟨line, hline⟩ := hline
  exact ⟨line, hline, Nat.le_refl _, by simp [Position.start]⟩

end Places

end PlaybookStyle
