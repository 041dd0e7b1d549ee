/-
No text makes the reading fail.

Beside the scanner, three readers work with offsets: the line view counts the
blank lines above a line, the rule for indentation cuts a line behind its blanks,
and the rule for expressions cuts a text at its delimiters. Here they are as they
go along, with `none` wherever a cut, an index or a difference would fail, and
each is proved to give what the definition on characters gives. The last theorem
puts them beside the scanner.
-/

import PlaybookStyle.Proofs.Outline.Scanner
import PlaybookStyle.Proofs.Rule.Places

namespace PlaybookStyle

open Text Playbook
open Outline (isAbsent)

/-! ### Lines -/

namespace SourceLines

/-- The line view of a text, from its lines as an editor shows them. -/
def linesOf (text : List Char) : SourceLines :=
  ⟨(Text.lines text).map (trimEndOf (· == '\r'))⟩

/-- The line with a number. -/
def lineAt (source : SourceLines) (number : Nat) : Option (Option (List Char)) :=
  if number = 0 then some none
  else (minus? number 1).map fun i => source.lines[i]?

/-- A count of blank lines from a line upwards. -/
def countFrom (source : SourceLines) (count number : Nat) : Option Nat := do
  match ← source.lineAt number with
  | none => some count
  | some text =>
    if (trim text).isEmpty then
      let above ← minus? number 1
      source |>.countFrom (count + 1) above
    else if (trim text).head? = some '#' then
      let above ← minus? number 1
      source |>.countFrom count above
    else some count
partial_fixpoint

theorem linesOf_eq (text : List Char) : linesOf text = ofText text := by
  have hmap : ∀ {cuts lines : List (List Char)},
      List.Forall₂ (fun cut line => cut = line ∨ cut = line ++ ['\r']) cuts lines →
        lines.map (trimEndOf (· == '\r')) = cuts.map (trimEndOf (· == '\r')) := by
    intro cuts lines h
    induction h with
    | nil => rfl
    | cons hcut _ ih =>
      rw [List.map_cons, List.map_cons, ih]
      rcases hcut with rfl | rfl
      · rfl
      · rw [trimEndOf_append_singleton rfl]
  exact congrArg SourceLines.mk (hmap (forall₂_splitLines_lines text))

theorem lineAt_eq (source : SourceLines) (number : Nat) :
    source.lineAt number = some (source.line? number) := by
  cases number with
  | zero => rfl
  | succ n => rw [lineAt, if_neg (Nat.succ_ne_zero n), minus?_add, line?]; rfl

theorem countFrom_eq (source : SourceLines) (count number : Nat) :
    source.countFrom count number =
      some (count +
        if number ≤ source.size then blankLinesAbove (source.lines.take number).reverse else 0) := by
  induction number generalizing count with
  | zero =>
    rw [countFrom, lineAt_eq]
    rfl
  | succ n ih =>
    rw [countFrom, lineAt_eq, line?]
    by_cases hsize : n < source.lines.length
    · have hline : source.lines[n]? = some source.lines[n] := List.getElem?_eq_getElem hsize
      have habove : (source.lines.take (n + 1)).reverse =
          source.lines[n] :: (source.lines.take n).reverse := by
        rw [List.take_succ_eq_append_getElem hsize, List.reverse_append]
        rfl
      rw [if_pos (show n + 1 ≤ source.size from hsize), habove, hline, blankLinesAbove]
      simp only [Option.bind_eq_bind, Option.bind_some, minus?_add, ih,
        if_pos (show n ≤ source.size from Nat.le_of_lt hsize)]
      cases htrim : trim source.lines[n] with
      | nil =>
        simp only [List.isEmpty_nil, if_true]
        congr 1
        omega
      | cons c rest =>
        by_cases hc : c = '#'
        · subst hc
          rfl
        · simp [hc]
    · have hnone : source.lines[n]? = none := List.getElem?_eq_none (Nat.le_of_not_lt hsize)
      rw [if_neg (show ¬n + 1 ≤ source.size from hsize), hnone]
      rfl

end SourceLines

/-! ### Indentation -/

namespace Rule

/-- What is wrong with the indentation of a line. -/
def indentRemarkAt (number : Nat) (line : List Char) : Option (Option Remark) := do
  let content := line.dropWhile isIndent
  if isAbsent content then some none
  else
    let width ← minus? (byteLength line) (byteLength content)
    let leading ← upTo? width line
    match offsetOf? (· == '\t') leading with
    | some offset =>
      some (some ⟨⟨number, offset + 1⟩, "Tab character used for indentation",
        some "Indent with spaces"⟩)
    | none =>
      if byteLength leading % 2 ≠ 0 then
        some (some ⟨⟨number, 1⟩,
          s!"Indentation of {byteLength leading} spaces is not a multiple of two",
          some "Indent nested blocks by two spaces"⟩)
      else some none

/-- The offset of the first tab among blanks of one byte each. -/
theorem offsetOf?_tab {leading : List Char} (h : leading.all isIndent) :
    offsetOf? (· == '\t') leading =
      if leading.contains '\t' then some (leading.idxOf '\t') else none := by
  have hbytes : byteLength (leading.takeWhile (!· == '\t')) =
      (leading.takeWhile (!· == '\t')).length := by
    refine byteLength_eq_length_of_indent (List.all_eq_true.mpr fun c hc => ?_)
    exact List.all_eq_true.mp h c ((List.takeWhile_prefix _).subset hc)
  have hany : leading.any (· == '\t') = leading.contains '\t' := by
    rw [List.contains_eq_any_beq]
    congr 1
    funext c
    exact Bool.beq_comm
  have hindex : leading.idxOf '\t' = (leading.takeWhile (!· == '\t')).length := by
    rw [List.takeWhile_eq_take_findIdx_not, List.length_take, List.idxOf]
    simp only [Bool.not_not]
    exact (Nat.min_eq_left List.findIdx_le_length).symm
  rw [offsetOf?, hany, hbytes, hindex]

theorem indentRemarkAt_eq (number : Nat) (line : List Char) :
    indentRemarkAt number line = some (indentRemark? number line) := by
  have hline := List.takeWhile_append_dropWhile (p := isIndent) (l := line)
  have hwidth := minus?_byteLength_append (line.takeWhile isIndent) (line.dropWhile isIndent)
  have hleading := upTo?_append (line.takeWhile isIndent) (line.dropWhile isIndent)
  rw [hline] at hwidth hleading
  have hall : (line.takeWhile isIndent).all isIndent := List.all_takeWhile
  rw [indentRemarkAt, indentRemark?_eq]
  simp only [hwidth, hleading, Option.bind_eq_bind, Option.bind_some, offsetOf?_tab hall]
  rw [byteLength_eq_length_of_indent hall]
  split
  · rfl
  · cases (line.takeWhile isIndent).contains '\t' with
    | true => rfl
    | false =>
      simp only [Bool.false_eq_true, if_false]
      split <;> rfl

/-- The remarks on numbered lines, one line after the other. -/
def indentRemarksFrom (isVerbatim : Nat → Bool) :
    List (Nat × List Char) → Option (List Remark)
  | [] => some []
  | (number, line) :: rest => do
    let more ← indentRemarksFrom isVerbatim rest
    if isVerbatim number then some more
    else
      let found ← indentRemarkAt number line
      some (found.toList ++ more)

/-- The remarks of the rule on a document. -/
def indentationAt (p : Playbook) : Option (List Remark) :=
  if p.encrypted then some [] else indentRemarksFrom p.isVerbatim p.source.numbered

theorem indentRemarksFrom_eq (isVerbatim : Nat → Bool) (lines : List (Nat × List Char)) :
    indentRemarksFrom isVerbatim lines =
      some (lines.filterMap fun (number, line) =>
        if isVerbatim number then none else indentRemark? number line) := by
  induction lines with
  | nil => rfl
  | cons line rest ih =>
    rw [indentRemarksFrom, ih, List.filterMap_cons]
    simp only [Option.bind_eq_bind, Option.bind_some, indentRemarkAt_eq]
    cases isVerbatim line.1 with
    | true => rfl
    | false => cases indentRemark? line.1 line.2 <;> rfl

theorem indentationAt_eq (p : Playbook) (conventions : Conventions) :
    indentationAt p = some (indentation.remarks conventions (.alone (.document p))) := by
  rw [indentationAt, indentRemarksFrom_eq]
  simp only [indentation, Visit.alone]
  split <;> rfl

/-! ### Expressions -/

/-- The blanks at both ends of an expression are as they should be. -/
def isPaddedAt (inner : List Char) : Option Bool := do
  let body := expressionBody inner
  if (trim body).isEmpty then some true
  else
    let width ← minus? (byteLength body) (byteLength (trimStart body))
    let leading ← upTo? width body
    let trailing ← from? (byteLength (trimEnd body)) body
    some (isPadding leading && isPadding trailing)

/-- The expressions of a text whose blanks are wrong, each with its inner text. -/
def badExpressionsFrom (text : List Char) : Option (List (List Char × List Char)) := do
  match offsetOfPart? openDelimiter text with
  | none => some []
  | some opening =>
    let ⟨opened, _⟩ ← (from? (opening + 2) text).attach
    match offsetOfPart? closeDelimiter opened with
    | none => some []
    | some closing =>
      let expression ← between? opening (opening + 2 + closing + 2) text
      let inner ← upTo? closing opened
      let ⟨behind, _⟩ ← (from? (closing + 2) opened).attach
      let padded ← isPaddedAt inner
      let more ← badExpressionsFrom behind
      some (if padded then more else (expression, trim (expressionBody inner)) :: more)
termination_by text.length
decreasing_by
  rename from? (opening + 2) text = some opened => hopened
  rename from? (closing + 2) opened = some behind => hbehind
  have hless := length_lt_of_from? (Nat.succ_pos _) hopened
  exact Nat.lt_trans (length_lt_of_from? (Nat.succ_pos _) hbehind) hless

/-- What trimming cuts from the end are the blanks that stand there. -/
theorem trimEnd_reverse_append (text : List Char) :
    trimEnd text.reverse ++ (text.takeWhile isBlank).reverse = text.reverse := by
  induction text with
  | nil => rfl
  | cons c rest ih =>
    rw [List.reverse_cons]
    cases hc : isBlank c with
    | true =>
      rw [List.takeWhile_cons_of_pos hc, List.reverse_cons, ← List.append_assoc, trimEnd,
        trimEndOf_append_singleton hc, ← trimEnd, ih]
    | false =>
      rw [List.takeWhile_cons_of_neg (by simp [hc]), List.reverse_nil, List.append_nil, trimEnd,
        trimEndOf_append_of_not hc]

theorem isPaddedAt_eq (inner : List Char) : isPaddedAt inner = some (isPadded inner) := by
  have hstart := takeWhile_append_trimStart (expressionBody inner)
  have hend := trimEnd_reverse_append (expressionBody inner).reverse
  have hwidth := minus?_byteLength_append ((expressionBody inner).takeWhile isBlank)
    (trimStart (expressionBody inner))
  have hleading := upTo?_append ((expressionBody inner).takeWhile isBlank)
    (trimStart (expressionBody inner))
  have htrailing := from?_append (trimEnd (expressionBody inner))
    ((expressionBody inner).reverse.takeWhile isBlank).reverse
  rw [hstart] at hwidth hleading
  rw [List.reverse_reverse] at hend
  rw [hend] at htrailing
  rw [isPaddedAt, isPadded]
  simp only [hwidth, hleading, htrailing, Option.bind_eq_bind, Option.bind_some]
  cases trim (expressionBody inner) <;> simp

theorem badExpressionsFrom_eq (text : List Char) :
    badExpressionsFrom text =
      some (((expressions text).filter (!isPadded ·)).map fun inner =>
        (delimited inner, trim (expressionBody inner))) := by
  have hdelimiter : byteLength openDelimiter = 2 ∧ byteLength closeDelimiter = 2 := by decide
  obtain ⟨hopening, hclosing⟩ := hdelimiter
  fun_induction expressions text with
  | case1 text hopen =>
    rw [badExpressionsFrom, offsetOfPart?, hopen]
    rfl
  | case2 text before opened hopen hclose =>
    have hopened : from? (byteLength before + 2) text = some opened := by
      rw [splitAround_eq_append hopen, ← hopening, ← byteLength_append, from?_append]
    rw [badExpressionsFrom, offsetOfPart?, hopen]
    simp only [Option.map_some, attach_bind_of_eq hopened, Option.bind_eq_bind, offsetOfPart?, hclose,
      Option.map_none]
    rfl
  | case3 text before opened hopen inner rest hclose ih =>
    have htext := splitAround_eq_append hopen
    have hrest := splitAround_eq_append hclose
    have hopened : from? (byteLength before + 2) text = some opened := by
      rw [htext, ← hopening, ← byteLength_append, from?_append]
    have hinner : upTo? (byteLength inner) opened = some inner := by
      rw [hrest, List.append_assoc, upTo?_append]
    have hbehind : from? (byteLength inner + 2) opened = some rest := by
      rw [hrest, ← hclosing, ← byteLength_append, from?_append]
    have hexpression : between? (byteLength before) (byteLength before + 2 + byteLength inner + 2) text =
        some (delimited inner) := by
      have h := between?_append before (delimited inner) rest
      simp only [delimited, byteLength_append, hopening, hclosing, ← Nat.add_assoc] at h
      rw [htext, hrest]
      simpa only [delimited, List.append_assoc] using h
    rw [badExpressionsFrom, offsetOfPart?, hopen]
    simp only [Option.map_some, attach_bind_of_eq hopened, Option.bind_eq_bind, Option.bind_some,
      offsetOfPart?, hclose, hexpression, hinner, attach_bind_of_eq hbehind, isPaddedAt_eq, ih]
    cases hpadded : isPadded inner <;> simp [hpadded]

end Rule

/-! ### The reading as a whole -/

/-- **No text makes the reading fail.** The scanner gives the outline of every text,
and from whatever state it reads a node, it reads one, behind the line it began with
if there was one. The blank lines above every line, the remarks on the indentation
of every document and the expressions of every text are found as well: no cut falls
outside a text or inside a character, no index is out of bounds, no difference is
below zero. -/
theorem reading_safe (source : List Char) :
    Outline.Scanner.scan source = some (Outline.scan source) ∧
    (∀ s : Outline.Scanner, ∃ n after, s.node = some (n, after) ∧
      (s.peek = none ∨ s.index < after.index)) ∧
    (∀ number, (SourceLines.linesOf source).lineAt number =
      some ((SourceLines.ofText source).line? number)) ∧
    (∀ line, (SourceLines.linesOf source).countFrom 0 (line - 1) =
      some ((SourceLines.ofText source).blankLinesBefore line)) ∧
    (∀ p conventions, Rule.indentationAt p =
      some (Rule.indentation.remarks conventions (.alone (.document p)))) ∧
    (∀ text, Rule.badExpressionsFrom text =
      some (((Rule.expressions text).filter (!Rule.isPadded ·)).map fun inner =>
        (Rule.delimited inner, trim (Rule.expressionBody inner)))) := by
  refine ⟨Outline.Scanner.scan_eq source, Outline.Scanner.node_advances, fun number => ?_,
    fun line => ?_, Rule.indentationAt_eq, Rule.badExpressionsFrom_eq⟩
  · rw [SourceLines.linesOf_eq, SourceLines.lineAt_eq]
  · rw [SourceLines.linesOf_eq, SourceLines.countFrom_eq, Nat.zero_add]
    rfl

end PlaybookStyle
