/-
Scalars on several lines.

YAML reads a quoted scalar up to the line with the quote that closes it, and a block
scalar as long as the lines are blank or deep enough, whatever else stands on these
lines (`Extent`). The scanner has passed over lines that begin with a hash sign, and
over document markers at the margin, before it knows what they belong to
(`IsPassedOver`). So a scalar on several lines is read to its end and without a gap
exactly if no line of it is such a line and, in a block scalar, every line is deeper
than what holds the scalar.

* `scan_extent_iff` — when nothing of a scalar is lost.
-/

import PlaybookStyle.Proofs.Outline.Between
import PlaybookStyle.Proofs.Outline.Scalars

namespace PlaybookStyle.Outline

open Text

/-! ### Quoted scalars -/

/-- What the text between quotes says. -/
def contentOf (quote : Char) (inner : List Char) : List Char :=
  if quote = '"' then unescape inner else undouble inner

section Quotes

variable {quote : Char} {a : List Char}

/-- A quote that is open at the end of a line is closed by what closes it on the next. -/
theorem splitDouble_join (h : splitDouble a = none) (b : List Char) :
    splitDouble (a ++ ' ' :: b) = (splitDouble b).map fun found => (a ++ ' ' :: found.1, found.2) := by
  fun_induction splitDouble a with
  | case1 => simp [splitDouble]
  | case2 rest => cases h
  | case3 c rest ih =>
    rw [Option.map_eq_none_iff] at h
    simp [splitDouble, ih h, Function.comp_def]
  | case4 c rest hquote hguard ih =>
    rw [Option.map_eq_none_iff] at h
    by_cases hc : c = '\\'
    · subst hc
      cases rest with
      | nil => simp [splitDouble]
      | cons d rest => exact absurd rfl (hguard d rest rfl)
    · rw [List.cons_append, splitDouble, ih h]
      · simp [Function.comp_def]
      · exact hquote
      · intro d more hcut
        exact fun _ => hc hcut

theorem splitSingle_join (h : splitSingle a = none) (b : List Char) :
    splitSingle (a ++ ' ' :: b) = (splitSingle b).map fun found => (a ++ ' ' :: found.1, found.2) := by
  fun_induction splitSingle a with
  | case1 => simp [splitSingle]
  | case2 rest ih =>
    rw [Option.map_eq_none_iff] at h
    simp [splitSingle, ih h, Function.comp_def]
  | case3 rest _ => cases h
  | case4 c rest hpair hquote ih =>
    rw [Option.map_eq_none_iff] at h
    have hc : c ≠ '\'' := by
      rintro rfl
      exact hquote rfl
    rw [List.cons_append, splitSingle, ih h]
    · simp [Function.comp_def]
    · intro more hcut
      exact absurd hcut hc
    · exact hc

theorem unescape_join (a b : List Char) : unescape (a ++ ' ' :: b) = unescape a ++ ' ' :: unescape b := by
  fun_induction unescape a with
  | case1 rest ih => simp [unescape, ih]
  | case2 rest ih => simp [unescape, ih]
  | case3 rest ih => simp [unescape, ih]
  | case4 rest ih => simp [unescape, ih]
  | case5 rest ih => simp [unescape, ih]
  | case6 c rest h1 h2 h3 h4 h5 ih => simp [unescape, ih]
  | case7 c rest h1 h2 h3 h4 h5 h6 ih =>
    by_cases hc : c = '\\'
    · subst hc
      cases rest with
      | nil => simp [unescape]
      | cons d rest => exact absurd rfl (h6 d rest rfl)
    · rw [List.cons_append, unescape, ih]
      · rfl
      all_goals
        intros
        exact absurd ‹c = '\\'› hc
  | case8 => simp [unescape]

theorem undouble_join (a b : List Char) : undouble (a ++ ' ' :: b) = undouble a ++ ' ' :: undouble b := by
  fun_induction undouble a with
  | case1 rest ih => simp [undouble, ih]
  | case2 c rest h ih =>
    rw [List.cons_append, undouble, ih]
    · rfl
    · intro more hc hnext
      cases rest with
      | nil => cases hnext
      | cons d rest =>
        obtain ⟨rfl, -⟩ := List.cons.inj hnext
        exact h rest hc rfl
  | case3 => simp [undouble]

theorem splitQuoted_join (h : splitQuoted quote a = none) (b : List Char) :
    splitQuoted quote (a ++ ' ' :: b) =
      (splitQuoted quote b).map fun found => (a ++ ' ' :: found.1, found.2) := by
  unfold splitQuoted at h ⊢
  split at h
  · rw [if_pos ‹_›, if_pos ‹_›, splitDouble_join h]
  · rw [if_neg ‹_›, if_neg ‹_›, splitSingle_join h]

theorem contentOf_intercalate (quote : Char) (text : List Char) (texts : List (List Char)) :
    contentOf quote ([' '].intercalate (text :: texts)) =
      [' '].intercalate ((text :: texts).map (contentOf quote)) := by
  induction texts generalizing text with
  | nil => simp
  | cons next rest ih =>
    have hjoin : contentOf quote (text ++ ' ' :: [' '].intercalate (next :: rest)) =
        contentOf quote text ++ ' ' :: contentOf quote ([' '].intercalate (next :: rest)) := by
      unfold contentOf
      split
      · exact unescape_join _ _
      · exact undouble_join _ _
    rw [List.intercalate_cons_cons, List.map_cons, List.map_cons, List.intercalate_cons_cons,
      ← List.map_cons, ← ih, List.append_assoc, List.append_assoc]
    exact hjoin

/-- Texts up to one in which the quote is closed. -/
theorem splitQuoted_intercalate {texts : List (List Char)} {text inner after : List Char}
    (open' : splitQuoted quote a = none) (inside : ∀ text ∈ texts, splitQuoted quote text = none)
    (closes : splitQuoted quote text = some (inner, after)) :
    splitQuoted quote ([' '].intercalate (a :: (texts ++ [text]))) =
      some ([' '].intercalate (a :: (texts ++ [inner])), after) := by
  induction texts generalizing a with
  | nil =>
    rw [List.nil_append, List.nil_append, List.intercalate_cons_cons, List.intercalate_cons_cons]
    simp [splitQuoted_join open', closes]
  | cons next rest ih =>
    obtain ⟨hnext, hrest⟩ := List.forall_mem_cons.mp inside
    rw [List.cons_append, List.cons_append, List.intercalate_cons_cons, List.intercalate_cons_cons,
      List.append_assoc, List.append_assoc, List.singleton_append, List.singleton_append,
      splitQuoted_join open', ih hnext hrest]
    rfl

theorem isUnclosed_cons (quote : Char) (rest : List Char) :
    isUnclosed (quote :: rest) = (splitQuoted quote rest).isNone := rfl

/-- Lines are taken up to the one on which the quote is closed. -/
theorem joinWhile_isUnclosed {before : List LogicalLine} (close : LogicalLine)
    (after : List LogicalLine)
    (open' : splitQuoted quote a = none)
    (inside : ∀ line ∈ before, splitQuoted quote (trim line.text) = none)
    (closes : (splitQuoted quote (trim close.text)).isSome = true) :
    joinWhile isUnclosed (quote :: a) (before ++ close :: after) =
      (quote :: [' '].intercalate (a :: (before ++ [close]).map fun line => trim line.text),
        before ++ [close], after) := by
  induction before generalizing a with
  | nil =>
    have hclosed : isUnclosed (quote :: (a ++ ' ' :: trim close.text)) = false := by
      rw [isUnclosed_cons, splitQuoted_join open', Option.isNone_map]
      exact Option.isNone_eq_false_iff.mpr closes
    rw [List.nil_append, joinWhile, if_pos (by rw [isUnclosed_cons, open']; rfl), List.cons_append,
      joinWhile_of_not hclosed]
    simp
  | cons line rest ih =>
    obtain ⟨hline, hrest⟩ := List.forall_mem_cons.mp inside
    have hopen : splitQuoted quote (a ++ ' ' :: trim line.text) = none := by
      rw [splitQuoted_join open', hline]
      rfl
    rw [List.cons_append, joinWhile, if_pos (by rw [isUnclosed_cons, open']; rfl), List.cons_append,
      ih hopen hrest]
    simp [intercalate_cons]

end Quotes

/-! ### Scalars on several lines -/

/-- How deep the lines of a block scalar have to be: as its header says, or as deep as
the first line that is not blank. -/
def blockDepth (holder : Nat) (header : List Char) (cuts : List (List Char)) : Nat :=
  match (header.takeWhile (!isBlank ·)).find? Char.isDigit with
  | some digit => holder + (digit.toNat - '0'.toNat)
  | none => ((present cuts).head?.map indentOf).getD 0

/-- A scalar that YAML reads at a place up to a later line, and what it says: every line
that is not blank with its text. A quoted scalar goes on to the line on which its quote
is closed. A block scalar goes on as long as lines are blank or deep enough; behind it
come lines less deep, the first that is no comment not deeper than what holds it. -/
inductive Extent (source : List Char) (holder : Nat) (place : Position) (last : Nat) :
    List Char → Prop
  | quoted {quote : Char} {rest cut inner after : List Char} (isQuote : quote = '"' ∨ quote = '\'')
      (opens : RestAt source place (quote :: rest)) (behind : place.line < last)
      (unclosed : splitQuoted quote rest = none)
      (inside : ∀ cut ∈ cutsBetween source place.line (last - 1), splitQuoted quote (trim cut) = none)
      (closing : (splitLines source)[last - 1]? = some cut)
      (closes : splitQuoted quote (trim cut) = some (inner, after)) :
      Extent source holder place last ([' '].intercalate
        ((rest :: ((present (cutsBetween source place.line (last - 1))).map trim ++ [inner])).map
          (contentOf quote)))
  | block {mark : Char} {header cut : List Char} (isMark : mark = '|' ∨ mark = '>')
      (opens : RestAt source place (mark :: header)) (behind : place.line < last)
      (depth : holder < blockDepth holder header ((splitLines source).drop place.line))
      (inside : ∀ cut ∈ present (cutsBetween source place.line last),
        blockDepth holder header ((splitLines source).drop place.line) ≤ indentOf cut)
      (closing : (splitLines source)[last - 1]? = some cut) (isPresent : trim cut ≠ [])
      (ends : ∀ cut ∈ (present ((splitLines source).drop last)).head?,
        indentOf cut < blockDepth holder header ((splitLines source).drop place.line))
      (less : ∀ next ∈ (linesAfter source last).head?, next.indent ≤ holder) :
      Extent source holder place last ([if mark = '|' then '\n' else ' '].intercalate
        ((present (cutsBetween source place.line last)).map textOf))

/-- The scalar ends on a line and says what is given, and the lines left are those
behind that line. -/
structure Scalar.Complete (source : List Char) (parent : Nat) (s : Scalar) (last : Nat)
    (content : List Char) : Prop where
  endLine : s.endLine = last
  text : s.text = String.ofList content
  left : ∀ text, RestAt source s.position text →
    (scalarText text parent (linesAfter source s.position.line)).2.2 = linesAfter source last

section Extents

variable {source : List Char} {holder parent last : Nat} {s : Scalar} {content : List Char}

/-- A scalar that ends on a line has taken the lines up to it. -/
theorem Scalar.Read.of_endLine (h : s.Read source parent) {text : List Char}
    (opens : RestAt source s.position text) (behind : s.position.line < last)
    (ends : s.endLine = last) :
    (scalarText text parent (linesAfter source s.position.line)).2 =
        (linesBetween source s.position.line last, linesAfter source last) ∧
      linesBetween source s.position.line last ≠ [] ∧ CarriesAt source last := by
  have htaken := scalarText_append text parent (linesAfter source s.position.line)
  have hlast := (h.taken opens).2.2.2.symm.trans ends
  obtain ⟨hbetween, hafter⟩ := taken_eq_linesBetween htaken hlast
  obtain ⟨hsome, hcarries⟩ := carriesAt_of_last htaken behind hlast
  rw [hbetween] at hsome
  exact ⟨Prod.ext hbetween hafter, hsome, hcarries⟩

theorem quotedScalarText_text {quote : Char} {a inner after : List Char}
    (h : splitQuoted quote a = some (inner, after)) :
    (quotedScalarText (quote :: a)).text = contentOf quote inner := by
  simp only [quotedScalarText, h, contentOf]
  split <;> rfl

theorem quotedScalarText_isQuoted {quote : Char} {rest text : List Char}
    (h : quote :: rest <+: text) : (quotedScalarText text).style.isQuoted = true := by
  obtain ⟨more, rfl⟩ := h
  simp only [quotedScalarText, List.cons_append]
  split <;> rfl

theorem ne_nil_of_splitQuoted {quote : Char} {text inner after : List Char}
    (h : splitQuoted quote text = some (inner, after)) : text ≠ [] := by
  rintro rfl
  rw [splitQuoted] at h
  split at h <;> cases h

/-- What is read of a quoted scalar whose last line is a logical line. -/
theorem Scalar.Read.quoted_of_kept (h : s.Read source parent) {quote : Char}
    {rest cut inner after : List Char} (isQuote : quote = '"' ∨ quote = '\'')
    (opens : RestAt source s.position (quote :: rest)) (behind : s.position.line < last)
    (unclosed : splitQuoted quote rest = none)
    (inside : ∀ cut ∈ cutsBetween source s.position.line (last - 1),
      splitQuoted quote (trim cut) = none)
    (closing : (splitLines source)[last - 1]? = some cut)
    (closes : splitQuoted quote (trim cut) = some (inner, after)) (kept : ¬IsPassedOver cut) :
    s.endLine = last ∧
      s.text = String.ofList ([' '].intercalate
        ((rest :: ((linesBetween source s.position.line (last - 1)).map
          (fun line => trim line.text) ++ [inner])).map (contentOf quote))) ∧
      (scalarText (quote :: rest) parent (linesAfter source s.position.line)).2.2 =
        linesAfter source last := by
  obtain ⟨-, hafter⟩ := linesBetween_of_carries behind closing (ne_nil_of_splitQuoted closes) kept
  have hclose : splitQuoted quote (trim (textOf cut)) = some (inner, after) := by
    rw [trim_textOf]
    exact closes
  have hinside : ∀ line ∈ linesBetween source s.position.line (last - 1),
      splitQuoted quote (trim line.text) = none := by
    intro line hline
    obtain ⟨found, hfound, heq⟩ := List.mem_map.mp
      ((map_trim_sublist _ _).mem (List.mem_map_of_mem hline))
    rw [← heq]
    exact inside found (List.mem_of_mem_filter hfound)
  have hjoin := joinWhile_isUnclosed ⟨last, indentOf cut, textOf cut⟩ (linesAfter source last)
    unclosed hinside (by rw [hclose]; rfl)
  have hfound : scalarText (quote :: rest) parent (linesAfter source s.position.line) = _ :=
    scalarText_quoted _ _ isQuote
  rw [hafter, hjoin, ← hafter] at hfound
  obtain ⟨-, htext, -, hend⟩ := h.taken opens
  rw [hfound] at htext hend
  rw [List.map_append, List.map_singleton,
    quotedScalarText_text (splitQuoted_intercalate unclosed (by simpa using hinside) hclose),
    contentOf_intercalate] at htext
  refine ⟨?_, htext, by rw [hfound]⟩
  rw [hend]
  simp

/-- A quoted scalar is complete if the scanner passes over none of its lines. -/
theorem Scalar.Read.quoted_complete_iff (h : s.Read source parent) {quote : Char}
    {rest cut inner after : List Char} (isQuote : quote = '"' ∨ quote = '\'')
    (opens : RestAt source s.position (quote :: rest)) (behind : s.position.line < last)
    (unclosed : splitQuoted quote rest = none)
    (inside : ∀ cut ∈ cutsBetween source s.position.line (last - 1),
      splitQuoted quote (trim cut) = none)
    (closing : (splitLines source)[last - 1]? = some cut)
    (closes : splitQuoted quote (trim cut) = some (inner, after)) :
    s.Complete source parent last ([' '].intercalate
        ((rest :: ((present (cutsBetween source s.position.line (last - 1))).map trim ++ [inner])).map
          (contentOf quote))) ↔
      ∀ cut ∈ cutsBetween source s.position.line last, ¬IsPassedOver cut := by
  rw [forall_mem_cutsBetween behind closing]
  by_cases hpassed : IsPassedOver cut
  · refine iff_of_false (fun hcomplete => ?_) (fun hall => hall.2 hpassed)
    exact not_carriesAt_of_isPassedOver closing hpassed
      (h.of_endLine opens behind hcomplete.endLine).2.2
  · obtain ⟨hlast, htext, hleft⟩ :=
      h.quoted_of_kept isQuote opens behind unclosed inside closing closes hpassed
    rw [and_iff_left hpassed]
    constructor
    · intro hcomplete
      have hsame := String.ofList_injective (htext.symm.trans hcomplete.text)
      have hsub := map_trim_sublist (s.position.line + 1)
        (cutsBetween source s.position.line (last - 1))
      have hlength := length_le_of_intercalate_eq
        (((hsub.append_right [inner]).cons_cons rest).map (contentOf quote)) (by simp) hsame
      apply LogicalLine.kept_of_length_le (s.position.line + 1)
      simpa using hlength
    · intro hkept
      refine ⟨hlast, ?_, fun text htext' => ?_⟩
      · rw [htext, linesBetween, map_trim_of_kept hkept]
      · obtain rfl := htext'.unique opens
        exact hleft

theorem blockScalarText_text (mark : Char) (header : List Char) (body : List LogicalLine) :
    (blockScalarText (mark :: header) body).text =
      [if mark = '|' then '\n' else ' '].intercalate (body.map LogicalLine.text) := by
  simp only [blockScalarText, List.head?_cons, Option.some.injEq]

theorem forall_mem_spanDeeper (indent : Nat) (lines : List LogicalLine) :
    ∀ line ∈ (spanDeeper indent lines).1, indent < line.indent := by
  induction lines with
  | nil => simp [spanDeeper]
  | cons line rest ih =>
    rw [spanDeeper]
    split
    · exact List.forall_mem_cons.mpr ⟨‹_›, ih⟩
    · simp

/-- A block scalar is complete if the scanner passes over none of its lines and all are
deeper than the parent. -/
theorem Scalar.Read.block_complete_iff (h : s.Read source parent) {mark : Char}
    {header cut : List Char} (isMark : mark = '|' ∨ mark = '>')
    (opens : RestAt source s.position (mark :: header)) (behind : s.position.line < last)
    (closing : (splitLines source)[last - 1]? = some cut) (isPresent : trim cut ≠ [])
    (less : ∀ next ∈ (linesAfter source last).head?, next.indent ≤ parent) :
    s.Complete source parent last ([if mark = '|' then '\n' else ' '].intercalate
        ((present (cutsBetween source s.position.line last)).map textOf)) ↔
      (∀ cut ∈ cutsBetween source s.position.line last, ¬IsPassedOver cut) ∧
        ∀ cut ∈ present (cutsBetween source s.position.line last), parent < indentOf cut := by
  have hfound : scalarText (mark :: header) parent (linesAfter source s.position.line) = _ :=
    scalarText_block _ _ isMark
  obtain ⟨-, htext, -, hend⟩ := h.taken opens
  constructor
  · intro hcomplete
    obtain ⟨htaken, hsome, -⟩ := h.of_endLine opens behind hcomplete.endLine
    rw [hfound] at htaken
    have hbody : (spanDeeper parent (linesAfter source s.position.line)).1 =
        linesBetween source s.position.line last := congrArg Prod.fst htaken
    rw [hfound, blockScalarText_text, hbody] at htext
    have hsame := String.ofList_injective (htext.symm.trans hcomplete.text)
    have hlength := length_le_of_intercalate_eq (LogicalLine.map_text_sublist _ _)
      (fun hnil => hsome (List.map_eq_nil_iff.mp hnil)) hsame
    rw [List.length_map, List.length_map] at hlength
    have hkept := LogicalLine.kept_of_length_le _ hlength
    refine ⟨hkept, (LogicalLine.forall_indent_iff_of_kept (s.position.line + 1) hkept).mp ?_⟩
    have hdeeper := forall_mem_spanDeeper parent (linesAfter source s.position.line)
    rw [hbody] at hdeeper
    exact hdeeper
  · rintro ⟨hkept, hdeep⟩
    have hpassed := ((forall_mem_cutsBetween behind closing).mp hkept).2
    obtain ⟨hbetween, -⟩ := linesBetween_of_carries behind closing isPresent hpassed
    have hmap := LogicalLine.map_ofLines_of_kept (s.position.line + 1) hkept
    have hdeeper : ∀ line ∈ linesBetween source s.position.line last, parent < line.indent :=
      (LogicalLine.forall_indent_iff_of_kept _ hkept).mpr hdeep
    have hspan := spanDeeper_append_of_lt hdeeper less
    rw [← linesAfter_eq_append (Nat.le_of_lt behind)] at hspan
    rw [hspan] at hfound
    rw [hfound] at htext hend
    refine ⟨?_, ?_, fun text htext' => ?_⟩
    · rw [hend]
      dsimp only
      rw [hbetween, List.getLast?_concat]
      rfl
    · have htexts := congrArg (List.map Prod.snd) hmap
      rw [List.map_map, List.map_map] at htexts
      rw [htext, blockScalarText_text]
      exact congrArg (fun texts => String.ofList (List.intercalate _ texts)) htexts
    · obtain rfl := htext'.unique opens
      rw [hfound]

end Extents

/-- **Scalars on several lines.** A scalar of an outline that YAML reads up to a later
line ends on that line, says what stands on its lines and leaves the lines behind it
exactly if the scanner passes over none of its lines and, in a block scalar, every line
that is not blank is deeper than the parent of the scalar. -/
theorem scan_extent_iff (source : List Char) {holder line last : Nat} {s : Scalar}
    {content : List Char} (held : (Outline.scan source).root.Holds holder line s)
    (extent : Extent source holder s.position last content) :
    s.Complete source (s.parent source holder line) last content ↔
      (∀ cut ∈ cutsBetween source s.position.line last, ¬IsPassedOver cut) ∧
        (s.style.isQuoted = false → ∀ cut ∈ present (cutsBetween source s.position.line last),
          s.parent source holder line < indentOf cut) := by
  obtain ⟨hread, hparent⟩ := scan_scalar held
  cases extent with
  | quoted isQuote opens behind unclosed inside closing closes =>
    have hstyle : s.style.isQuoted = true := by
      rw [(hread.taken opens).2.2.1, scalarText_quoted _ _ isQuote]
      exact quotedScalarText_isQuoted (joinWhile_isPrefix _ _ _)
    rw [hread.quoted_complete_iff isQuote opens behind unclosed inside closing closes]
    simp [hstyle]
  | block isMark opens behind depth inside closing isPresent ends less =>
    have hstyle : s.style.isQuoted = false := by
      rw [(hread.taken opens).2.2.1, scalarText_block _ _ isMark]
      dsimp only [blockScalarText]
      split <;> rfl
    rw [hread.block_complete_iff isMark opens behind closing isPresent
      fun next hnext => Nat.le_trans (less next hnext) hparent]
    simp [hstyle]

/-- A name in quotes on two lines is complete. On three it loses the one that begins with
a hash sign. -/
theorem scan_extent_iff_name :
    let source := "- name: \"a\n    b\"\n  hosts: all\n".toList
    let s : Scalar := ⟨"\"a b\"", "a b", .double, ⟨1, 9⟩, 2, none⟩
    let noted := "- name: \"a\n    # b\n    c\"\n  hosts: all\n".toList
    let lossy : Scalar := ⟨"\"a c\"", "a c", .double, ⟨1, 9⟩, 3, none⟩
    ((Outline.scan source).root.Holds 2 1 s ∧ Extent source 2 s.position 2 "a b".toList ∧
      s.Complete source 2 2 "a b".toList) ∧
    (Outline.scan noted).root.Holds 2 1 lossy ∧
      Extent noted 2 lossy.position 3 "a # b c".toList ∧
      ¬lossy.Complete noted 2 3 "a # b c".toList := by
  intro source s noted lossy
  have opens : ∀ text more : List Char, splitLines text = "- name: \"a".toList :: splitLines more →
      RestAt text ⟨1, 9⟩ "\"a".toList := by
    intro text more hlines
    exact ⟨"- name: \"a".toList, "- name: ".toList, by rw [hlines]; rfl, by decide, by decide⟩
  have held : (Outline.scan source).root.Holds 2 1 s := .of_first ⟨1, 3⟩ (by decide +kernel)
  have extent : Extent source 2 s.position 2 "a b".toList :=
    .quoted (.inl rfl) (opens source "    b\"\n  hosts: all\n".toList (by decide)) (by decide)
      (by decide) (by decide) (show (splitLines source)[1]? = some "    b\"".toList by decide)
      (show splitQuoted '"' (trim "    b\"".toList) = some (['b'], []) by decide)
  have heldNoted : (Outline.scan noted).root.Holds 2 1 lossy :=
    .of_first ⟨1, 3⟩ (by decide +kernel)
  have extentNoted : Extent noted 2 lossy.position 3 "a # b c".toList :=
    .quoted (.inl rfl) (opens noted "    # b\n    c\"\n  hosts: all\n".toList (by decide))
      (by decide) (by decide) (by decide)
      (show (splitLines noted)[2]? = some "    c\"".toList by decide)
      (show splitQuoted '"' (trim "    c\"".toList) = some (['c'], []) by decide)
  refine ⟨⟨held, extent, (scan_extent_iff source held extent).mpr ⟨by decide, by decide⟩⟩,
    heldNoted, extentNoted, fun hcomplete => ?_⟩
  have hkept := ((scan_extent_iff noted heldNoted extentNoted).mp hcomplete).1
  exact hkept "    # b".toList (by decide) (by decide)

end PlaybookStyle.Outline
