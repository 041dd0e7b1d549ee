/-
The lines between two lines.

A scalar on several lines takes the logical lines behind its first up to its last. Of
the lines that stand there in the source these are the ones that are not blank and that
the scanner has not passed over (`IsPassedOver`).
-/

import PlaybookStyle.Proofs.Outline.Following
import PlaybookStyle.Proofs.Outline.Moving
import PlaybookStyle.Proofs.Text.Bytes
import PlaybookStyle.Proofs.Text.Trimming

namespace PlaybookStyle.Outline

open Text

/-! ### The lines between two lines -/

/-- The text of a line behind its spaces, without the blanks at its end. -/
def textOf (cut : List Char) : List Char := (trimEnd cut).dropWhile (· == ' ')

/-- A line with text that the scanner passes over: one that begins with a hash sign, or
a document marker at the margin. -/
def IsPassedOver (cut : List Char) : Prop :=
  (trim cut).head? = some '#' ∨ indentOf cut = 0 ∧ isDocumentMarker (trim cut) = true

instance (cut : List Char) : Decidable (IsPassedOver cut) := inferInstanceAs (Decidable (_ ∨ _))

/-- The lines behind a line, up to another. -/
def cutsBetween (source : List Char) (first last : Nat) : List (List Char) :=
  ((splitLines source).drop first).take (last - first)

/-- The logical lines behind a line, up to another. -/
def linesBetween (source : List Char) (first last : Nat) : List LogicalLine :=
  LogicalLine.ofLines (first + 1) (cutsBetween source first last)

/-- The lines that are not blank. -/
def present (cuts : List (List Char)) : List (List Char) := cuts.filter fun cut => trim cut ≠ []

section Between

variable {source cut : List Char} {cuts : List (List Char)} {first last number : Nat}

theorem trim_ne_nil_of_isPassedOver (h : IsPassedOver cut) : trim cut ≠ [] := by
  intro hnil
  rcases h with h | ⟨-, h⟩
  · rw [hnil] at h
    cases h
  · rw [hnil] at h
    cases h

/-- A line that is not blank is a logical line unless the scanner passes over it. -/
theorem LogicalLine.ofLine?_eq_ite (number : Nat) (cut : List Char) :
    LogicalLine.ofLine? number cut =
      if trim cut ≠ [] ∧ ¬IsPassedOver cut then some ⟨number, indentOf cut, textOf cut⟩ else none := by
  have habsent : isAbsent (trim cut) = true ↔ trim cut = [] ∨ (trim cut).head? = some '#' := by
    cases trim cut <;> simp [isAbsent]
  have hmarker : (decide (((trimEnd cut).takeWhile (· == ' ')).length = 0) &&
      isDocumentMarker (trim cut)) = true ↔ indentOf cut = 0 ∧ isDocumentMarker (trim cut) = true := by
    rw [Bool.and_eq_true, decide_eq_true_eq]
    rfl
  rw [LogicalLine.ofLine?_eq, ← trim_eq_trimStart_trimEnd]
  by_cases hpresent : trim cut ≠ [] ∧ ¬IsPassedOver cut
  · obtain ⟨hcomment, hline⟩ := not_or.mp hpresent.2
    rw [if_pos hpresent, if_neg (fun h => (habsent.mp h).elim hpresent.1 hcomment),
      if_neg (fun h => hline (hmarker.mp h))]
    rfl
  · rw [if_neg hpresent]
    by_cases hnone : isAbsent (trim cut) = true
    · rw [if_pos hnone]
    · obtain ⟨hblank, hcomment⟩ := not_or.mp (fun h => hnone (habsent.mpr h))
      have hpassed : IsPassedOver cut := not_not.mp fun h => hpresent ⟨hblank, h⟩
      rw [if_neg hnone, if_pos (hmarker.mpr (hpassed.resolve_left hcomment))]

/-- The logical lines among some lines are those not passed over. -/
theorem LogicalLine.map_ofLines (number : Nat) (cuts : List (List Char)) :
    (LogicalLine.ofLines number cuts).map (fun line => (line.indent, line.text)) =
      ((present cuts).filter fun cut => ¬IsPassedOver cut).map fun cut => (indentOf cut, textOf cut) := by
  induction cuts generalizing number with
  | nil => rfl
  | cons cut rest ih =>
    rw [LogicalLine.ofLines, List.map_append, ih, LogicalLine.ofLine?_eq_ite]
    by_cases hblank : trim cut = []
    · simp [present, hblank]
    · by_cases hpassed : IsPassedOver cut
      · simp [present, hblank, hpassed]
      · simp [present, hblank, hpassed]

/-- Lines of which none is passed over are all there. -/
theorem LogicalLine.map_ofLines_of_kept (number : Nat) (h : ∀ cut ∈ cuts, ¬IsPassedOver cut) :
    (LogicalLine.ofLines number cuts).map (fun line => (line.indent, line.text)) =
      (present cuts).map fun cut => (indentOf cut, textOf cut) := by
  rw [LogicalLine.map_ofLines, List.filter_eq_self.mpr]
  intro cut hcut
  rw [decide_eq_true_eq]
  exact h cut (List.mem_of_mem_filter hcut)

theorem LogicalLine.forall_indent_iff_of_kept (number : Nat) (h : ∀ cut ∈ cuts, ¬IsPassedOver cut)
    {P : Nat → Prop} : (∀ line ∈ LogicalLine.ofLines number cuts, P line.indent) ↔
      ∀ cut ∈ present cuts, P (indentOf cut) := by
  have hindents := congrArg (List.map Prod.fst) (LogicalLine.map_ofLines_of_kept number h)
  rw [List.map_map, List.map_map] at hindents
  have hsame : (LogicalLine.ofLines number cuts).map LogicalLine.indent =
      (present cuts).map indentOf := hindents
  rw [← List.forall_mem_map, hsame, List.forall_mem_map]

/-- If a line is passed over, the logical lines are fewer. -/
theorem LogicalLine.kept_of_length_le (number : Nat)
    (h : (present cuts).length ≤ (LogicalLine.ofLines number cuts).length) :
    ∀ cut ∈ cuts, ¬IsPassedOver cut := by
  intro cut hcut hpassed
  have hlength := congrArg List.length (LogicalLine.map_ofLines number cuts)
  rw [List.length_map, List.length_map] at hlength
  rw [hlength] at h
  have hall := List.filter_eq_self.mp (List.filter_sublist.eq_of_length_le h) cut
    (List.mem_filter.mpr ⟨hcut, decide_eq_true (trim_ne_nil_of_isPassedOver hpassed)⟩)
  exact of_decide_eq_true hall hpassed

theorem LogicalLine.map_text_sublist (number : Nat) (cuts : List (List Char)) :
    ((LogicalLine.ofLines number cuts).map LogicalLine.text).Sublist ((present cuts).map textOf) := by
  have htexts := congrArg (List.map Prod.snd) (LogicalLine.map_ofLines number cuts)
  rw [List.map_map, List.map_map] at htexts
  rw [show (LogicalLine.ofLines number cuts).map LogicalLine.text = _ from htexts]
  exact List.filter_sublist.map _

/-- The lines behind a line are those up to another and those behind it. -/
theorem linesAfter_eq_append (h : first ≤ last) :
    linesAfter source first = linesBetween source first last ++ linesAfter source last := by
  have hdrop : (splitLines source).drop last = ((splitLines source).drop first).drop (last - first) := by
    rw [List.drop_drop, Nat.add_sub_cancel' h]
  rw [linesAfter, linesAfter, linesBetween, cutsBetween, hdrop]
  conv_lhs => rw [← List.take_append_drop (last - first) ((splitLines source).drop first)]
  rw [LogicalLine.ofLines_append]
  by_cases hlength : last - first ≤ ((splitLines source).drop first).length
  · rw [List.length_take_of_le hlength, show first + 1 + (last - first) = last + 1 by omega]
  · have hnil : ((splitLines source).drop first).drop (last - first) = [] :=
      List.drop_of_length_le (Nat.le_of_not_le hlength)
    rw [hnil]
    rfl

theorem cutsBetween_succ (h : first ≤ last) (hcut : (splitLines source)[last]? = some cut) :
    cutsBetween source first (last + 1) = cutsBetween source first last ++ [cut] := by
  have hindex : ((splitLines source).drop first)[last - first]? = some cut := by
    rw [List.getElem?_drop, Nat.add_sub_cancel' h]
    exact hcut
  rw [cutsBetween, Nat.succ_sub h, List.take_add_one, hindex]
  rfl

theorem linesBetween_succ (h : first ≤ last) (hcut : (splitLines source)[last]? = some cut) :
    linesBetween source first (last + 1) =
      linesBetween source first last ++ (LogicalLine.ofLine? (last + 1) cut).toList := by
  have hlength : first + 1 + (cutsBetween source first last).length = last + 1 := by
    obtain ⟨hlast, -⟩ := List.getElem?_eq_some_iff.mp hcut
    rw [cutsBetween, List.length_take_of_le (by rw [List.length_drop]; omega)]
    omega
  rw [linesBetween, cutsBetween_succ h hcut, LogicalLine.ofLines_append, hlength]
  simp only [LogicalLine.ofLines, List.append_nil]
  rfl

theorem lt_number_of_mem_linesAfter {line : LogicalLine} (h : line ∈ linesAfter source first) :
    first < line.number := by
  generalize hlines : linesAfter source first = lines at h
  induction lines generalizing first with
  | nil => cases h
  | cons head lines ih =>
    obtain ⟨hlt, hrest, -⟩ := linesAfter_cons hlines
    rcases List.mem_cons.mp h with rfl | h
    · exact hlt
    · exact Nat.lt_trans hlt (ih hrest h)

theorem mem_linesAfter_of_getLast? {taken after : List LogicalLine} {line : LogicalLine}
    (h : taken ++ after = linesAfter source first) (hlast : taken.getLast? = some line) :
    line ∈ linesAfter source first :=
  h ▸ List.mem_append_left _ (List.mem_of_getLast? hlast)

/-- Lines taken up to a line are the lines between, and those left are behind it. -/
theorem taken_eq_linesBetween {taken after : List LogicalLine}
    (h : taken ++ after = linesAfter source first)
    (hlast : (taken.getLast?.map LogicalLine.number).getD first = last) :
    taken = linesBetween source first last ∧ after = linesAfter source last := by
  have hafter := linesAfter_append h.symm
  rw [hlast] at hafter
  have hle : first ≤ last := by
    cases hfound : taken.getLast? with
    | none =>
      rw [hfound] at hlast
      exact Nat.le_of_eq hlast
    | some line =>
      rw [hfound] at hlast
      exact hlast ▸ Nat.le_of_lt (lt_number_of_mem_linesAfter (mem_linesAfter_of_getLast? h hfound))
  rw [linesAfter_eq_append hle, ← hafter] at h
  exact ⟨List.append_cancel_right h, hafter.symm⟩

/-- The last line taken is a line with structure. -/
theorem carriesAt_of_last {taken after : List LogicalLine}
    (h : taken ++ after = linesAfter source first) (hlt : first < last)
    (hlast : (taken.getLast?.map LogicalLine.number).getD first = last) :
    taken ≠ [] ∧ CarriesAt source last := by
  cases hfound : taken.getLast? with
  | none =>
    rw [hfound] at hlast
    exact absurd hlast (Nat.ne_of_lt hlt)
  | some line =>
    rw [hfound] at hlast
    refine ⟨?_, line, of_mem_linesAfter (mem_linesAfter_of_getLast? h hfound), hlast⟩
    rintro rfl
    cases hfound

theorem LogicalLine.ofLines_cons_of_kept {line : List Char} (number : Nat)
    (h : trim line ≠ [] ∧ ¬IsPassedOver line) (rest : List (List Char)) :
    LogicalLine.ofLines number (line :: rest) =
      ⟨number, indentOf line, textOf line⟩ :: LogicalLine.ofLines (number + 1) rest := by
  rw [LogicalLine.ofLines, LogicalLine.ofLine?_eq_ite, if_pos h]
  rfl

theorem LogicalLine.ofLines_cons_of_not_kept {line : List Char} (number : Nat)
    (h : ¬(trim line ≠ [] ∧ ¬IsPassedOver line)) (rest : List (List Char)) :
    LogicalLine.ofLines number (line :: rest) = LogicalLine.ofLines (number + 1) rest := by
  rw [LogicalLine.ofLines, LogicalLine.ofLine?_eq_ite, if_neg h]
  rfl

theorem trim_textOf (cut : List Char) : trim (textOf cut) = trim cut := by
  obtain ⟨blanks, hcut, hall⟩ := exists_append_trimEndOf isBlank cut
  have htrim := trim_append_of_all_isBlank hall (trimEnd cut)
  rw [trim, textOf, trimStart_dropWhile_spaces]
  rw [trimEnd, hcut] at htrim
  exact htrim.symm

/-- The lines with structure, trimmed, are among the lines that are not blank. -/
theorem map_trim_sublist (number : Nat) (cuts : List (List Char)) :
    ((LogicalLine.ofLines number cuts).map fun line => trim line.text).Sublist
      ((present cuts).map trim) := by
  have htexts := (LogicalLine.map_text_sublist number cuts).map trim
  rw [List.map_map, List.map_map, show trim ∘ textOf = trim from funext trim_textOf] at htexts
  exact htexts

theorem map_trim_of_kept {cuts : List (List Char)} (h : ∀ cut ∈ cuts, ¬IsPassedOver cut)
    (number : Nat) :
    ((LogicalLine.ofLines number cuts).map fun line => trim line.text) = (present cuts).map trim := by
  have htexts := congrArg (List.map fun pair => trim pair.2)
    (LogicalLine.map_ofLines_of_kept number h)
  rw [List.map_map, List.map_map] at htexts
  refine htexts.trans (List.map_congr_left fun cut _ => trim_textOf cut)

/-- If the last line is a logical line, the lines up to it end with it. -/
theorem linesBetween_of_carries {first : Nat} {cut : List Char} (behind : first < last)
    (closing : (splitLines source)[last - 1]? = some cut) (hpresent : trim cut ≠ [])
    (hkept : ¬IsPassedOver cut) :
    linesBetween source first last =
        linesBetween source first (last - 1) ++ [⟨last, indentOf cut, textOf cut⟩] ∧
      linesAfter source first = linesBetween source first (last - 1) ++
        ⟨last, indentOf cut, textOf cut⟩ :: linesAfter source last := by
  have hsucc : last - 1 + 1 = last := by omega
  have hbetween := linesBetween_succ (Nat.le_sub_one_of_lt behind) closing
  rw [hsucc, LogicalLine.ofLine?_eq_ite, if_pos ⟨hpresent, hkept⟩] at hbetween
  refine ⟨hbetween, ?_⟩
  rw [linesAfter_eq_append (Nat.le_of_lt behind), hbetween]
  simp

theorem not_carriesAt_of_isPassedOver {cut : List Char}
    (closing : (splitLines source)[last - 1]? = some cut) (hpassed : IsPassedOver cut) :
    ¬CarriesAt source last := by
  rintro ⟨line, ⟨cut', hcut', hread⟩, rfl⟩
  obtain rfl := Option.some.inj (closing.symm.trans hcut')
  rw [LogicalLine.ofLine?_eq_ite, if_neg (fun h => h.2 hpassed)] at hread
  cases hread

theorem forall_mem_cutsBetween {first : Nat} {cut : List Char} {P : List Char → Prop}
    (behind : first < last) (closing : (splitLines source)[last - 1]? = some cut) :
    (∀ cut ∈ cutsBetween source first last, P cut) ↔
      (∀ cut ∈ cutsBetween source first (last - 1), P cut) ∧ P cut := by
  have hcuts := cutsBetween_succ (Nat.le_sub_one_of_lt behind) closing
  rw [show last - 1 + 1 = last by omega] at hcuts
  rw [hcuts, List.forall_mem_append, List.forall_mem_singleton]

end Between

/-! ### Texts joined by one character -/

section Joins

variable {c : Char} {texts more : List (List Char)}

theorem intercalate_cons (c : Char) (text : List Char) (texts : List (List Char)) :
    [c].intercalate (text :: texts) = text ++ texts.flatMap (c :: ·) := by
  induction texts generalizing text with
  | nil => simp [List.intercalate]
  | cons next rest ih =>
    rw [List.intercalate_cons_cons, ih, List.flatMap_cons]
    simp

theorem length_intercalate (h : texts ≠ []) :
    ([c].intercalate texts).length + 1 = (texts.flatMap (c :: ·)).length := by
  obtain ⟨text, rest, rfl⟩ := List.exists_cons_of_ne_nil h
  simp only [intercalate_cons, List.flatMap_cons, List.length_append, List.length_cons]
  omega

/-- Leaving texts out makes the whole shorter, by each text and what joins it. -/
theorem length_flatMap_le_of_sublist (h : texts.Sublist more) :
    (texts.flatMap (c :: ·)).length + (more.length - texts.length) ≤
      (more.flatMap (c :: ·)).length := by
  induction h with
  | slnil => exact Nat.le_refl _
  | cons text _ ih =>
    simp only [List.length_cons, List.flatMap_cons, List.length_append]
    omega
  | cons_cons text _ ih =>
    simp only [List.length_cons, List.flatMap_cons, List.length_append]
    omega

/-- Texts of which some are left out do not give the same text. -/
theorem length_le_of_intercalate_eq (h : texts.Sublist more) (some : texts ≠ [])
    (same : [c].intercalate texts = [c].intercalate more) : more.length ≤ texts.length := by
  have hmore : more ≠ [] := by
    rintro rfl
    exact some (List.sublist_nil.mp h)
  have hlength := length_flatMap_le_of_sublist (c := c) h
  rw [← length_intercalate some, ← length_intercalate hmore, same] at hlength
  omega

theorem exists_intercalate_append (others : List (List Char)) (last : List Char) :
    ∃ front, [' '].intercalate (others ++ [last]) = front ++ last := by
  cases others with
  | nil => exact ⟨[], by simp⟩
  | cons first rest =>
    refine ⟨first ++ rest.flatMap (' ' :: ·) ++ [' '], ?_⟩
    rw [List.cons_append, intercalate_cons]
    simp

end Joins

/-! ### The text of a scalar -/

section Texts

variable {source : List Char} {parent : Nat} {s : Scalar}

/-- What stands from a place on is one text. -/
theorem RestAt.unique {place : Position} {a b : List Char} (ha : RestAt source place a)
    (hb : RestAt source place b) : a = b := by
  obtain ⟨cut, before, hcut, hsplit, hcolumn⟩ := ha
  obtain ⟨cut', before', hcut', hsplit', hcolumn'⟩ := hb
  obtain rfl := Option.some.inj (hcut.symm.trans hcut')
  have hlength : byteLength before = byteLength before' := by omega
  have hfound := from?_append before a
  rw [← hsplit, hsplit', hlength, from?_append] at hfound
  exact (Option.some.inj hfound).symm

/-- What is read from the text at the place of a scalar. -/
theorem Scalar.Read.taken (h : s.Read source parent) {text : List Char}
    (opens : RestAt source s.position text) :
    s.raw = String.ofList (scalarText text parent (linesAfter source s.position.line)).1.raw ∧
      s.text = String.ofList (scalarText text parent (linesAfter source s.position.line)).1.text ∧
      s.style = (scalarText text parent (linesAfter source s.position.line)).1.style ∧
      s.endLine = ((scalarText text parent (linesAfter source s.position.line)).2.1.getLast?.map
        LogicalLine.number).getD s.position.line := by
  obtain ⟨found, hrest, -, hread⟩ := h
  obtain rfl := hrest.unique opens
  exact hread

end Texts

end PlaybookStyle.Outline
