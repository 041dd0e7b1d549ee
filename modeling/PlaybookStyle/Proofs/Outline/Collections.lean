/-
Collections in brackets.

A collection ends at the first bracket that leaves none open, some lines further down as
the case may be (`FlowLines`). The scanner stops on the same line if it takes the
brackets and quotes for what they are, and passes over no line but comments outside
quoted scalars (`FlowState.counted`).

* `scan_collection` — where a collection ends, and when its token is all of it.
-/

import PlaybookStyle.Proofs.Outline.Brackets
import PlaybookStyle.Proofs.Outline.Document
import PlaybookStyle.Proofs.Outline.Scalars

namespace PlaybookStyle.Outline

open Text

/-! ### The lines of a collection -/

/-- The lines of a collection, each without the blanks at its ends: what they hold
without comments, the last one up to the closing bracket, and the text behind it. -/
inductive FlowLines : FlowState → List (List Char) → List (List Char) → List Char → Prop
  | closes {s : FlowState} {line through behind : List Char}
      (h : s.cut (trim line) = some (through, behind)) : FlowLines s [line] [through] behind
  | goesOn {s : FlowState} {line behind : List Char} {lines pieces : List (List Char)}
      (h : s.cut (trim line) = none) (more : FlowLines (s.after (trim line)) lines pieces behind) :
      FlowLines s (line :: lines) (trimEnd (s.code (trim line)) :: pieces) behind

/-- A collection that YAML reads at a place up to a line. -/
structure CollectionAt (source : List Char) (place : Position) (last : Nat) (text : List Char)
    (pieces : List (List Char)) (behind : List Char) : Prop where
  opens : RestAt source place text
  bracket : ∃ c ∈ text.head?, opensBracket c = true
  ordered : place.line ≤ last
  within : last ≤ (splitLines source).length
  lines : FlowLines .start (text :: cutsBetween source place.line last) pieces behind

section Lines

variable {s : FlowState} {lines pieces : List (List Char)} {behind : List Char}

/-- A line that is no logical line changes nothing to the scanner. -/
theorem FlowState.after_of_not_kept {line : List Char} {rest : List (List Char)}
    (start : s.IsLineStart) (counted : s.counted (line :: rest) = true)
    (h : ¬(trim line ≠ [] ∧ ¬IsPassedOver line)) :
    (s.after (trim line)).depth = s.depth ∧
      (∀ tail, (s.after (trim line)).balance tail = s.balance tail) ∧
      s.code (trim line) = [] ∧ (0 < s.depth → s.cut (trim line) = none) := by
  by_cases hblank : trim line = []
  · rw [hblank, FlowState.after_nil start]
    exact ⟨rfl, fun _ => rfl, rfl, fun _ => rfl⟩
  · have hpassed : IsPassedOver line := not_not.mp fun hkept => h ⟨hblank, hkept⟩
    rw [FlowState.counted, if_pos hpassed] at counted
    simp only [Bool.and_eq_true, beq_iff_eq, Bool.not_eq_true'] at counted
    exact FlowState.after_comment start counted.1.2 counted.1.1

theorem FlowState.countsIn_of_kept {line : List Char} {rest : List (List Char)}
    (counted : s.counted (line :: rest) = true) (h : ¬IsPassedOver line) :
    s.countsIn (trim line) = true := by
  rw [FlowState.counted, if_neg h, Bool.and_eq_true] at counted
  exact counted.1

theorem FlowState.counted_rest {line : List Char} {rest : List (List Char)}
    (counted : s.counted (line :: rest) = true) : (s.after (trim line)).counted rest = true := by
  rw [FlowState.counted, Bool.and_eq_true] at counted
  exact counted.2

/-- The line with the closing bracket is a logical line. -/
theorem FlowState.kept_of_cut {line : List Char} {rest : List (List Char)} (start : s.IsLineStart)
    (pos : 0 < s.depth) (counted : s.counted (line :: rest) = true)
    (h : s.cut (trim line) ≠ none) : trim line ≠ [] ∧ ¬IsPassedOver line :=
  not_not.mp fun hdropped => h ((s.after_of_not_kept start counted hdropped).2.2.2 pos)

/-- At the start of a line in a collection: what the scanner has joined opens the brackets
that are open there, and what it counts from a space on it would count from there. -/
structure FlowState.Matches (s : FlowState) (joined : List Char) : Prop where
  start : s.IsLineStart
  pos : 0 < s.depth
  opened : openBrackets joined = s.depth
  next (tail : List Char) : openBrackets (joined ++ ' ' :: tail) = s.depth + s.balance tail

namespace FlowState.Matches

variable {text joined : List Char}

theorem of_run (pos : 0 < (s.run text).depth)
    (h : ∀ tail, openBrackets (joined ++ tail) = (s.run text).depth + (s.run text).balance tail) :
    (s.after text).Matches joined where
  start := s.isLineStart_after text
  pos := pos
  opened := by
    have hend := h []
    rw [List.append_nil] at hend
    rw [hend]
    exact Int.add_zero _
  next tail := by
    rw [h, s.balance_space]
    rfl

theorem goesOn (h : s.Matches joined) : decide (0 < openBrackets joined) = true :=
  decide_eq_true (h.opened ▸ Int.natCast_pos.mpr h.pos)

/-- A line that closes no bracket for good is joined. -/
theorem line (h : s.Matches joined) (open' : s.cut text = none) (counts : s.countsIn text = true) :
    (s.after text).Matches (joined ++ ' ' :: text) := by
  apply of_run (s.depth_run_pos open' h.pos)
  intro tail
  rw [List.append_assoc, List.cons_append, h.next, s.balance_run open' counts (.inl h.pos)]
  omega

/-- A line that is no logical line is left out. -/
theorem skip {line : List Char} {rest : List (List Char)} (h : s.Matches joined)
    (counted : s.counted (line :: rest) = true) (dropped : ¬(trim line ≠ [] ∧ ¬IsPassedOver line)) :
    (s.after (trim line)).Matches joined := by
  obtain ⟨hdepth, hbalance, -, -⟩ := s.after_of_not_kept h.start counted dropped
  refine ⟨s.isLineStart_after _, hdepth ▸ h.pos, hdepth ▸ h.opened, fun tail => ?_⟩
  rw [hdepth, hbalance, h.next]

/-- The line with the closing bracket leaves none open. -/
theorem closes {through : List Char} (h : s.Matches joined) (closed : s.cut text = some (through, behind))
    (counts : s.countsIn text = true) : openBrackets (joined ++ ' ' :: text) ≤ 0 := by
  have hbalance := s.balance_cut closed counts (.inl h.pos)
  rw [h.next]
  omega

end FlowState.Matches

/-- **The scanner takes the lines of a collection** that it counts as they are read. -/
theorem FlowLines.joinWhile_eq (h : FlowLines s lines pieces behind) {joined : List Char}
    (hmatch : s.Matches joined) (counted : s.counted lines = true) (number : Nat)
    (after : List LogicalLine) :
    joinWhile (fun text => 0 < openBrackets text) joined (LogicalLine.ofLines number lines ++ after) =
      (joined ++ (LogicalLine.ofLines number lines).flatMap fun line => ' ' :: trim line.text,
        LogicalLine.ofLines number lines, after) := by
  induction h generalizing joined number with
  | @closes s line through behind hcut =>
    have hkept := s.kept_of_cut hmatch.start hmatch.pos counted
      (by rw [hcut]; exact Option.some_ne_none _)
    have hclosed : decide (0 < openBrackets (joined ++ ' ' :: trim (textOf line))) = false := by
      rw [trim_textOf]
      exact decide_eq_false (Int.not_lt.mpr
        (hmatch.closes hcut (s.countsIn_of_kept counted hkept.2)))
    rw [LogicalLine.ofLines_cons_of_kept number hkept, LogicalLine.ofLines, List.cons_append,
      List.nil_append, joinWhile, if_pos hmatch.goesOn, joinWhile_of_not hclosed]
    simp
  | @goesOn s line behind lines pieces hcut _ ih =>
    have hrest := s.counted_rest counted
    by_cases hkept : trim line ≠ [] ∧ ¬IsPassedOver line
    · have hnext : (s.after (trim line)).Matches (joined ++ ' ' :: trim (textOf line)) := by
        rw [trim_textOf]
        exact hmatch.line hcut (s.countsIn_of_kept counted hkept.2)
      rw [LogicalLine.ofLines_cons_of_kept number hkept, List.cons_append, joinWhile,
        if_pos hmatch.goesOn, ih hnext hrest (number + 1)]
      simp
    · rw [LogicalLine.ofLines_cons_of_not_kept number hkept]
      exact ih (hmatch.skip counted hkept) hrest (number + 1)

theorem FlowLines.ne_nil (h : FlowLines s lines pieces behind) : lines ≠ [] := by
  cases h with
  | closes => exact List.cons_ne_nil _ _
  | goesOn => exact List.cons_ne_nil _ _

/-- The last line of a collection is a logical line. -/
theorem FlowLines.exists_last (h : FlowLines s lines pieces behind) (start : s.IsLineStart)
    (pos : 0 < s.depth) (counted : s.counted lines = true) :
    ∃ before line, lines = before ++ [line] ∧ trim line ≠ [] ∧ ¬IsPassedOver line := by
  induction h with
  | @closes s line through behind hcut =>
    exact ⟨[], line, rfl,
      s.kept_of_cut start pos counted (by rw [hcut]; exact Option.some_ne_none _)⟩
  | @goesOn s line behind lines pieces hcut _ ih =>
    obtain ⟨before, last, rfl, hlast⟩ := ih (s.isLineStart_after (trim line))
      (s.depth_run_pos hcut pos) (s.counted_rest counted)
    exact ⟨line :: before, last, rfl, hlast⟩

theorem trimEnd_trim (line : List Char) : trimEnd (trim line) = trim line :=
  trimEnd_trimEnd _

/-- Where no comment stands behind a token, the lines joined are what they hold. -/
theorem FlowLines.joined (h : FlowLines s lines pieces behind) (start : s.IsLineStart)
    (pos : 0 < s.depth) (counted : s.counted lines = true) (bare : s.bare lines = true)
    (number : Nat) :
    ((LogicalLine.ofLines number lines).flatMap fun line => ' ' :: trim line.text) =
      (pieces.filter (· ≠ [])).flatMap (' ' :: ·) ++ behind := by
  induction h generalizing number with
  | @closes s line through behind hcut =>
    have hkept := s.kept_of_cut start pos counted (by rw [hcut]; exact Option.some_ne_none _)
    obtain ⟨htext, before, c, rfl, -⟩ := s.cut_eq_some hcut (.inl pos)
    rw [LogicalLine.ofLines_cons_of_kept number hkept, LogicalLine.ofLines]
    simp [trim_textOf, htext]
  | @goesOn s line behind lines pieces hcut more ih =>
    have hstart := s.isLineStart_after (trim line)
    have hrest := s.counted_rest counted
    rw [FlowState.bare, Bool.and_eq_true] at bare
    have hih := ih hstart (s.depth_run_pos hcut pos) hrest bare.2 (number + 1)
    by_cases hkept : trim line ≠ [] ∧ ¬IsPassedOver line
    · have hcode : s.code (trim line) = trim line := by
        simpa [hkept.2, more.ne_nil] using bare.1
      rw [LogicalLine.ofLines_cons_of_kept number hkept, List.flatMap_cons, hih, hcode, trimEnd_trim]
      simp [trim_textOf, hkept.1]
    · obtain ⟨-, -, hcode, -⟩ := s.after_of_not_kept start counted hkept
      rw [LogicalLine.ofLines_cons_of_not_kept number hkept, hih, hcode]
      rfl

end Lines

/-! ### Tokens -/

section Tokens

/-- A text behind which another follows is cut off at a comment as it is alone. -/
theorem beforeComment_append {c : Char} (hc : c ≠ ' ') (before behind : List Char) :
    beforeComment (before ++ c :: behind) =
      if beforeComment (before ++ [c]) = before ++ [c] then before ++ c :: beforeComment behind
      else beforeComment (before ++ [c]) := by
  induction before with
  | nil =>
    have hone : ∀ rest, beforeComment (c :: rest) = c :: beforeComment rest :=
      fun rest => if_neg fun h => hc h.1
    rw [List.nil_append, List.nil_append, hone, hone, beforeComment, if_pos rfl]
    rfl
  | cons d rest ih =>
    have hhead : (rest ++ c :: behind).head? = (rest ++ [c]).head? := by cases rest <;> rfl
    rw [List.cons_append, List.cons_append, beforeComment, beforeComment, hhead]
    split
    · rw [if_neg]
      exact (List.cons_ne_nil _ _).symm
    · rw [ih]
      simp only [List.cons.injEq, true_and]
      split <;> rfl

/-- What is left of a text that a comment may follow. -/
theorem stripComment_append_iff {c : Char} (hc : isBlank c = false) (before behind : List Char)
    (hhead : (before ++ [c]).head? ≠ some '#') :
    stripComment (before ++ [c] ++ behind) = before ++ [c] ↔
      beforeComment (before ++ [c]) = before ++ [c] ∧ (beforeComment behind).all isBlank = true := by
  have hspace : c ≠ ' ' := by
    rintro rfl
    cases hc
  have hfirst : (before ++ c :: behind).head? = (before ++ [c]).head? := by cases before <;> rfl
  rw [List.append_assoc, List.singleton_append, stripComment, if_neg (hfirst ▸ hhead),
    beforeComment_append hspace]
  split
  · rename_i hwhole
    rw [trimEnd_append_cons hc, and_iff_right hwhole, List.append_cancel_left_eq, List.cons.injEq,
      and_iff_right rfl]
    refine ⟨fun hnil => ?_, trimEnd_of_all_isBlank⟩
    obtain ⟨cut, hcut, hall⟩ := exists_append_trimEndOf isBlank (beforeComment behind)
    rw [trimEnd] at hnil
    rw [hnil, List.nil_append] at hcut
    exact hcut ▸ hall
  · rename_i hpart
    refine iff_of_false (fun hsame => hpart ?_) (fun h => hpart h.1)
    have hshort := hsame ▸ (trimEnd_isPrefix (beforeComment (before ++ [c]))).length_le
    exact (beforeComment_isPrefix _).eq_of_length_le hshort

end Tokens

section Collections

variable {source text behind : List Char} {lines pieces : List (List Char)} {c : Char}

theorem isBlank_of_opensBracket (h : opensBracket c = true) : isBlank c = false := by
  rcases (Bool.or_eq_true _ _).mp h with hc | hc <;> rw [beq_iff_eq.mp hc] <;> rfl

theorem isBlank_of_closesBracket (h : closesBracket c = true) : isBlank c = false := by
  rcases (Bool.or_eq_true _ _).mp h with hc | hc <;> rw [beq_iff_eq.mp hc] <;> rfl

/-- The text from a bracket on has no blanks at its ends. -/
theorem RestAt.trim_eq {place : Position} (h : RestAt source place (c :: text))
    (hc : opensBracket c = true) : trim (c :: text) = c :: text := by
  obtain ⟨cut, before, -, hsplit, -⟩ := h
  have hblank := isBlank_of_opensBracket hc
  have hne : trimEndOf isBlank (c :: text) ≠ [] := by
    rw [show trimEndOf isBlank (c :: text) = _ from trimEnd_cons_of_not_isBlank hblank text]
    exact List.cons_ne_nil _ _
  have hend := trimEnd_trimEnd cut
  rw [hsplit, trimEnd, trimEndOf_append_of_ne_nil hne, List.append_cancel_left_eq] at hend
  rw [trim, trimStart, if_neg (by rw [hblank]; exact Bool.false_ne_true)]
  exact hend

/-- The line on which the collection opens is not passed over. -/
theorem not_isPassedOver_of_opensBracket (hc : opensBracket c = true)
    (htrim : trim (c :: text) = c :: text) : ¬IsPassedOver (c :: text) := by
  rw [IsPassedOver, htrim]
  rcases (Bool.or_eq_true _ _).mp hc with hc | hc <;> rw [beq_iff_eq.mp hc] <;>
    simp [isDocumentMarker]

theorem FlowState.isOpen_start (hc : opensBracket c = true) : start.IsOpen (c :: text) :=
  .inr ⟨rfl, c, rfl, hc⟩

/-- A bracket that is not closed on its line is open behind it. -/
theorem FlowState.depth_after_pos {s : FlowState} (h : s.cut text = none) (isOpen : s.IsOpen text) :
    0 < (s.after text).depth := by
  rcases isOpen with pos | ⟨-, d, hhead, hd⟩
  · exact s.depth_run_pos h pos
  · obtain ⟨rest, rfl⟩ := List.head?_eq_some_iff.mp hhead
    rw [cut] at h
    split at h
    · cases h
    · exact (s.step d).depth_run_pos (Option.map_eq_none_iff.mp h) (Nat.pos_of_ne_zero ‹_›)

theorem FlowState.matches_start (hc : opensBracket c = true) (open' : start.cut (c :: text) = none)
    (counts : start.countsIn (c :: text) = true) : (start.after (c :: text)).Matches (c :: text) := by
  apply Matches.of_run (depth_after_pos open' (isOpen_start hc))
  intro tail
  have hbalance := balance_run open' counts (isOpen_start hc) tail
  rw [show (start.depth : Int) = 0 from rfl, Int.sub_zero] at hbalance
  exact hbalance

/-- **The scanner takes the lines of a collection** from the bracket that opens it on. -/
theorem FlowLines.scan (h : FlowLines .start ((c :: text) :: lines) pieces behind)
    (hc : opensBracket c = true) (htrim : trim (c :: text) = c :: text)
    (counted : FlowState.start.counted ((c :: text) :: lines) = true) (number : Nat)
    (after : List LogicalLine) :
    joinWhile (fun text => 0 < openBrackets text) (c :: text)
        (LogicalLine.ofLines number lines ++ after) =
      (c :: text ++ (LogicalLine.ofLines number lines).flatMap fun line => ' ' :: trim line.text,
        LogicalLine.ofLines number lines, after) := by
  have hcounts := FlowState.countsIn_of_kept counted (not_isPassedOver_of_opensBracket hc htrim)
  cases h with
  | closes hcut =>
    rw [htrim] at hcut hcounts
    have hbalance := FlowState.balance_cut hcut hcounts (FlowState.isOpen_start hc)
    have hclosed : decide (0 < openBrackets (c :: text)) = false :=
      decide_eq_false (Int.not_lt.mpr hbalance)
    rw [LogicalLine.ofLines, List.nil_append, joinWhile_of_not hclosed]
    simp
  | goesOn hcut more =>
    have hrest := FlowState.counted_rest counted
    rw [htrim] at hcut hcounts more hrest
    exact more.joinWhile_eq (FlowState.matches_start hc hcut hcounts) hrest number after

/-- What the scanner has joined where no comment stands behind a token. -/
theorem FlowLines.scan_joined (h : FlowLines .start ((c :: text) :: lines) pieces behind)
    (hc : opensBracket c = true) (htrim : trim (c :: text) = c :: text)
    (counted : FlowState.start.counted ((c :: text) :: lines) = true)
    (bare : FlowState.start.bare ((c :: text) :: lines) = true) (number : Nat) :
    (c :: text ++ (LogicalLine.ofLines number lines).flatMap fun line => ' ' :: trim line.text) =
      [' '].intercalate (pieces.filter (· ≠ [])) ++ behind := by
  have hisOpen : FlowState.start.IsOpen (c :: text) := FlowState.isOpen_start hc
  cases h with
  | closes hcut =>
    rw [htrim] at hcut
    obtain ⟨hsplit, before, d, rfl, -⟩ := FlowState.cut_eq_some hcut hisOpen
    rw [hsplit, LogicalLine.ofLines]
    simp
  | goesOn hcut more =>
    have hpassed := not_isPassedOver_of_opensBracket hc htrim
    rw [htrim] at hcut more
    have hrest := FlowState.counted_rest counted
    rw [FlowState.bare, Bool.and_eq_true, htrim] at bare
    rw [htrim] at hrest
    have hcode : FlowState.start.code (c :: text) = c :: text := by
      simpa [hpassed, more.ne_nil] using bare.1
    rw [more.joined (FlowState.isLineStart_after _ _) (FlowState.depth_after_pos hcut hisOpen) hrest
      bare.2 number, htrim, hcode, ← htrim, trimEnd_trim, htrim,
      List.filter_cons_of_pos (by simp), intercalate_cons, List.append_assoc]

/-- The last piece of a collection ends with the bracket that closes it. -/
theorem FlowLines.exists_last_piece {s : FlowState} (h : FlowLines s lines pieces behind)
    (isOpen : ∀ line ∈ lines.head?, s.IsOpen (trim line)) :
    ∃ others before d, pieces = others ++ [before ++ [d]] ∧ closesBracket d = true := by
  induction h with
  | @closes s line through behind hcut =>
    obtain ⟨-, before, d, rfl, hd⟩ := s.cut_eq_some hcut (isOpen line rfl)
    exact ⟨[], before, d, rfl, hd⟩
  | @goesOn s line behind lines pieces hcut more ih =>
    obtain ⟨others, before, d, rfl, hd⟩ := ih fun next _ =>
      .inl (s.depth_after_pos hcut (isOpen line rfl))
    exact ⟨_ :: others, before, d, rfl, hd⟩

/-- The lines of a collection end with its last line. -/
theorem CollectionAt.last_number {place : Position} {last : Nat}
    (h : CollectionAt source place last (c :: text) pieces behind) (hc : opensBracket c = true)
    (counted : FlowState.start.counted ((c :: text) :: cutsBetween source place.line last) = true) :
    ((linesBetween source place.line last).getLast?.map LogicalLine.number).getD place.line =
      last := by
  have htrim := h.opens.trim_eq hc
  rcases Nat.eq_or_lt_of_le h.ordered with heq | hlt
  · rw [linesBetween, cutsBetween, heq, Nat.sub_self]
    rfl
  · have hindex : last - 1 < (splitLines source).length := by
      have hwithin := h.within
      omega
    have closing := List.getElem?_eq_getElem hindex
    have hcuts := cutsBetween_succ (Nat.le_sub_one_of_lt hlt) closing
    rw [show last - 1 + 1 = last by omega] at hcuts
    have hlines := h.lines
    rw [hcuts] at hlines counted
    generalize hbefore : cutsBetween source place.line (last - 1) = before at hlines counted
    generalize hlines' : before ++ [(splitLines source)[last - 1]] = lines at hlines counted
    cases hlines with
    | closes => simp at hlines'
    | goesOn hcut more =>
      rw [htrim] at hcut more
      have hrest := FlowState.counted_rest counted
      rw [htrim] at hrest
      obtain ⟨before', line, hsplit, hpresent, hkept⟩ := more.exists_last
        (FlowState.isLineStart_after _ _)
        (FlowState.depth_after_pos hcut (FlowState.isOpen_start hc)) hrest
      obtain rfl : (splitLines source)[last - 1] = line := by
        have hsame := congrArg List.getLast? (hlines'.trans hsplit)
        simpa using hsame
      obtain ⟨hbetween, -⟩ := linesBetween_of_carries hlt closing hpresent hkept
      rw [hbetween, List.getLast?_concat]
      rfl

end Collections

/-- **Collections in brackets.** Let the scanner take the characters of a collection for
what they are and pass over no line of it but comments outside quoted scalars. Then the
scalar ends on the line of the bracket that closes the collection, and the lines behind
that line are left. If no comment stands behind a token on an earlier line, the token is
the collection up to that bracket exactly if no comment mark with a space before it
stands in there, in a quoted scalar, and behind it stands nothing but such a comment. -/
theorem scan_collection (source : List Char) {holder line last : Nat} {s : Scalar}
    {text behind : List Char} {pieces : List (List Char)}
    (held : (Outline.scan source).root.Holds holder line s)
    (collection : CollectionAt source s.position last text pieces behind)
    (counted : FlowState.start.counted (text :: cutsBetween source s.position.line last) = true) :
    s.endLine = last ∧
      (scalarText text (s.parent source holder line) (linesAfter source s.position.line)).2.2 =
        linesAfter source last ∧
      (FlowState.start.bare (text :: cutsBetween source s.position.line last) = true →
        let token := [' '].intercalate (pieces.filter (· ≠ []))
        (s.raw = String.ofList token ↔
          beforeComment token = token ∧ (beforeComment behind).all isBlank = true)) := by
  obtain ⟨c, hhead, hc⟩ := collection.bracket
  obtain ⟨rest, rfl⟩ := List.head?_eq_some_iff.mp hhead
  have htrim := collection.opens.trim_eq hc
  obtain ⟨hraw, -, -, hend⟩ := (scan_scalar held).1.taken collection.opens
  have hbracket : c = '\x7b' ∨ c = '[' := by simpa [opensBracket, or_comm] using hc
  have hscan := collection.lines.scan hc htrim counted (s.position.line + 1) (linesAfter source last)
  rw [← linesBetween, ← linesAfter_eq_append collection.ordered] at hscan
  have hfound : scalarText (c :: rest) (s.parent source holder line)
      (linesAfter source s.position.line) = _ := scalarText_flow _ _ hbracket
  rw [hscan] at hfound
  rw [hfound] at hraw hend
  refine ⟨hend.trans (collection.last_number hc counted), by rw [hfound], ?_⟩
  intro bare token
  have hjoined := collection.lines.scan_joined hc htrim counted bare (s.position.line + 1)
  obtain ⟨others, before, d, hpieces, hd⟩ := collection.lines.exists_last_piece
    (by rintro _ ⟨⟩; rw [htrim]; exact FlowState.isOpen_start hc)
  obtain ⟨front, hfront⟩ := exists_intercalate_append (others.filter (· ≠ [])) (before ++ [d])
  have htoken : token = front ++ before ++ [d] := by
    have hkept : pieces.filter (· ≠ []) = others.filter (· ≠ []) ++ [before ++ [d]] := by
      rw [hpieces, List.filter_append]
      simp
    rw [List.append_assoc, ← hfront, ← hkept]
  have hmark : (front ++ before ++ [d]).head? ≠ some '#' := by
    have hfirst : some c = (front ++ before ++ [d] ++ behind).head? := by
      rw [← htoken]
      exact congrArg List.head? hjoined
    rw [List.head?_append, Option.or_of_isSome (by simp)] at hfirst
    rw [← hfirst]
    rintro ⟨⟩
    cases hc
  have hraw' : s.raw = String.ofList (stripComment (token ++ behind)) := by
    rw [hraw]
    exact congrArg (fun joined => String.ofList (stripComment joined)) hjoined
  have hsame : s.raw = String.ofList token ↔ stripComment (token ++ behind) = token := by
    rw [hraw']
    exact ⟨fun h => String.ofList_injective h, congrArg String.ofList⟩
  rw [hsame, htoken]
  exact stripComment_append_iff (isBlank_of_closesBracket hd) _ _ hmark

/-- A collection on three lines, one of them a comment, is taken whole and without the
comment behind it. -/
theorem scan_collection_hosts :
    let source := "- hosts: [a,\n    # one\n    'b c'] # two\n  tasks: []\n".toList
    let s : Scalar := ⟨"[a, 'b c']", "[a, 'b c']", .flow, ⟨1, 10⟩, 3, none⟩
    (Outline.scan source).root.Holds 2 1 s ∧
      CollectionAt source s.position 3 "[a,".toList ["[a,".toList, [], "'b c']".toList]
        " # two".toList ∧
      FlowState.start.counted ("[a,".toList :: cutsBetween source 1 3) = true ∧
      s.endLine = 3 ∧ s.raw = String.ofList "[a, 'b c']".toList := by
  intro source s
  have held : (Outline.scan source).root.Holds 2 1 s := .of_first ⟨1, 3⟩ (by decide +kernel)
  have opens : RestAt source s.position "[a,".toList :=
    ⟨"- hosts: [a,".toList, "- hosts: ".toList, by decide, by decide, by decide⟩
  have cuts : cutsBetween source 1 3 = ["    # one".toList, "    'b c'] # two".toList] := by decide
  have lines : FlowLines .start ("[a,".toList :: cutsBetween source 1 3)
      ["[a,".toList, [], "'b c']".toList] " # two".toList := by
    rw [cuts]
    exact .goesOn (by decide) (.goesOn (by decide) (.closes (by decide)))
  have collection : CollectionAt source s.position 3 "[a,".toList
      ["[a,".toList, [], "'b c']".toList] " # two".toList :=
    ⟨opens, ⟨'[', rfl, rfl⟩, by decide, by decide, lines⟩
  have counted : FlowState.start.counted ("[a,".toList :: cutsBetween source 1 3) = true := by
    rw [cuts]
    decide
  obtain ⟨hend, -, hraw⟩ := scan_collection source held collection counted
  have bare : FlowState.start.bare ("[a,".toList :: cutsBetween source 1 3) = true := by
    rw [cuts]
    decide
  exact ⟨held, collection, counted, hend, (hraw bare).mpr ⟨by decide, by decide⟩⟩

end PlaybookStyle.Outline
