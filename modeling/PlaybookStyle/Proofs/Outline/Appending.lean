/-
The outline of a text with another text behind it.

A reading ends where the indentation falls back, so what is read from a text is
read the same with more lines behind it, as long as the first of these stands at
the margin (`NodeAt.extended`). Only two things look for more lines without regard
to indentation: a quoted scalar and a collection in brackets that are open at the
end of the text (`StaysOpen`). If there are none, and if all lines are passed, then
the items of the second text are read as on their own, at moved lines
(`scan_append`). If lines are left over, nothing of the second text is read
(`scan_append_of_left_over`).
-/

import PlaybookStyle.Proofs.Outline.Moving
import PlaybookStyle.Proofs.Outline.Nesting

namespace PlaybookStyle.Outline

open Text

/-! ### What the end of a text leaves open -/

/-- The text begins with a quote or a bracket that the text and the lines behind
it do not close. -/
def Unfinished (text : List Char) (lines : List LogicalLine) : Prop :=
  match text with
  | [] => False
  | c :: _ =>
    if c = '"' ∨ c = '\'' then isUnclosed (joinWhile isUnclosed text lines).1 = true
    else
      (c = '\x7b' ∨ c = '[') ∧
        0 < openBrackets (joinWhile (fun joined => 0 < openBrackets joined) text lines).1

/-- A text stands at a place, at the end of a line, and lines come behind it. -/
structure Remains (all : List LogicalLine) (place : Position) (text : List Char)
    (rest : List LogicalLine) : Prop where
  line : ∃ passed line cut, all = passed ++ line :: rest ∧ line.number = place.line ∧
    line.text = cut ++ text ∧ place.column = line.indent + byteLength cut + 1

/-- What begins at a place is still open behind the last line. -/
def StaysOpen (all : List LogicalLine) (place : Position) : Prop :=
  ∃ text rest, Remains all place text rest ∧ Unfinished text rest

/-- Nothing stays open in lines without quotes and brackets. -/
theorem not_staysOpen {all : List LogicalLine}
    (h : ∀ line ∈ all, ∀ c ∈ line.text, c ∉ ['"', '\'', '\x7b', '[']) (place : Position) :
    ¬StaysOpen all place := by
  rintro ⟨text, rest, remains, unfinished⟩
  cases text with
  | nil => exact unfinished
  | cons c more =>
    obtain ⟨passed, line, cut, rfl, -, htext, -⟩ := remains.line
    have hplain := h line (by simp) c (by simp [htext])
    simp only [List.mem_cons, List.not_mem_nil, or_false, not_or] at hplain
    obtain ⟨hdouble, hsingle, hbrace, hbracket⟩ := hplain
    rw [Unfinished, if_neg (not_or.mpr ⟨hdouble, hsingle⟩)] at unfinished
    exact unfinished.1.elim hbrace hbracket

/-- The lines left are the last of all lines, the first of them perhaps without
what was read of it; and the last line passed, if there is one, is one of them. -/
structure Cursor.Among (all : List LogicalLine) (c : Cursor) : Prop where
  lines : ∀ line rest, c.lines = line :: rest →
    Remains all ⟨line.number, line.indent + 1⟩ line.text rest
  last : c.lastLine = 0 ∨ c.lastLine ∈ all.map LogicalLine.number

section Among

variable {all : List LogicalLine} {place : Position} {text cut : List Char}
  {rest : List LogicalLine} {c : Cursor} {line : LogicalLine}

theorem Cursor.among_of_suffix (h : c.lines <:+ all)
    (last : c.lastLine = 0 ∨ c.lastLine ∈ all.map LogicalLine.number) : c.Among all := by
  refine ⟨?_, last⟩
  intro line rest hlines
  obtain ⟨passed, hpassed⟩ := h
  rw [hlines] at hpassed
  exact ⟨passed, line, [], hpassed.symm, rfl, rfl, by simp⟩

theorem Cursor.among_ofText (source : List Char) :
    (Cursor.ofText source).Among (LogicalLine.ofText source) :=
  among_of_suffix (List.suffix_refl _) (.inl rfl)

theorem Remains.suffix (h : Remains all place text rest) : rest <:+ all := by
  obtain ⟨passed, line, cut, rfl, -⟩ := h.line
  exact ⟨passed ++ [line], by simp⟩

theorem Remains.number_mem (h : Remains all place text rest) :
    place.line ∈ all.map LogicalLine.number := by
  obtain ⟨passed, line, cut, rfl, hnumber, -⟩ := h.line
  rw [← hnumber]
  exact List.mem_map_of_mem (by simp)

/-- Behind a part of the text stands the rest of it. -/
theorem Remains.right (h : Remains all place (cut ++ text) rest) :
    Remains all ⟨place.line, place.column + byteLength cut⟩ text rest := by
  obtain ⟨passed, line, before, hall, hnumber, htext, hcolumn⟩ := h.line
  refine ⟨passed, line, before ++ cut, hall, hnumber, ?_, ?_⟩
  · rw [htext, List.append_assoc]
  · dsimp only
    rw [byteLength_append, hcolumn]
    omega

theorem Remains.pass (h : Remains all ⟨line.number, line.indent + 1⟩ line.text rest) :
    (c.pass line rest).Among all :=
  Cursor.among_of_suffix h.suffix (.inr h.number_mem)

/-- What stands behind a dash. -/
theorem Remains.item (h : Remains all ⟨line.number, line.indent + 1⟩ line.text rest)
    (hitem : isItem line.text = true) :
    Remains all ⟨line.number, line.behindDash.indent + 1⟩ line.item rest := by
  obtain ⟨front, htext, hindent⟩ := LogicalLine.exists_front_of_isItem hitem
  rw [htext] at h
  have hright := h.right
  rwa [Nat.add_right_comm, ← hindent] at hright

theorem Cursor.Among.enter (hc : c.Among all) (h : c.lines = line :: rest)
    (hitem : isItem line.text = true) : (c.enter line rest).Among all := by
  refine ⟨?_, hc.last⟩
  intro head tail hlines
  obtain ⟨rfl, rfl⟩ := List.cons.inj hlines
  exact (hc.lines _ _ h).item hitem

/-- What stands behind a key, its colon and the blanks there. -/
theorem Remains.value {split : KeySplit}
    (h : Remains all ⟨line.number, line.indent + 1⟩ line.text rest)
    (hkey : splitKey line.text = some split) :
    Remains all ⟨line.number, line.indent + split.colon + byteLength split.gap + 2⟩ split.value
      rest := by
  obtain ⟨front, htext, hfront⟩ := exists_front_of_splitKey hkey
  rw [htext] at h
  have hright := h.right
  rwa [show line.indent + split.colon + byteLength split.gap + 2 =
    line.indent + 1 + byteLength front by omega]

/-- The lines that a scalar takes are behind the line where it begins. -/
theorem Remains.passVerbatim {taken after : List LogicalLine}
    (h : Remains all place text c.lines) (hlast : c.lastLine = place.line)
    (happend : taken ++ after = c.lines) (first : Nat) :
    (c.passVerbatim first taken after).Among all := by
  have hsuffix : taken ++ after <:+ all := happend ▸ h.suffix
  refine Cursor.among_of_suffix ((List.suffix_append taken after).trans hsuffix) (.inr ?_)
  cases hend : taken.getLast? with
  | none =>
    have hnumber := h.number_mem
    rw [← hlast] at hnumber
    simpa [Cursor.passVerbatim, hend] using hnumber
  | some line =>
    have hline : line ∈ all :=
      hsuffix.subset (List.mem_append_left _ (List.mem_of_getLast? hend))
    simpa [Cursor.passVerbatim, hend] using ⟨line, hline, rfl⟩

end Among

/-! ### More lines -/

/-- A cursor with more lines behind its own. -/
def Cursor.extend (c : Cursor) (more : List LogicalLine) : Cursor :=
  { c with lines := c.lines ++ more }

section Extend

variable {more : List LogicalLine}

theorem spanDeeper_extend (hmore : ∀ line ∈ more.head?, line.indent = 0) (indent : Nat)
    (lines : List LogicalLine) :
    spanDeeper indent (lines ++ more) =
      ((spanDeeper indent lines).1, (spanDeeper indent lines).2 ++ more) := by
  induction lines with
  | nil =>
    cases more with
    | nil => rfl
    | cons line rest =>
      have hmargin : ¬indent < line.indent := by
        rw [hmore line rfl]
        exact Nat.not_lt_zero indent
      exact (spanDeeper.eq_2 indent line rest).trans (if_neg hmargin)
  | cons line rest ih =>
    rw [List.cons_append, spanDeeper, spanDeeper, ih]
    split <;> rfl

/-- Lines that are not asked for are not taken. -/
theorem joinWhile_extend {asks : List Char → Bool} {text : List Char} {lines : List LogicalLine}
    (h : asks (joinWhile asks text lines).1 = false) :
    joinWhile asks text (lines ++ more) =
      ((joinWhile asks text lines).1, (joinWhile asks text lines).2.1,
        (joinWhile asks text lines).2.2 ++ more) := by
  induction lines generalizing text with
  | nil =>
    cases more with
    | nil => rfl
    | cons line rest =>
      have hasks : ¬asks text = true := Bool.eq_false_iff.mp h
      exact (joinWhile.eq_2 asks text line rest).trans (if_neg hasks)
  | cons line rest ih =>
    rw [joinWhile] at h
    rw [List.cons_append, joinWhile, joinWhile]
    split
    · rename_i hasks
      rw [if_pos hasks] at h
      rw [ih h]
    · rfl

theorem scalarText_extend (hmore : ∀ line ∈ more.head?, line.indent = 0) {text : List Char}
    {lines : List LogicalLine} (closed : ¬Unfinished text lines) (parent : Nat) :
    scalarText text parent (lines ++ more) =
      ((scalarText text parent lines).1, (scalarText text parent lines).2.1,
        (scalarText text parent lines).2.2 ++ more) := by
  cases text with
  | nil => rfl
  | cons c rest =>
    rw [Unfinished] at closed
    rw [scalarText, scalarText]
    split
    · rw [spanDeeper_extend hmore]
    · split
      · rename_i hquote
        rw [if_pos hquote, Bool.not_eq_true] at closed
        rw [joinWhile_extend closed]
      · split
        · rename_i hquote hbracket
          rw [if_neg hquote] at closed
          have hclosed := fun hopen => closed ⟨hbracket, hopen⟩
          rw [joinWhile_extend (by simpa using hclosed)]
        · rw [spanDeeper_extend hmore]

theorem scalarAt_extend (hmore : ∀ line ∈ more.head?, line.indent = 0) {text : List Char}
    {c : Cursor} (closed : ¬Unfinished text c.lines) (tag? : Option (List Char))
    (position : Position) (parent : Nat) :
    (scalarAt tag? text position parent (c.extend more)).1 =
      ((scalarAt tag? text position parent c).1.1,
        (scalarAt tag? text position parent c).1.2.extend more) := by
  have htext : scalarText text parent (c.extend more).lines = _ :=
    scalarText_extend hmore closed parent
  simp only [scalarAt, htext]
  rfl

end Extend

/-! ### Reading with more lines -/

section Reading

variable {all more : List LogicalLine}

/-- Lines are left, and the first of them is not at the margin. -/
def Cursor.Inside (c : Cursor) : Prop := ∃ line ∈ c.lines.head?, 0 < line.indent

theorem Cursor.Inside.of_head {c : Cursor} {line : LogicalLine} (h : c.lines.head? = some line)
    (hindent : 0 < line.indent) : c.Inside := ⟨line, h, hindent⟩

theorem Cursor.Inside.head {c : Cursor} {line : LogicalLine} {rest : List LogicalLine}
    (hc : c.Inside) (h : c.lines = line :: rest) : 0 < line.indent := by
  obtain ⟨head, hhead, hindent⟩ := hc
  rw [h] at hhead
  cases hhead
  exact hindent

theorem lines_extend {c : Cursor} {line : LogicalLine} {rest : List LogicalLine}
    (h : c.lines = line :: rest) : (c.extend more).lines = line :: (rest ++ more) := by
  rw [Cursor.extend, h, List.cons_append]

theorem head?_extend {lines : List LogicalLine} {next : LogicalLine} (h : lines.head? = some next) :
    (lines ++ more).head? = some next := by
  rw [List.head?_append, h]
  rfl

/-- What holds of the next line holds with more lines behind, if it holds of a
line at the margin. -/
theorem forall_head?_extend {P : LogicalLine → Prop} {lines : List LogicalLine}
    (hmore : ∀ line ∈ more.head?, line.indent = 0) (hP : ∀ line, line.indent = 0 → P line)
    (h : ∀ line ∈ lines.head?, P line) : ∀ line ∈ (lines ++ more).head?, P line := by
  intro line hline
  cases lines with
  | nil => exact hP line (hmore line hline)
  | cons first rest => exact h line hline

mutual

/-- **A reading that stays inside the text.** It is the same with more lines
behind it, and the lines left are among all lines. -/
theorem NodeAt.extended (hmore : ∀ line ∈ more.head?, line.indent = 0) {c after : Cursor} {n : Node} :
    NodeAt c n after → c.Among all → c.Inside → n.Everywhere (¬StaysOpen all ·) →
      NodeAt (c.extend more) n (after.extend more) ∧ after.Among all
  | .nothing h => by
    intro _ hinside _
    obtain ⟨line, hline, -⟩ := hinside
    rw [h] at hline
    cases hline
  | .sequence h hitem found => by
    intro hc hinside hclosed
    cases hclosed with
    | sequence _ hvalues =>
      obtain ⟨hfound, hafter⟩ := found.extended hmore hc (.inl (hinside.head h)) hvalues
      exact ⟨.sequence (lines_extend h) hitem hfound, hafter⟩
  | .mapping h hitem hkey found => by
    intro hc hinside hclosed
    cases hclosed with
    | mapping _ hvalues =>
      obtain ⟨hfound, hafter⟩ := found.extended hmore hc (hinside.head h) hvalues
      exact ⟨.mapping (lines_extend h) hitem hkey hfound, hafter⟩
  | .value h hitem hkey found => by
    intro hc _ hclosed
    have hline := hc.lines _ _ h
    obtain ⟨hfound, hafter⟩ := found.extended hmore hline rfl hclosed
    exact ⟨.value (lines_extend h) hitem hkey hfound, hafter⟩

/-- Items at the margin go on with items of the lines behind, unless other lines
are left. -/
theorem ItemsAt.extended (hmore : ∀ line ∈ more.head?, line.indent = 0) {indent : Nat}
    {c after : Cursor} {list : List (Item Node)} :
    ItemsAt indent c list after → c.Among all → 0 < indent ∨ after.lines ≠ [] →
      (∀ item ∈ list, item.value.Everywhere (¬StaysOpen all ·)) →
      ItemsAt indent (c.extend more) list (after.extend more) ∧ after.Among all
  | .stop h => by
    intro hc hdeep _
    refine ⟨.stop ?_, hc⟩
    intro line hline
    cases hlines : c.lines with
    | nil =>
      rw [Cursor.extend, hlines] at hline
      rintro ⟨hindent, -⟩
      have hmargin := hmore line hline
      have hpos := hdeep.resolve_right (· hlines)
      omega
    | cons first rest =>
      rw [lines_extend hlines] at hline
      exact h line (by rwa [hlines])
  | .item h hindent hitem first rest => by
    intro hc hdeep hvalues
    obtain ⟨hvalue, hvalues⟩ := List.forall_mem_cons.mp hvalues
    obtain ⟨hfirst, hmid⟩ := first.extended hmore h hitem hc hvalue
    obtain ⟨hrest, hafter⟩ := rest.extended hmore hmid hdeep hvalues
    have hitems := ItemsAt.item (lines_extend h) hindent hitem hfirst hrest
    exact ⟨hitems, hafter⟩

theorem ItemAt.extended (hmore : ∀ line ∈ more.head?, line.indent = 0) {c after : Cursor}
    {line : LogicalLine} {rest : List LogicalLine} {n : Node} :
    ItemAt c line rest n after → c.lines = line :: rest → isItem line.text = true →
      c.Among all → n.Everywhere (¬StaysOpen all ·) →
      ItemAt (c.extend more) line (rest ++ more) n (after.extend more) ∧ after.Among all
  | .deeper habsent hnext hdeeper found => by
    intro h _ hc hclosed
    have hline := hc.lines _ _ h
    have hinside : (c.pass line rest).Inside := .of_head hnext (Nat.zero_lt_of_lt hdeeper)
    obtain ⟨hfound, hafter⟩ := found.extended hmore hline.pass hinside hclosed
    exact ⟨.deeper habsent (head?_extend hnext) hdeeper hfound, hafter⟩
  | .empty habsent hnext => by
    intro h _ hc _
    have hline := hc.lines _ _ h
    refine ⟨.empty habsent (forall_head?_extend hmore ?_ hnext), hline.pass⟩
    intro next hmargin
    rw [hmargin]
    exact Nat.zero_le _
  | .behind hpresent hcollection found => by
    intro h hitem hc hclosed
    have hinside : (c.enter line rest).Inside := by
      refine .of_head rfl ?_
      simp only [LogicalLine.behindDash]
      omega
    obtain ⟨hfound, hafter⟩ := found.extended hmore (hc.enter h hitem) hinside hclosed
    exact ⟨.behind hpresent hcollection hfound, hafter⟩
  | .value hpresent hcollection found => by
    intro h hitem hc hclosed
    have hline := hc.lines _ _ h
    obtain ⟨hfound, hafter⟩ := found.extended hmore (hline.item hitem) rfl hclosed
    exact ⟨.value hpresent hcollection hfound, hafter⟩

theorem EntriesAt.extended (hmore : ∀ line ∈ more.head?, line.indent = 0) {indent : Nat}
    {c after : Cursor} {list : List (Entry Node)} :
    EntriesAt indent c list after → c.Among all → 0 < indent →
      (∀ entry ∈ list, entry.value.Everywhere (¬StaysOpen all ·)) →
      EntriesAt indent (c.extend more) list (after.extend more) ∧ after.Among all
  | .stop h => by
    intro hc hindent _
    refine ⟨.stop (forall_head?_extend hmore ?_ h), hc⟩
    rintro line hmargin ⟨heq, -⟩
    omega
  | .entry h hindent hkey first rest => by
    intro hc hdeep hvalues
    obtain ⟨hvalue, hvalues⟩ := List.forall_mem_cons.mp hvalues
    obtain ⟨hfirst, hmid⟩ :=
      first.extended hmore hkey (hc.lines _ _ h) (hindent ▸ hdeep) hvalue
    obtain ⟨hrest, hafter⟩ := rest.extended hmore hmid hdeep hvalues
    have hentries := EntriesAt.entry (lines_extend h) hindent hkey hfirst hrest
    exact ⟨hentries, hafter⟩

theorem EntryAt.extended (hmore : ∀ line ∈ more.head?, line.indent = 0) {c after : Cursor}
    {line : LogicalLine} {rest : List LogicalLine} {split : KeySplit} {n : Node} :
    EntryAt c line rest split n after → splitKey line.text = some split →
      Remains all ⟨line.number, line.indent + 1⟩ line.text rest → 0 < line.indent →
      n.Everywhere (¬StaysOpen all ·) →
      EntryAt (c.extend more) line (rest ++ more) split n (after.extend more) ∧ after.Among all
  | .deeper habsent hnext hdeeper found => by
    intro _ hline _ hclosed
    have hinside : (c.pass line rest).Inside := .of_head hnext (Nat.zero_lt_of_lt hdeeper)
    obtain ⟨hfound, hafter⟩ := found.extended hmore hline.pass hinside hclosed
    exact ⟨.deeper habsent (head?_extend hnext) hdeeper hfound, hafter⟩
  | .items habsent hnext hindent hitem found => by
    intro _ hline hdeep hclosed
    cases hclosed with
    | sequence _ hvalues =>
      obtain ⟨hfound, hafter⟩ := found.extended hmore hline.pass (.inl hdeep) hvalues
      exact ⟨.items habsent (head?_extend hnext) hindent hitem hfound, hafter⟩
  | .empty habsent hnext => by
    intro _ hline hdeep _
    refine ⟨.empty habsent (forall_head?_extend hmore ?_ hnext), hline.pass⟩
    intro next hmargin
    constructor
    · omega
    · rintro ⟨heq, -⟩
      omega
  | .value hpresent found => by
    intro hkey hline _ hclosed
    obtain ⟨hfound, hafter⟩ := found.extended hmore (hline.value hkey) rfl hclosed
    exact ⟨.value hpresent hfound, hafter⟩

theorem ValueAt.extended (hmore : ∀ line ∈ more.head?, line.indent = 0) {text : List Char}
    {line column parent : Nat} {c after : Cursor} {n : Node} :
    ValueAt text line column parent c n after → Remains all ⟨line, column⟩ text c.lines →
      c.lastLine = line → n.Everywhere (¬StaysOpen all ·) →
      ValueAt text line column parent (c.extend more) n (after.extend more) ∧ after.Among all
  | .deeper habsent hnext hdeeper found => by
    intro htext hlast hclosed
    have hc : c.Among all := Cursor.among_of_suffix htext.suffix (.inr (hlast ▸ htext.number_mem))
    have hinside : c.Inside := .of_head hnext (Nat.zero_lt_of_lt hdeeper)
    obtain ⟨hfound, hafter⟩ := found.extended hmore hc hinside hclosed
    exact ⟨.deeper habsent (head?_extend hnext) hdeeper hfound, hafter⟩
  | .empty habsent hnext => by
    intro htext hlast _
    have hc : c.Among all := Cursor.among_of_suffix htext.suffix (.inr (hlast ▸ htext.number_mem))
    refine ⟨.empty habsent (forall_head?_extend hmore ?_ hnext), hc⟩
    intro next hmargin
    rw [hmargin]
    exact Nat.zero_le _
  | @ValueAt.scalar _ rest _ _ _ start _ tag? hskip hpresent => by
    intro htext hlast hclosed
    obtain ⟨skipped, happend, hstart, -⟩ := skipProperties_append none column text
    rw [hskip] at happend hstart
    rw [happend] at htext
    have hrest : Remains all ⟨line, start⟩ rest c.lines := by
      have hright := htext.right
      rwa [← hstart] at hright
    have hopen : ¬Unfinished rest c.lines := by
      intro hunfinished
      cases hclosed with
      | scalar h => exact h ⟨rest, c.lines, hrest, hunfinished⟩
    constructor
    · have hread : ValueAt text line column parent (c.extend more) _ _ :=
        .scalar hskip hpresent
      rwa [scalarAt_extend hmore hopen tag? ⟨line, start⟩ parent] at hread
    · exact hrest.passVerbatim hlast (scalarText_append rest parent c.lines) line

end

/-- Items at the margin go on with the items of the lines behind. -/
theorem ItemsAt.append (hmore : ∀ line ∈ more.head?, line.indent = 0) {c after last : Cursor}
    {list others : List (Item Node)} :
    ItemsAt 0 c list after → c.Among all →
      (∀ item ∈ list, item.value.Everywhere (¬StaysOpen all ·)) →
      ItemsAt 0 (after.extend more) others last →
      ItemsAt 0 (c.extend more) (list ++ others) last ∧ after.Among all
  | .stop _ => fun hc _ hothers => ⟨hothers, hc⟩
  | .item h hindent hitem first rest => by
    intro hc hvalues hothers
    obtain ⟨hvalue, hvalues⟩ := List.forall_mem_cons.mp hvalues
    obtain ⟨hfirst, hmid⟩ := first.extended hmore h hitem hc hvalue
    obtain ⟨hrest, hafter⟩ := rest.append hmore hmid hvalues hothers
    have hitems := ItemsAt.item (lines_extend h) hindent hitem hfirst hrest
    exact ⟨hitems, hafter⟩

end Reading

/-! ### Reading from another last line -/

section LastLine

theorem EntryAt.from_last (last : Nat) {c after : Cursor} {line : LogicalLine} {rest : List LogicalLine}
    {split : KeySplit} {n : Node} (h : EntryAt c line rest split n after) :
    EntryAt { c with lastLine := last } line rest split n after := by
  cases h with
  | deeper habsent hnext hdeeper found => exact .deeper habsent hnext hdeeper found
  | items habsent hnext hindent hitem found => exact .items habsent hnext hindent hitem found
  | empty habsent hnext => exact .empty (c := { c with lastLine := last }) habsent hnext
  | value hpresent found => exact .value hpresent found

mutual

/-- What was the last line passed is no matter to a reading that passes a line. -/
theorem NodeAt.from_last (last : Nat) {c after : Cursor} {n : Node} :
    NodeAt c n after → c.lines ≠ [] → NodeAt { c with lastLine := last } n after
  | .nothing h => fun hne => absurd h hne
  | .sequence h hitem found => fun _ => .sequence h hitem (found.from_last last h rfl hitem)
  | .mapping h hitem hkey found => by
    intro _
    refine .mapping h hitem hkey ?_
    cases found with
    | stop hstop => exact absurd ⟨rfl, by rw [hkey]; rfl⟩ (hstop _ (by rw [h]; rfl))
    | entry h' hindent hkey' first more =>
      have hentries := EntriesAt.entry (c := { c with lastLine := last }) h' hindent hkey'
        (first.from_last last) more
      exact hentries
  | .value h hitem hkey found => fun _ => .value h hitem hkey found

theorem ItemsAt.from_last (last : Nat) {indent : Nat} {c after : Cursor}
    {list : List (Item Node)} {line : LogicalLine} {rest : List LogicalLine} :
    ItemsAt indent c list after → c.lines = line :: rest → line.indent = indent →
      isItem line.text = true → ItemsAt indent { c with lastLine := last } list after
  | .stop hstop => fun h hindent hitem => absurd ⟨hindent, hitem⟩ (hstop line (by rw [h]; rfl))
  | .item h hindent hitem first more => by
    intro _ _ _
    exact .item h hindent hitem (first.from_last last) more

theorem ItemAt.from_last (last : Nat) {c after : Cursor} {line : LogicalLine}
    {rest : List LogicalLine} {n : Node} :
    ItemAt c line rest n after → ItemAt { c with lastLine := last } line rest n after
  | .deeper habsent hnext hdeeper found => .deeper habsent hnext hdeeper found
  | .empty habsent hnext => .empty (c := { c with lastLine := last }) habsent hnext
  | .behind hpresent hcollection found =>
    .behind hpresent hcollection (found.from_last last (List.cons_ne_nil _ _))
  | .value hpresent hcollection found => .value hpresent hcollection found

end

end LastLine

/-! ### Items at the margin -/

section Margin

/-- A sequence that is found behind the margin begins there. -/
theorem NodeAt.column_pos {c after : Cursor} {n : Node} :
    NodeAt c n after → (∀ line ∈ c.lines.head?, 0 < line.indent) →
      ∀ {position items}, n = .sequence position items → 1 < position.column
  | .nothing _ => fun _ _ _ hn => by cases hn
  | .sequence h _ _ => by
    rintro hdeep _ _ ⟨⟩
    exact Nat.succ_lt_succ (hdeep _ (by rw [h]; rfl))
  | .mapping _ _ _ _ => fun _ _ _ hn => by cases hn
  | .value _ _ _ (.deeper _ hnext hdeeper found) => by
    intro _ _ _ hn
    refine found.column_pos ?_ hn
    intro line hline
    cases hline.symm.trans hnext
    exact Nat.zero_lt_of_lt hdeeper
  | .value _ _ _ (.empty _ _) => fun _ _ _ hn => by cases hn
  | .value _ _ _ (.scalar _ _) => fun _ _ _ hn => by cases hn

/-- A sequence at the margin begins with the first line. -/
theorem NodeAt.items_at_margin {c after : Cursor} {n : Node} {number : Nat}
    {items : List (Item Node)} (h : NodeAt c n after) (hn : n = .sequence ⟨number, 1⟩ items) :
    ItemsAt 0 c items after ∧ ∃ line rest, c.lines = line :: rest ∧ line.indent = 0 ∧
      line.number = number ∧ isItem line.text = true := by
  cases h with
  | nothing => cases hn
  | mapping => cases hn
  | sequence h hitem found =>
    injection hn with hposition hitems
    injection hposition with hnumber hcolumn
    have hindent := Nat.succ.inj hcolumn
    rw [hindent, hitems] at found
    exact ⟨found, _, _, h, hindent, hnumber, hitem⟩
  | value h hitem hkey found =>
    cases found with
    | empty => cases hn
    | scalar => cases hn
    | deeper habsent hnext hdeeper found =>
      have hcolumn := found.column_pos (fun line hline => ?_) hn
      · exact absurd hcolumn (Nat.lt_irrefl 1)
      · cases hline.symm.trans hnext
        exact Nat.zero_lt_of_lt hdeeper

end Margin

/-! ### Texts behind one another -/

section Texts

variable {a b : List Char}

theorem splitLines_cons_ne_nil (c : Char) (rest : List Char) : splitLines (c :: rest) ≠ [] := by
  rw [splitLines]
  split
  · exact List.cons_ne_nil _ _
  · split <;> exact List.cons_ne_nil _ _

theorem splitLines_append (newline : a.getLast? = some '\n') (b : List Char) :
    splitLines (a ++ b) = splitLines a ++ splitLines b := by
  induction a with
  | nil => cases newline
  | cons c rest ih =>
    cases rest with
    | nil =>
      obtain rfl : c = '\n' := Option.some.inj newline
      rw [List.singleton_append, splitLines_newline, splitLines_newline]
      rfl
    | cons d more =>
      rw [List.getLast?_cons_cons] at newline
      have ih := ih newline
      rw [List.cons_append, splitLines, splitLines, ih]
      by_cases hc : c = '\n'
      · rw [if_pos hc, if_pos hc]
        rfl
      · rw [if_neg hc, if_neg hc]
        cases hlines : splitLines (d :: more) with
        | nil => exact absurd hlines (splitLines_cons_ne_nil d more)
        | cons line lines => rfl

theorem LogicalLine.ofText_append (newline : a.getLast? = some '\n') (b : List Char) :
    ofText (a ++ b) = ofText a ++ (ofText b).map (moved (· + (splitLines a).length)) := by
  rw [ofText, splitLines_append newline, ofLines_append, ofText, ofText]
  congr 1
  apply ofLines_moved
  intro i _
  omega

theorem LogicalLine.number_le {line : LogicalLine} (h : line ∈ LogicalLine.ofText a) :
    line.number ≤ (splitLines a).length := by
  have hlines : ∀ (lines : List (List Char)) (number : Nat), ∀ line ∈ ofLines number lines,
      line.number < number + lines.length := by
    intro lines
    induction lines with
    | nil => intro number line hline; cases hline
    | cons first rest ih =>
      intro number line hline
      rw [ofLines, List.mem_append, Option.mem_toList] at hline
      rcases hline with hline | hline
      · have hnumber : line.number = number := by
          rw [ofLine?_eq] at hline
          repeat' split at hline
          all_goals cases hline
          rfl
        rw [hnumber, List.length_cons]
        omega
      · have := ih (number + 1) line hline
        rw [List.length_cons]
        omega
  have := hlines (splitLines a) 1 line h
  omega

/-- The lines of a text at their places behind another text. -/
def linesBehind (a b : List Char) : List LogicalLine :=
  (LogicalLine.ofText b).map (LogicalLine.moved (· + (splitLines a).length))

theorem Cursor.ofText_append (newline : a.getLast? = some '\n') (b : List Char) :
    Cursor.ofText (a ++ b) = (Cursor.ofText a).extend (linesBehind a b) := by
  rw [ofText, ofText, LogicalLine.ofText_append newline, extend, linesBehind]

/-- What is found at the margin is the outline. -/
theorem scan_of_items {source : List Char} {line : LogicalLine} {rest : List LogicalLine}
    {items : List (Item Node)} {after : Cursor} (h : (Cursor.ofText source).lines = line :: rest)
    (hindent : line.indent = 0) (hitem : isItem line.text = true)
    (found : ItemsAt 0 (.ofText source) items after) :
    Outline.scan source = ⟨.sequence ⟨line.number, 1⟩ items, after.verbatim⟩ := by
  rw [← hindent] at found
  have hnode := NodeAt.sequence h hitem found
  rw [hindent] at hnode
  exact scan_eq_of_nodeAt hnode

/-- A text may stand behind another: this one ends with a line feed and leaves no
quote or bracket open, and the dashes of both stand at the margin. -/
structure Joins (a b : List Char) (first second : Nat) (items others : List (Item Node)) : Prop where
  newline : a.getLast? = some '\n'
  root : (Outline.scan a).root = .sequence ⟨first, 1⟩ items
  root_behind : (Outline.scan b).root = .sequence ⟨second, 1⟩ others
  closed : (Outline.scan a).root.Everywhere (¬StaysOpen (LogicalLine.ofText a) ·)

namespace Joins

variable {first second : Nat} {items others : List (Item Node)}
  (joins : Joins a b first second items others)

include joins

theorem values_closed :
    ∀ item ∈ items, item.value.Everywhere (¬StaysOpen (LogicalLine.ofText a) ·) := by
  have closed := joins.closed
  rw [joins.root] at closed
  cases closed with
  | sequence _ hvalues => exact hvalues

theorem linesBehind_at_margin : ∀ line ∈ (linesBehind a b).head?, line.indent = 0 := by
  obtain ⟨-, line, rest, hlines, hindent, -⟩ := (node_at (.ofText b)).items_at_margin joins.root_behind
  intro head hhead
  rw [linesBehind, show LogicalLine.ofText b = line :: rest from hlines] at hhead
  cases hhead
  exact hindent

/-- **One text behind another.** If all lines of the first are passed, its outline
goes on with the items of the second at moved lines. -/
theorem scan_append (passed : (node (.ofText a)).1.2.lines = []) :
    Outline.scan (a ++ b) =
      ⟨.sequence ⟨first, 1⟩ (items ++ others.map (itemMoved (· + (splitLines a).length))),
        (Outline.scan a).verbatim ++
          (Outline.scan b).verbatim.map (LineRange.moved (· + (splitLines a).length))⟩ := by
  have hf : StrictMono (· + (splitLines a).length) := fun m n h => Nat.add_lt_add_right h _
  obtain ⟨hitems, line, rest, hlines, hindent, rfl, hitem⟩ :=
    (node_at (.ofText a)).items_at_margin joins.root
  obtain ⟨hothers, line', rest', hlines', hindent', -, hitem'⟩ :=
    (node_at (.ofText b)).items_at_margin joins.root_behind
  -- The second text is read where the first ends, whatever line was passed last.
  have hmoved : ItemsAt 0 ((Cursor.ofText b).moved (· + (splitLines a).length)
      (node (.ofText a)).1.2.verbatim) _ _ := hothers.moved hf
  have hbehind := hmoved.from_last (node (.ofText a)).1.2.lastLine (Cursor.lines_moved hlines')
    hindent' hitem'
  have hcursor : (node (.ofText a)).1.2.extend (linesBehind a b) =
      { (Cursor.ofText b).moved (· + (splitLines a).length) (node (.ofText a)).1.2.verbatim with
        lastLine := (node (.ofText a)).1.2.lastLine } := by
    rw [Cursor.extend, passed]
    simp only [Cursor.moved, Cursor.ofText, linesBehind, List.map_nil, List.nil_append,
      List.append_nil]
  rw [← hcursor] at hbehind
  have hall := (hitems.append joins.linesBehind_at_margin (Cursor.among_ofText a)
    joins.values_closed hbehind).1
  have hhead : ((Cursor.ofText a).extend (linesBehind a b)).lines = _ := lines_extend hlines
  rw [← Cursor.ofText_append joins.newline] at hall hhead
  exact scan_of_items hhead hindent hitem hall

/-- **Lines left over.** If not all lines of the first text are passed, nothing of
the second is read. -/
theorem scan_append_of_left_over (leftOver : (node (.ofText a)).1.2.lines ≠ []) :
    (Outline.scan (a ++ b)).root = .sequence ⟨first, 1⟩ items := by
  obtain ⟨hitems, line, rest, hlines, hindent, rfl, hitem⟩ :=
    (node_at (.ofText a)).items_at_margin joins.root
  have hall := (hitems.extended joins.linesBehind_at_margin (Cursor.among_ofText a) (.inr leftOver)
    joins.values_closed).1
  have hhead : ((Cursor.ofText a).extend (linesBehind a b)).lines = _ := lines_extend hlines
  rw [← Cursor.ofText_append joins.newline] at hall hhead
  rw [scan_of_items hhead hindent hitem hall]

/-- The last line that is passed is a line of the text. -/
theorem lastLine_le : (node (.ofText a)).1.2.lastLine ≤ (splitLines a).length := by
  obtain ⟨hitems, -⟩ := (node_at (.ofText a)).items_at_margin joins.root
  have hbehind : ItemsAt 0 ((node (.ofText a)).1.2.extend (linesBehind a b)) _ _ := items_at 0 _
  have hamong := (hitems.append joins.linesBehind_at_margin (Cursor.among_ofText a)
    joins.values_closed hbehind).2
  rcases hamong.last with hzero | hmem
  · rw [hzero]
    exact Nat.zero_le _
  · obtain ⟨line, hline, hnumber⟩ := List.mem_map.mp hmem
    rw [← hnumber]
    exact LogicalLine.number_le hline

end Joins

/-- What is read of a text stays on the lines from its first dash on. -/
theorem scan_nests {first : Nat} {items : List (Item Node)}
    (root : (Outline.scan a).root = .sequence ⟨first, 1⟩ items) :
    Nests first (.ofText a) (Outline.scan a).root (node (.ofText a)).1.2 ∧ 0 < first := by
  have hplaced : (Cursor.ofText a).Placed a := Cursor.ofText_placed
  obtain ⟨-, line, rest, hlines, -, rfl, -⟩ := (node_at (.ofText a)).items_at_margin root
  have hpos : 0 < line.number := hplaced.lastLine_lt hlines
  refine ⟨((node_at (.ofText a)).nests hplaced line.number hpos ?_).1, hpos⟩
  intro head hhead
  rw [hlines] at hhead
  cases hhead
  exact Nat.le_refl _

/-- The verbatim ranges of a text lie behind its first line with a dash, on lines
up to the last one passed. -/
theorem verbatim_within {first : Nat} {items : List (Item Node)}
    (root : (Outline.scan a).root = .sequence ⟨first, 1⟩ items) :
    ∀ range ∈ (Outline.scan a).verbatim,
      first < range.first ∧ range.last ≤ (node (.ofText a)).1.2.lastLine := by
  obtain ⟨ranges, hadded, -⟩ := (scan_nests root).1.adds
  have hverbatim : (Outline.scan a).verbatim = ranges := hadded.verbatim.trans (List.nil_append _)
  rw [hverbatim]
  intro range hrange
  exact hadded.parts.within range hrange

end Texts

end PlaybookStyle.Outline
