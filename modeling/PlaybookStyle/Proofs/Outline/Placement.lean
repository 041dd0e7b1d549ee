/-
Everything in an outline stands where the outline says.

`Node.Placed` says of a node what its positions and counts mean in the source: at
an item stands a dash, at an entry its key with the blanks counted around the
colon, at a scalar its token. The cursor carries the reason (`Cursor.Placed`):
every line left stands where its number and indentation say, also the line that
was rewritten to read what is behind a dash, and line numbers grow, so that a
scalar which ends on its own line took no other.

* `NodeAt.placed` — what is read at a placed cursor is placed, rule by rule.
* `scan_placed` — the outline of any text is placed.
-/

import Mathlib.Tactic.ByContra
import PlaybookStyle.Proofs.Outline.Reading
import PlaybookStyle.Proofs.Outline.Tokens
import PlaybookStyle.Proofs.Source.Places

namespace PlaybookStyle.Outline

open Text

/-! ### Placed nodes -/

/-- The key stands at the entry's position, then the blanks counted before the
colon, the colon, and, before a value on the same line, the blanks counted
behind it. -/
def Entry.Stands {α : Type} (source : List Char) (entry : Entry α) : Prop :=
  ∃ written blanks rest, WrittenKey entry.key.toList written ∧ blanks.all isBlank ∧
    byteLength blanks = entry.spacing.beforeColon ∧
    StandsAt source entry.position (written ++ blanks ++ ':' :: rest) ∧
    ∀ n, entry.spacing.afterColon = some n →
      ∃ gap c value, rest = gap ++ c :: value ∧ gap.all isBlank ∧ byteLength gap = n ∧
        isBlank c = false

/-- The token stands at the scalar's position: all of it if the scalar ends on the
line where it begins, its first character in any case. -/
structure Scalar.Stands (source : List Char) (s : Scalar) : Prop where
  ordered : s.position.line ≤ s.endLine
  first : ∃ c more, s.raw.toList = c :: more ∧ StandsAt source s.position [c]
  whole : s.endLine = s.position.line → StandsAt source s.position s.raw.toList

/-- A node whose tokens stand in the source where it says. A collection begins
where its first part does. -/
inductive Node.Placed (source : List Char) : Node → Prop
  | empty : Placed source .empty
  | scalar {s : Scalar} (stands : s.Stands source) : Placed source (.scalar s)
  | sequence {position : Position} {items : List (Item Node)}
      (first : items.head?.map Item.position = some position)
      (stands : ∀ item ∈ items, StandsAt source item.position ['-'])
      (values : ∀ item ∈ items, Placed source item.value) : Placed source (.sequence position items)
  | mapping {position : Position} {entries : List (Entry Node)}
      (first : entries.head?.map Entry.position = some position)
      (stands : ∀ entry ∈ entries, entry.Stands source)
      (values : ∀ entry ∈ entries, Placed source entry.value) :
      Placed source (.mapping position entries)

/-! ### Placed cursors -/

/-- The text of a line stands where its number and indentation say. -/
structure LogicalLine.Stands (source : List Char) (line : LogicalLine) : Prop where
  stands : StandsAt source ⟨line.number, line.indent + 1⟩ line.text
  content : HasContent line.text

/-- The lines left stand in the source, each behind the last line passed and
behind the lines before it. -/
structure Cursor.Placed (source : List Char) (c : Cursor) : Prop where
  stands : ∀ line ∈ c.lines, line.Stands source
  ordered : (c.lastLine :: c.lines.map LogicalLine.number).Pairwise (· < ·)

section Cursors

variable {source : List Char}

/-- A line of the source with structure in it stands there. -/
theorem LogicalLine.stands_of_ofLine? {n : Nat} {cut : List Char} {line : LogicalLine}
    (hcut : (splitLines source)[n]? = some cut)
    (h : LogicalLine.ofLine? (n + 1) cut = some line) :
    line.Stands source ∧ line.number = n + 1 := by
  obtain ⟨after, hafter⟩ := exists_line?_of_splitLines (p := isBlank) (by decide) hcut
  have hspaces : ((trimEnd cut).takeWhile (· == ' ')).all (· == ' ') := List.all_takeWhile
  have hsplit := List.takeWhile_append_dropWhile (p := (· == ' ')) (l := trimEnd cut)
  have hstands : StandsAt source ⟨n + 1, ((trimEnd cut).takeWhile (· == ' ')).length + 1⟩
      ((trimEnd cut).dropWhile (· == ' ')) := by
    refine ⟨(trimEnd cut).takeWhile (· == ' '), after, ?_, ?_⟩
    · rw [hsplit]
      exact hafter
    · rw [byteLength_eq_length_of_spaces hspaces]
  have hcontent : isAbsent (trimStart (trimEnd cut)) = false →
      HasContent ((trimEnd cut).dropWhile (· == ' ')) := by
    intro h
    rw [HasContent, trimStart_dropWhile_spaces]
    exact h
  unfold LogicalLine.ofLine? at h
  dsimp only at h
  split at h
  · cases h
  · cases h
  · rename_i hnone hcomment
    split at h
    · cases h
    · obtain rfl := Option.some.inj h
      refine ⟨⟨hstands, hcontent ?_⟩, rfl⟩
      cases htrim : trimStart (trimEnd cut) with
      | nil => exact absurd htrim hnone
      | cons c more =>
        refine beq_eq_false_iff_ne.mpr ?_
        rintro rfl
        exact hcomment more htrim

/-- The lines with structure stand in the source, in the order of their numbers. -/
theorem LogicalLine.ofLines_stands {n : Nat} {cuts : List (List Char)}
    (h : (splitLines source).drop n = cuts) :
    (∀ line ∈ LogicalLine.ofLines (n + 1) cuts, line.Stands source ∧ n < line.number) ∧
      ((LogicalLine.ofLines (n + 1) cuts).map LogicalLine.number).Pairwise (· < ·) := by
  induction cuts generalizing n with
  | nil => exact ⟨by simp [ofLines], List.Pairwise.nil⟩
  | cons cut rest ih =>
    have hcut : (splitLines source)[n]? = some cut := by
      rw [← Nat.add_zero n, ← List.getElem?_drop, h]
      rfl
    have hrest : (splitLines source).drop (n + 1) = rest := by
      rw [← List.tail_drop, h]
      rfl
    obtain ⟨hstands, hordered⟩ := ih hrest
    rw [ofLines]
    cases hline : LogicalLine.ofLine? (n + 1) cut with
    | none => exact ⟨fun line hmem => ⟨(hstands line hmem).1, by have := (hstands line hmem).2; omega⟩,
        hordered⟩
    | some line =>
      obtain ⟨hfirst, hnumber⟩ := stands_of_ofLine? hcut hline
      refine ⟨?_, List.pairwise_cons.mpr ⟨?_, hordered⟩⟩
      · intro l hl
        rcases List.mem_cons.mp hl with rfl | hl
        · exact ⟨hfirst, by omega⟩
        · exact ⟨(hstands l hl).1, by have := (hstands l hl).2; omega⟩
      · intro number hmem
        obtain ⟨l, hl, rfl⟩ := List.mem_map.mp hmem
        rw [hnumber]
        exact (hstands l hl).2

theorem Cursor.ofText_placed : (Cursor.ofText source).Placed source := by
  obtain ⟨hstands, hordered⟩ :=
    LogicalLine.ofLines_stands (show (splitLines source).drop 0 = splitLines source from rfl)
  refine ⟨fun line hline => (hstands line hline).1, List.pairwise_cons.mpr ⟨?_, hordered⟩⟩
  intro number hnumber
  obtain ⟨line, hline, rfl⟩ := List.mem_map.mp hnumber
  exact (hstands line hline).2

variable {c : Cursor} {line : LogicalLine} {rest : List LogicalLine}

theorem Cursor.Placed.line_stands (hc : c.Placed source) (h : c.lines = line :: rest) :
    line.Stands source :=
  hc.stands line (by simp [h])

theorem Cursor.Placed.pass (hc : c.Placed source) (h : c.lines = line :: rest) :
    (c.pass line rest).Placed source := by
  obtain ⟨hstands, hordered⟩ := hc
  rw [h] at hstands hordered
  exact ⟨fun l hl => hstands l (List.mem_cons_of_mem _ hl), (List.pairwise_cons.mp hordered).2⟩

/-- Behind a dash stands what the rewritten line holds. -/
theorem LogicalLine.Stands.item_stands (hline : line.Stands source)
    (hitem : isItem line.text = true) :
    StandsAt source ⟨line.number, line.behindDash.indent + 1⟩ line.item := by
  obtain ⟨front, htext, hindent⟩ := LogicalLine.exists_front_of_isItem hitem
  have hstands := hline.stands
  rw [htext] at hstands
  have hright := hstands.right
  rwa [Nat.add_right_comm, ← hindent] at hright

theorem Cursor.Placed.enter (hc : c.Placed source) (h : c.lines = line :: rest)
    (hitem : isItem line.text = true) (hpresent : isAbsent line.item = false) :
    (c.enter line rest).Placed source := by
  have hline := hc.line_stands h
  obtain ⟨hstands, hordered⟩ := hc
  rw [h] at hstands hordered
  refine ⟨?_, hordered⟩
  intro l hl
  rcases List.mem_cons.mp hl with rfl | hl
  · exact ⟨hline.item_stands hitem, hasContent_trimStart hpresent⟩
  · exact hstands l (List.mem_cons_of_mem _ hl)

theorem Cursor.Placed.passVerbatim {passed : List LogicalLine} (hc : c.Placed source)
    (h : passed ++ rest = c.lines) (first : Nat) :
    (c.passVerbatim first passed rest).Placed source ∧
      c.lastLine ≤ (c.passVerbatim first passed rest).lastLine ∧
      (passed ≠ [] → c.lastLine < (c.passVerbatim first passed rest).lastLine) := by
  obtain ⟨hstands, hordered⟩ := hc
  rw [← h] at hstands hordered
  have hrest : ∀ l ∈ rest, l.Stands source := fun l hl => hstands l (List.mem_append_right _ hl)
  cases hlast : passed.getLast? with
  | none =>
    obtain rfl := List.getLast?_eq_none_iff.mp hlast
    exact ⟨⟨hrest, hordered⟩, Nat.le_refl _, fun hne => absurd rfl hne⟩
  | some last =>
    obtain ⟨before, rfl⟩ := List.getLast?_eq_some_iff.mp hlast
    have hafter : (c.passVerbatim first (before ++ [last]) rest).lastLine = last.number := by
      simp [Cursor.passVerbatim]
    have hlt : c.lastLine < last.number :=
      (List.pairwise_cons.mp hordered).1 _ (List.mem_map_of_mem (by simp))
    refine ⟨⟨hrest, ?_⟩, by omega, fun _ => by omega⟩
    rw [hafter]
    refine hordered.sublist (List.IsSuffix.sublist ⟨c.lastLine :: before.map LogicalLine.number, ?_⟩)
    simp [Cursor.passVerbatim]

end Cursors

/-! ### Scalars and values -/

section Reading

variable {source : List Char}

/-- A scalar read where its text stands is placed. -/
theorem scalarAt_placed {text : List Char} {position : Position} {parent : Nat}
    {tag? : Option (List Char)} {c : Cursor} (hc : c.Placed source)
    (hline : c.lastLine = position.line) (hstands : StandsAt source position text)
    (hcontent : HasContent text) :
    (scalarAt tag? text position parent c).1.1.Placed source ∧
      (scalarAt tag? text position parent c).1.2.Placed source := by
  obtain ⟨hafter, -, htaken⟩ :=
    hc.passVerbatim (scalarText_append text parent c.lines) position.line
  refine ⟨.scalar ⟨Nat.le_max_right _ _, ?_, ?_⟩, hafter⟩
  · cases text with
    | nil => cases hcontent
    | cons first rest =>
      obtain ⟨⟨more, hraw⟩, -⟩ := scalarText_raw hcontent parent c.lines
      refine ⟨first, more, by simp only [hraw, String.toList_ofList], ?_⟩
      exact hstands.of_isPrefix ⟨rest, rfl⟩
  · -- No line was taken, for the last one taken would be a later one.
    intro hend
    have hnone : (scalarText text parent c.lines).2.1 = [] := by
      by_contra hne
      have hlt := htaken hne
      dsimp only at hend
      omega
    cases text with
    | nil => cases hcontent
    | cons first rest =>
      obtain ⟨-, hbegins⟩ := scalarText_raw hcontent parent c.lines
      rw [String.toList_ofList]
      exact hstands.of_isPrefix (hbegins hnone)

theorem ItemsAt.head_position {indent : Nat} {c after : Cursor} {list : List (Item Node)}
    {line : LogicalLine} {rest : List LogicalLine} (found : ItemsAt indent c list after)
    (h : c.lines = line :: rest) (hindent : line.indent = indent) (hitem : isItem line.text = true) :
    list.head?.map Item.position = some ⟨line.number, indent + 1⟩ := by
  cases found with
  | stop hstop => exact absurd ⟨hindent, hitem⟩ (hstop line (by simp [h]))
  | item h' =>
    obtain ⟨rfl, -⟩ := List.cons.inj (h.symm.trans h')
    rfl

theorem EntriesAt.head_position {indent : Nat} {c after : Cursor} {list : List (Entry Node)}
    {line : LogicalLine} {rest : List LogicalLine} {split : KeySplit}
    (found : EntriesAt indent c list after) (h : c.lines = line :: rest)
    (hindent : line.indent = indent) (hkey : splitKey line.text = some split) :
    list.head?.map Entry.position = some ⟨line.number, indent + 1⟩ := by
  cases found with
  | stop hstop => exact absurd ⟨hindent, by simp [hkey]⟩ (hstop line (by simp [h]))
  | entry h' =>
    obtain ⟨rfl, -⟩ := List.cons.inj (h.symm.trans h')
    rfl

/-- The entry that a line opens stands where the line's indentation says. -/
theorem LogicalLine.Stands.entry_stands {line : LogicalLine} {split : KeySplit} {n : Node}
    {endLine : Nat} (hline : line.Stands source) (hkey : splitKey line.text = some split) :
    Entry.Stands source
      ⟨String.ofList split.key, ⟨line.number, line.indent + 1⟩, split.spacing, n, endLine⟩ := by
  obtain ⟨written, blanks, hwritten, hblanks, htext, hbefore, -⟩ := splitKey_append hkey
  refine ⟨written, blanks, split.rest, by rwa [String.toList_ofList], hblanks, hbefore.symm, ?_, ?_⟩
  · rw [← htext]
    exact hline.stands
  · intro n hafter
    have hpresent : isAbsent split.value = false ∧ byteLength split.gap = n := by
      simpa [KeySplit.spacing] using hafter
    cases hvalue : split.value with
    | nil => simp [hvalue, isAbsent] at hpresent
    | cons c value =>
      refine ⟨split.gap, c, value, ?_, isBlank_of_mem_takeWhile _, hpresent.2,
        isBlank_head_trimStart hvalue⟩
      rw [← hvalue]
      exact split.rest_eq

/-- The value of an entry stands behind its key, colon and gap. -/
theorem LogicalLine.Stands.value_stands {line : LogicalLine} {split : KeySplit}
    (hline : line.Stands source) (hkey : splitKey line.text = some split) :
    StandsAt source ⟨line.number, line.indent + split.colon + byteLength split.gap + 2⟩
      split.value := by
  obtain ⟨front, htext, hfront⟩ := exists_front_of_splitKey hkey
  have hstands := hline.stands
  rw [htext] at hstands
  have hright := hstands.right
  rwa [show line.indent + split.colon + byteLength split.gap + 2 =
    line.indent + 1 + byteLength front by omega]

mutual

theorem NodeAt.placed {c after : Cursor} {n : Node} :
    NodeAt c n after → c.Placed source → n.Placed source ∧ after.Placed source
  | .nothing _ => fun hc => ⟨.empty, hc⟩
  | .sequence h hitem found => by
    intro hc
    obtain ⟨hstands, hvalues, hafter⟩ := found.placed hc
    exact ⟨.sequence (found.head_position h rfl hitem) hstands hvalues, hafter⟩
  | .mapping h _ hkey found => by
    intro hc
    obtain ⟨hstands, hvalues, hafter⟩ := found.placed hc
    exact ⟨.mapping (found.head_position h rfl hkey) hstands hvalues, hafter⟩
  | .value h _ _ found => by
    intro hc
    have hline := hc.line_stands h
    exact found.placed (hc.pass h) rfl hline.stands (.inr hline.content)

theorem ItemsAt.placed {indent : Nat} {c after : Cursor} {list : List (Item Node)} :
    ItemsAt indent c list after → c.Placed source →
      (∀ item ∈ list, StandsAt source item.position ['-']) ∧
        (∀ item ∈ list, item.value.Placed source) ∧ after.Placed source
  | .stop _ => fun hc => ⟨by simp, by simp, hc⟩
  | .item h hindent hitem first more => by
    intro hc
    have hline := hc.line_stands h
    obtain ⟨hnode, hmid⟩ := first.placed h hitem hc
    obtain ⟨hstands, hvalues, hafter⟩ := more.placed hmid
    refine ⟨?_, ?_, hafter⟩
    · intro item hmem
      rcases List.mem_cons.mp hmem with rfl | hmem
      · obtain ⟨tail, htail⟩ := exists_eq_cons_of_isItem hitem
        subst hindent
        exact hline.stands.of_isPrefix ⟨tail, htail.symm⟩
      · exact hstands item hmem
    · intro item hmem
      rcases List.mem_cons.mp hmem with rfl | hmem
      · exact hnode
      · exact hvalues item hmem

theorem ItemAt.placed {c after : Cursor} {line : LogicalLine} {rest : List LogicalLine} {n : Node} :
    ItemAt c line rest n after → c.lines = line :: rest → isItem line.text = true →
      c.Placed source → n.Placed source ∧ after.Placed source
  | .deeper _ _ _ found => fun h _ hc => found.placed (hc.pass h)
  | .empty _ _ => fun h _ hc => ⟨.empty, hc.pass h⟩
  | .behind hpresent _ found => fun h hitem hc => found.placed (hc.enter h hitem hpresent)
  | .value _ _ found => fun h hitem hc =>
    found.placed (hc.pass h) rfl ((hc.line_stands h).item_stands hitem)
      (.inl (trimStart_trimStart _))

theorem EntriesAt.placed {indent : Nat} {c after : Cursor} {list : List (Entry Node)} :
    EntriesAt indent c list after → c.Placed source →
      (∀ entry ∈ list, entry.Stands source) ∧
        (∀ entry ∈ list, entry.value.Placed source) ∧ after.Placed source
  | .stop _ => fun hc => ⟨by simp, by simp, hc⟩
  | .entry h hindent hkey first more => by
    intro hc
    have hline := hc.line_stands h
    obtain ⟨hnode, hmid⟩ := first.placed h hkey hc
    obtain ⟨hstands, hvalues, hafter⟩ := more.placed hmid
    refine ⟨?_, ?_, hafter⟩
    · intro entry hmem
      rcases List.mem_cons.mp hmem with rfl | hmem
      · subst hindent
        exact hline.entry_stands hkey
      · exact hstands entry hmem
    · intro entry hmem
      rcases List.mem_cons.mp hmem with rfl | hmem
      · exact hnode
      · exact hvalues entry hmem

theorem EntryAt.placed {c after : Cursor} {line : LogicalLine} {rest : List LogicalLine}
    {split : KeySplit} {n : Node} :
    EntryAt c line rest split n after → c.lines = line :: rest →
      splitKey line.text = some split → c.Placed source → n.Placed source ∧ after.Placed source
  | .deeper _ _ _ found => fun h _ hc => found.placed (hc.pass h)
  | .items _ hnext hindent hitem found => by
    intro h _ hc
    obtain ⟨hstands, hvalues, hafter⟩ := found.placed (hc.pass h)
    obtain ⟨more, hmore⟩ := List.head?_eq_some_iff.mp hnext
    exact ⟨.sequence (found.head_position hmore hindent hitem) hstands hvalues, hafter⟩
  | .empty _ _ => fun h _ hc => ⟨.empty, hc.pass h⟩
  | .value _ found => fun h hkey hc =>
    found.placed (hc.pass h) rfl ((hc.line_stands h).value_stands hkey)
      (.inl (trimStart_trimStart _))

theorem ValueAt.placed {text : List Char} {line column parent : Nat} {c after : Cursor} {n : Node} :
    ValueAt text line column parent c n after → c.Placed source → c.lastLine = line →
      StandsAt source ⟨line, column⟩ text → (trimStart text = text ∨ HasContent text) →
      n.Placed source ∧ after.Placed source
  | .deeper _ _ _ found => fun hc _ _ _ => found.placed hc
  | .empty _ _ => fun hc _ _ _ => ⟨.empty, hc⟩
  | .scalar hskip hpresent => by
    intro hc hlast hstands htext
    obtain ⟨skipped, happend, hstart, hcontent⟩ := skipProperties_append none column text
    rw [hskip] at happend hstart hcontent
    dsimp only at happend hstart hcontent
    rw [happend] at hstands
    rw [hstart]
    exact scalarAt_placed hc hlast hstands.right (hcontent htext hpresent)

end

/-- **The outline is placed.** Every node of the outline of a text, be it valid or
not, stands in the text where the outline says. -/
theorem scan_placed (source : List Char) : (Outline.scan source).root.Placed source :=
  ((node_at (.ofText source)).placed Cursor.ofText_placed).1

end Reading

end PlaybookStyle.Outline
