/-
The lines of an outline are nested.

An entry or item occupies the lines from its position to its last line. Within
one collection these ranges follow one another, and what is inside an entry or
item stays in its range (`Node.Nested`). The verbatim ranges follow one another in
the order in which they were met, and nothing starts inside one (`Node.Clear`).

The last line of a part is the last line that was passed when it was read, by
whatever inner part passed it. So what one reading does is told between two lines,
the last one passed before it and the last one passed behind it: all it finds lies
behind the first and up to the second, and so do the ranges it adds
(`NodeAt.nested`).

* `scan_nested` — the outline of any text is nested, its verbatim ranges follow
  one another, and it starts nothing inside them.
-/

import PlaybookStyle.Proofs.Outline.Nodes
import PlaybookStyle.Proofs.Outline.Ordering

namespace PlaybookStyle

/-! ### Ranges of lines -/

namespace LineRange

def Nonempty (r : LineRange) : Prop := r.first ≤ r.last

/-- All lines of the one range come before all lines of the other. -/
def Before (a b : LineRange) : Prop := a.last < b.first

def Within (inner outer : LineRange) : Prop :=
  outer.first ≤ inner.first ∧ inner.last ≤ outer.last

theorem Within.trans {a b c : LineRange} (hab : a.Within b) (hbc : b.Within c) : a.Within c :=
  ⟨Nat.le_trans hbc.1 hab.1, Nat.le_trans hab.2 hbc.2⟩

/-- Ranges that are not empty, follow one another and stay within a range. -/
structure Consecutive (range : LineRange) (parts : List LineRange) : Prop where
  nonempty : ∀ part ∈ parts, part.Nonempty
  order : parts.Pairwise Before
  within : ∀ part ∈ parts, part.Within range

namespace Consecutive

variable {range outer part : LineRange} {parts more : List LineRange}

theorem nil (range : LineRange) : Consecutive range [] := ⟨by simp, .nil, by simp⟩

theorem mono (h : Consecutive range parts) (within : range.Within outer) :
    Consecutive outer parts :=
  ⟨h.nonempty, h.order, fun part hpart => (h.within part hpart).trans within⟩

/-- Ranges up to a line, and then ranges behind it. -/
theorem append {low middle next high : Nat} (h : Consecutive ⟨low, middle⟩ parts)
    (hmore : Consecutive ⟨next, high⟩ more) (hlow : low ≤ next) (hnext : middle < next)
    (hhigh : middle ≤ high) : Consecutive ⟨low, high⟩ (parts ++ more) := by
  refine ⟨?_, List.pairwise_append.mpr ⟨h.order, hmore.order, ?_⟩, ?_⟩
  · intro part hpart
    exact (List.mem_append.mp hpart).elim (h.nonempty part) (hmore.nonempty part)
  · intro a ha b hb
    exact Nat.lt_of_le_of_lt (h.within a ha).2 (Nat.lt_of_lt_of_le hnext (hmore.within b hb).1)
  · intro part hpart
    rcases List.mem_append.mp hpart with hpart | hpart
    · exact (h.within part hpart).trans ⟨Nat.le_refl _, hhigh⟩
    · exact (hmore.within part hpart).trans ⟨hlow, Nat.le_refl _⟩

theorem singleton (nonempty : part.Nonempty) (within : part.Within range) :
    Consecutive range [part] :=
  ⟨by simpa, List.pairwise_singleton _ _, by simpa⟩

/-- A range from a line on, and then ranges behind it. -/
theorem cons {low high : Nat} (nonempty : part.Nonempty) (hlow : low ≤ part.first)
    (hhigh : part.last ≤ high) (h : Consecutive ⟨part.last + 1, high⟩ parts) :
    Consecutive ⟨low, high⟩ (part :: parts) := by
  have hfirst : Consecutive ⟨low, part.last⟩ [part] := singleton nonempty ⟨hlow, Nat.le_refl _⟩
  exact hfirst.append h (Nat.le_trans hlow (Nat.le_succ_of_le nonempty)) (Nat.lt_succ_self _) hhigh

end Consecutive

theorem contains_eq_false_iff {r : LineRange} {line : Nat} :
    r.contains line = false ↔ line < r.first ∨ r.last < line := by
  simp [contains, Classical.or_iff_not_imp_left]

end LineRange

namespace Outline

open LineRange

/-- The lines that an item occupies. -/
def Item.lines {α : Type} (item : Item α) : LineRange := ⟨item.position.line, item.endLine⟩

/-- The lines that an entry occupies. -/
def Entry.lines {α : Type} (entry : Entry α) : LineRange := ⟨entry.position.line, entry.endLine⟩

/-- The lines that a scalar occupies. -/
def Scalar.lines (s : Scalar) : LineRange := ⟨s.position.line, s.endLine⟩

/-! ### Nested nodes -/

/-- A node that stays within some lines: its parts follow one another, and what is
inside a part stays within the lines of the part. -/
inductive Node.Nested : LineRange → Node → Prop
  | empty {range : LineRange} : Nested range .empty
  | scalar {range : LineRange} {s : Scalar} (nonempty : s.lines.Nonempty)
      (within : s.lines.Within range) : Nested range (.scalar s)
  | sequence {range : LineRange} {position : Position} {items : List (Item Node)}
      (parts : Consecutive range (items.map Item.lines))
      (values : ∀ item ∈ items, Nested item.lines item.value) :
      Nested range (.sequence position items)
  | mapping {range : LineRange} {position : Position} {entries : List (Entry Node)}
      (parts : Consecutive range (entries.map Entry.lines))
      (values : ∀ entry ∈ entries, Nested entry.lines entry.value) :
      Nested range (.mapping position entries)

/-- Nothing in a node starts inside one of the ranges. -/
def Node.Clear (ranges : List LineRange) (n : Node) : Prop :=
  n.Everywhere fun place => ∀ range ∈ ranges, range.contains place.line = false

theorem Node.Everywhere.imp {P Q : Position → Prop} (h : ∀ place, P place → Q place) {n : Node}
    (hn : n.Everywhere P) : n.Everywhere Q := by
  induction hn with
  | empty => exact .empty
  | scalar hs => exact .scalar (h _ hs)
  | sequence positions _ ih => exact .sequence (fun item hitem => h _ (positions item hitem)) ih
  | mapping positions _ ih => exact .mapping (fun entry hentry => h _ (positions entry hentry)) ih

namespace Node.Nested

variable {range outer : LineRange} {n : Node}

theorem mono (h : n.Nested range) (within : range.Within outer) : n.Nested outer := by
  cases h with
  | empty => exact .empty
  | scalar nonempty hs => exact .scalar nonempty (hs.trans within)
  | sequence parts values => exact .sequence (parts.mono within) values
  | mapping parts values => exact .mapping (parts.mono within) values

/-- The entries of a nested node begin on its lines and have nested values. -/
theorem of_entries?_getD (h : n.Nested range) :
    ∀ entry ∈ n.entries?.getD [],
      range.first ≤ entry.lines.first ∧ entry.value.Nested entry.lines := by
  cases h with
  | mapping parts values =>
    exact fun entry hentry =>
      ⟨(parts.within _ (List.mem_map_of_mem hentry)).1, values entry hentry⟩
  | empty => simp [Node.entries?]
  | scalar => simp [Node.entries?]
  | sequence => simp [Node.entries?]

/-- All positions in a nested node are on its lines. -/
theorem everywhere (h : n.Nested range) :
    n.Everywhere fun place => range.first ≤ place.line ∧ place.line ≤ range.last := by
  induction h with
  | empty => exact .empty
  | scalar nonempty within =>
    exact .scalar ⟨within.1, Nat.le_trans nonempty within.2⟩
  | @sequence range position items parts _ ih =>
    have hwithin : ∀ item ∈ items, item.lines.Nonempty ∧ item.lines.Within range :=
      fun item hitem => ⟨parts.nonempty _ (List.mem_map_of_mem hitem),
        parts.within _ (List.mem_map_of_mem hitem)⟩
    refine .sequence (fun item hitem => ?_) fun item hitem => ?_
    · obtain ⟨hnonempty, hitemWithin⟩ := hwithin item hitem
      exact ⟨hitemWithin.1, Nat.le_trans hnonempty hitemWithin.2⟩
    · have hitemWithin := (hwithin item hitem).2
      exact (ih item hitem).imp fun place hplace =>
        ⟨Nat.le_trans hitemWithin.1 hplace.1, Nat.le_trans hplace.2 hitemWithin.2⟩
  | @mapping range position entries parts _ ih =>
    have hwithin : ∀ entry ∈ entries, entry.lines.Nonempty ∧ entry.lines.Within range :=
      fun entry hentry => ⟨parts.nonempty _ (List.mem_map_of_mem hentry),
        parts.within _ (List.mem_map_of_mem hentry)⟩
    refine .mapping (fun entry hentry => ?_) fun entry hentry => ?_
    · obtain ⟨hnonempty, hentryWithin⟩ := hwithin entry hentry
      exact ⟨hentryWithin.1, Nat.le_trans hnonempty hentryWithin.2⟩
    · have hentryWithin := (hwithin entry hentry).2
      exact (ih entry hentry).imp fun place hplace =>
        ⟨Nat.le_trans hentryWithin.1 hplace.1, Nat.le_trans hplace.2 hentryWithin.2⟩

end Node.Nested

namespace Node.Clear

variable {low high : Nat} {ranges more : List LineRange} {n : Node}

theorem append (h : n.Clear ranges) (hmore : n.Clear more) : n.Clear (ranges ++ more) := by
  induction h with
  | empty => exact .empty
  | scalar hs =>
    cases hmore with
    | scalar hs' => exact .scalar (List.forall_mem_append.mpr ⟨hs, hs'⟩)
  | sequence positions _ ih =>
    cases hmore with
    | sequence positions' values' =>
      exact .sequence
        (fun item hitem => List.forall_mem_append.mpr ⟨positions item hitem, positions' item hitem⟩)
        fun item hitem => ih item hitem (values' item hitem)
  | mapping positions _ ih =>
    cases hmore with
    | mapping positions' values' =>
      exact .mapping
        (fun entry hentry =>
          List.forall_mem_append.mpr ⟨positions entry hentry, positions' entry hentry⟩)
        fun entry hentry => ih entry hentry (values' entry hentry)

/-- Ranges behind the lines of a node. -/
theorem of_behind (h : n.Nested ⟨low, high⟩) (behind : ∀ range ∈ ranges, high < range.first) :
    n.Clear ranges :=
  h.everywhere.imp fun _ hplace range hrange =>
    contains_eq_false_iff.mpr (.inl (Nat.lt_of_le_of_lt hplace.2 (behind range hrange)))

/-- Ranges before the lines of a node. -/
theorem of_ahead (h : n.Nested ⟨low, high⟩) (ahead : ∀ range ∈ ranges, range.last < low) :
    n.Clear ranges :=
  h.everywhere.imp fun _ hplace range hrange =>
    contains_eq_false_iff.mpr (.inr (Nat.lt_of_lt_of_le (ahead range hrange) hplace.1))

end Node.Clear

/-! ### What a reading adds -/

/-- The ranges that a reading adds lie behind the line where it begins. -/
structure Added (first : Nat) (c after : Cursor) (ranges : List LineRange) : Prop where
  verbatim : after.verbatim = c.verbatim ++ ranges
  parts : Consecutive ⟨first + 1, after.lastLine⟩ ranges

/-- What is read from a line on stays on the lines up to the last one passed, and
starts nothing inside the ranges that are added. -/
structure Nests (first : Nat) (c : Cursor) (n : Node) (after : Cursor) : Prop where
  passes : c.lastLine ≤ after.lastLine
  nested : n.Nested ⟨first, after.lastLine⟩
  adds : ∃ ranges, Added first c after ranges ∧ n.Clear ranges

/-- The same for the parts of a collection, each with its lines and its node. -/
structure NestsAll (first : Nat) (c : Cursor) (parts : List (LineRange × Node)) (after : Cursor) :
    Prop where
  passes : c.lastLine ≤ after.lastLine
  lines : Consecutive ⟨first, after.lastLine⟩ (parts.map Prod.fst)
  nested : ∀ part ∈ parts, part.2.Nested part.1
  adds : ∃ ranges, Added first c after ranges ∧
    ∀ part ∈ parts, part.2.Clear ranges ∧ ∀ range ∈ ranges, range.contains part.1.first = false

section Nesting

variable {first : Nat} {c mid after : Cursor} {n : Node}

theorem Added.none : Added first c c [] := ⟨(List.append_nil _).symm, .nil _⟩

theorem Nests.empty : Nests first c .empty c := ⟨Nat.le_refl _, .empty, [], .none, .empty⟩

theorem Nests.mono {low : Nat} (h : Nests first c n after) (hlow : low ≤ first) :
    Nests low c n after := by
  obtain ⟨ranges, hadded, hclear⟩ := h.adds
  exact ⟨h.passes, h.nested.mono ⟨hlow, Nat.le_refl _⟩, ranges,
    ⟨hadded.verbatim, hadded.parts.mono ⟨Nat.succ_le_succ hlow, Nat.le_refl _⟩⟩, hclear⟩

/-- What is read behind a line, with the line itself. -/
theorem Nests.of_pass {line : LogicalLine} {rest : List LogicalLine}
    (h : Nests first (c.pass line rest) n after) (hline : c.lastLine ≤ line.number) :
    Nests first c n after := by
  obtain ⟨ranges, hadded, hclear⟩ := h.adds
  exact ⟨Nat.le_trans hline h.passes, h.nested, ranges, ⟨hadded.verbatim, hadded.parts⟩, hclear⟩

/-- What is read where a line is read again, with that line. -/
theorem Nests.of_enter {line : LogicalLine} {rest : List LogicalLine}
    (h : Nests first (c.enter line rest) n after) : Nests first c n after := by
  obtain ⟨ranges, hadded, hclear⟩ := h.adds
  exact ⟨h.passes, h.nested, ranges, ⟨hadded.verbatim, hadded.parts⟩, hclear⟩

theorem NestsAll.nil : NestsAll first c [] c :=
  ⟨Nat.le_refl _, .nil _, by simp, [], .none, by simp⟩

/-- One part and then the others: what the part adds ends before the others start,
and what the others add begins behind it. -/
theorem NestsAll.cons {line : Nat} {rest : List (LineRange × Node)} (hfirst : first ≤ line)
    (hpassed : line ≤ mid.lastLine) (h : Nests line c n mid)
    (more : NestsAll (mid.lastLine + 1) mid rest after) :
    NestsAll first c ((⟨line, mid.lastLine⟩, n) :: rest) after := by
  obtain ⟨ranges, hadded, hclear⟩ := h.adds
  obtain ⟨added, hmore, hrest⟩ := more.adds
  have hbehind : ∀ range ∈ added, mid.lastLine < range.first := fun range hrange =>
    Nat.lt_of_succ_lt (hmore.parts.within range hrange).1
  have hahead : ∀ range ∈ ranges, range.last < mid.lastLine + 1 := fun range hrange =>
    Nat.lt_succ_of_le (hadded.parts.within range hrange).2
  have hranges : Consecutive ⟨first + 1, mid.lastLine⟩ ranges :=
    hadded.parts.mono ⟨Nat.succ_le_succ hfirst, Nat.le_refl _⟩
  have hlines : Consecutive ⟨first + 1, after.lastLine⟩ (ranges ++ added) :=
    hranges.append hmore.parts (by omega) (by omega) more.passes
  refine ⟨Nat.le_trans h.passes more.passes, .cons hpassed hfirst more.passes more.lines, ?_,
    ranges ++ added, ⟨by rw [hmore.verbatim, hadded.verbatim, List.append_assoc], hlines⟩, ?_⟩
  · intro part hpart
    rcases List.mem_cons.mp hpart with rfl | hpart
    · exact h.nested
    · exact more.nested part hpart
  · intro part hpart
    rcases List.mem_cons.mp hpart with rfl | hpart
    · refine ⟨hclear.append (.of_behind h.nested hbehind), List.forall_mem_append.mpr ⟨?_, ?_⟩⟩
      · exact fun range hrange =>
          contains_eq_false_iff.mpr (.inl (hadded.parts.within range hrange).1)
      · exact fun range hrange =>
          contains_eq_false_iff.mpr (.inl (Nat.lt_of_le_of_lt hpassed (hbehind range hrange)))
    · have hwithin := more.lines.within _ (List.mem_map_of_mem hpart)
      have hnested := (more.nested part hpart).mono hwithin
      obtain ⟨hpartClear, hstart⟩ := hrest part hpart
      refine ⟨(Node.Clear.of_ahead hnested hahead).append hpartClear,
        List.forall_mem_append.mpr ⟨?_, hstart⟩⟩
      exact fun range hrange =>
        contains_eq_false_iff.mpr (.inr (Nat.lt_of_lt_of_le (hahead range hrange) hwithin.1))

/-- The items of a sequence with their lines and nodes. -/
def itemParts (items : List (Item Node)) : List (LineRange × Node) :=
  items.map fun item => (item.lines, item.value)

/-- The entries of a mapping with their lines and nodes. -/
def entryParts (entries : List (Entry Node)) : List (LineRange × Node) :=
  entries.map fun entry => (entry.lines, entry.value)

theorem NestsAll.sequence {items : List (Item Node)} (h : NestsAll first c (itemParts items) after)
    (position : Position) : Nests first c (.sequence position items) after := by
  obtain ⟨ranges, hadded, hclear⟩ := h.adds
  have hparts : ∀ item ∈ items, (item.lines, item.value) ∈ itemParts items :=
    fun item hitem => List.mem_map_of_mem hitem
  have hlines : (itemParts items).map Prod.fst = items.map Item.lines := by simp [itemParts]
  exact ⟨h.passes, .sequence (hlines ▸ h.lines) fun item hitem => h.nested _ (hparts item hitem),
    ranges, hadded, .sequence (fun item hitem => (hclear _ (hparts item hitem)).2)
      fun item hitem => (hclear _ (hparts item hitem)).1⟩

theorem NestsAll.mapping {entries : List (Entry Node)}
    (h : NestsAll first c (entryParts entries) after) (position : Position) :
    Nests first c (.mapping position entries) after := by
  obtain ⟨ranges, hadded, hclear⟩ := h.adds
  have hparts : ∀ entry ∈ entries, (entry.lines, entry.value) ∈ entryParts entries :=
    fun entry hentry => List.mem_map_of_mem hentry
  have hlines : (entryParts entries).map Prod.fst = entries.map Entry.lines := by simp [entryParts]
  exact ⟨h.passes, .mapping (hlines ▸ h.lines) fun entry hentry => h.nested _ (hparts entry hentry),
    ranges, hadded, .mapping (fun entry hentry => (hclear _ (hparts entry hentry)).2)
      fun entry hentry => (hclear _ (hparts entry hentry)).1⟩

theorem NestsAll.first_le {parts : List (LineRange × Node)} (h : NestsAll first c parts after)
    {part : LineRange × Node} (hpart : part ∈ parts) : part.1.first ≤ after.lastLine :=
  Nat.le_trans (h.lines.nonempty _ (List.mem_map_of_mem hpart))
    (h.lines.within _ (List.mem_map_of_mem hpart)).2

/-! ### Every rule nests -/

variable {source : List Char} {line : LogicalLine} {rest : List LogicalLine}

theorem Cursor.Placed.lastLine_lt_head (hc : c.Placed source) :
    ∀ line ∈ c.lines.head?, c.lastLine < line.number := by
  intro line hline
  obtain ⟨rest, h⟩ := List.head?_eq_some_iff.mp hline
  exact hc.lastLine_lt h

/-- A scalar that begins on the last line passed takes the lines behind it. -/
theorem scalarAt_nests {text : List Char} (position : Position) {parent : Nat}
    {tag? : Option (List Char)} (hc : c.Placed source) (hline : c.lastLine = position.line) :
    Nests position.line c (scalarAt tag? text position parent c).1.1
      (scalarAt tag? text position parent c).1.2 := by
  have hpasses : c.lastLine ≤ (scalarAt tag? text position parent c).1.2.lastLine :=
    scalarAt_lastLine_le hc
  have hmax : max (scalarAt tag? text position parent c).1.2.lastLine position.line =
      (scalarAt tag? text position parent c).1.2.lastLine := by omega
  refine ⟨hpasses, .scalar (Nat.le_max_right _ _) ⟨Nat.le_refl _, Nat.le_of_eq hmax⟩, ?_⟩
  by_cases hlonger : position.line < (scalarAt tag? text position parent c).1.2.lastLine
  · refine ⟨[⟨position.line + 1, (scalarAt tag? text position parent c).1.2.lastLine⟩],
      ⟨if_pos hlonger, .singleton hlonger ⟨Nat.le_refl _, Nat.le_refl _⟩⟩, .scalar ?_⟩
    exact List.forall_mem_singleton.mpr (contains_eq_false_iff.mpr (.inl (Nat.lt_succ_self _)))
  · exact ⟨[], ⟨(if_neg hlonger).trans (List.append_nil _).symm, .nil _⟩, .scalar (by simp)⟩

mutual

/-- What is read at a cursor also passes the line that it begins with. -/
theorem NodeAt.nests {c after : Cursor} {n : Node} :
    NodeAt c n after → c.Placed source → ∀ first, c.lastLine < first →
      (∀ line ∈ c.lines.head?, first ≤ line.number) →
        Nests first c n after ∧ ∀ line ∈ c.lines.head?, line.number ≤ after.lastLine
  | .nothing h => fun _ _ _ _ => ⟨.empty, by simp [h]⟩
  | .sequence h hitem found => by
    intro hc first hlast hhead
    have hall := found.nests hc first hlast hhead
    obtain ⟨item, hitem, hposition⟩ := Option.map_eq_some_iff.mp (found.head_position h rfl hitem)
    have hpart : (item.lines, item.value) ∈ itemParts _ :=
      List.mem_map_of_mem (List.mem_of_mem_head? hitem)
    have hfirst := hall.first_le hpart
    rw [Item.lines, hposition] at hfirst
    exact ⟨hall.sequence _, by simpa [h] using hfirst⟩
  | .mapping h _ hkey found => by
    intro hc first hlast hhead
    have hall := found.nests hc first hlast hhead
    obtain ⟨entry, hentry, hposition⟩ := Option.map_eq_some_iff.mp (found.head_position h rfl hkey)
    have hpart : (entry.lines, entry.value) ∈ entryParts _ :=
      List.mem_map_of_mem (List.mem_of_mem_head? hentry)
    have hfirst := hall.first_le hpart
    rw [Entry.lines, hposition] at hfirst
    exact ⟨hall.mapping _, by simpa [h] using hfirst⟩
  | .value h _ _ found => by
    intro hc first _ hhead
    rw [h, List.head?_cons] at hhead ⊢
    have hnests := found.nests (hc.pass h) rfl
    refine ⟨(hnests.of_pass (hc.lastLine_le_pass h)).mono (hhead _ rfl), ?_⟩
    rintro _ ⟨⟩
    exact hnests.passes

theorem ItemsAt.nests {indent : Nat} {c after : Cursor} {list : List (Item Node)} :
    ItemsAt indent c list after → c.Placed source → ∀ first, c.lastLine < first →
      (∀ line ∈ c.lines.head?, first ≤ line.number) → NestsAll first c (itemParts list) after
  | .stop _ => fun _ _ _ _ => .nil
  | .item h _ hitem first more => by
    intro hc low _ hhead
    obtain ⟨hnests, hpassed⟩ := first.nests h hitem hc
    have hmid := (first.placed h hitem hc).2
    exact .cons (hhead _ (by rw [h]; rfl)) hpassed hnests
      (more.nests hmid _ (Nat.lt_succ_self _) hmid.lastLine_lt_head)

theorem ItemAt.nests {c after : Cursor} {line : LogicalLine} {rest : List LogicalLine} {n : Node} :
    ItemAt c line rest n after → c.lines = line :: rest → isItem line.text = true →
      c.Placed source → Nests line.number c n after ∧ line.number ≤ after.lastLine
  | .deeper _ _ _ found => by
    intro h _ hc
    have hpass := hc.pass h
    have hnests := (found.nests hpass (line.number + 1) (Nat.lt_succ_self _)
      hpass.lastLine_lt_head).1
    exact ⟨(hnests.of_pass (hc.lastLine_le_pass h)).mono (Nat.le_succ _), hnests.passes⟩
  | .empty _ _ => fun h _ hc => ⟨Nests.empty.of_pass (hc.lastLine_le_pass h), Nat.le_refl _⟩
  | .behind hpresent _ found => by
    intro h hitem hc
    obtain ⟨hnests, hpassed⟩ := found.nests (hc.enter h hitem hpresent) line.number
      (hc.lastLine_lt h) (by rintro next ⟨⟩; exact Nat.le_refl _)
    exact ⟨hnests.of_enter, hpassed line.behindDash rfl⟩
  | .value _ _ found => by
    intro h _ hc
    have hnests := found.nests (hc.pass h) rfl
    exact ⟨hnests.of_pass (hc.lastLine_le_pass h), hnests.passes⟩

theorem EntriesAt.nests {indent : Nat} {c after : Cursor} {list : List (Entry Node)} :
    EntriesAt indent c list after → c.Placed source → ∀ first, c.lastLine < first →
      (∀ line ∈ c.lines.head?, first ≤ line.number) → NestsAll first c (entryParts list) after
  | .stop _ => fun _ _ _ _ => .nil
  | .entry h _ hkey first more => by
    intro hc low _ hhead
    have hnests := first.nests h hc
    have hmid := (first.placed h hkey hc).2
    exact .cons (hhead _ (by rw [h]; rfl)) hnests.passes (hnests.of_pass (hc.lastLine_le_pass h))
      (more.nests hmid _ (Nat.lt_succ_self _) hmid.lastLine_lt_head)

/-- The value of an entry is read when the line of its key has been passed. -/
theorem EntryAt.nests {c after : Cursor} {line : LogicalLine} {rest : List LogicalLine}
    {split : KeySplit} {n : Node} :
    EntryAt c line rest split n after → c.lines = line :: rest → c.Placed source →
      Nests line.number (c.pass line rest) n after
  | .deeper _ _ _ found => by
    intro h hc
    have hpass := hc.pass h
    exact (found.nests hpass (line.number + 1) (Nat.lt_succ_self _)
      hpass.lastLine_lt_head).1.mono (Nat.le_succ _)
  | .items _ _ _ _ found => by
    intro h hc
    have hpass := hc.pass h
    exact ((found.nests hpass (line.number + 1) (Nat.lt_succ_self _)
      hpass.lastLine_lt_head).sequence _).mono (Nat.le_succ _)
  | .empty _ _ => fun _ _ => .empty
  | .value _ found => fun h hc => found.nests (hc.pass h) rfl

theorem ValueAt.nests {text : List Char} {line column parent : Nat} {c after : Cursor}
    {n : Node} :
    ValueAt text line column parent c n after → c.Placed source → c.lastLine = line →
      Nests line c n after
  | .deeper _ _ _ found => by
    intro hc hline
    subst hline
    exact (found.nests hc (c.lastLine + 1) (Nat.lt_succ_self _) hc.lastLine_lt_head).1.mono
      (Nat.le_succ _)
  | .empty _ _ => fun _ _ => .empty
  | .scalar _ _ => fun hc hline => scalarAt_nests ⟨_, _⟩ hc hline

end

/-- **The outline is nested.** In the outline of any text, be it valid or not, the
entries of every mapping and the items of every sequence occupy lines that follow
one another, and everything inside an entry or item stays on its lines. The
verbatim ranges follow one another in the order in which they were met, and no
item, entry or scalar starts on a line of one of them. -/
theorem scan_nested (source : List Char) :
    (∃ range, (Outline.scan source).root.Nested range) ∧
      (∀ range ∈ (Outline.scan source).verbatim, range.Nonempty) ∧
      (Outline.scan source).verbatim.Pairwise Before ∧
      (Outline.scan source).root.Clear (Outline.scan source).verbatim := by
  have hplaced : (Cursor.ofText source).Placed source := Cursor.ofText_placed
  have hnests := ((node_at (.ofText source)).nests hplaced 1 Nat.one_pos hplaced.lastLine_lt_head).1
  obtain ⟨ranges, hadded, hclear⟩ := hnests.adds
  have hverbatim : (Outline.scan source).verbatim = ranges :=
    hadded.verbatim.trans (List.nil_append _)
  rw [hverbatim]
  exact ⟨⟨_, hnests.nested⟩, hadded.parts.nonempty, hadded.parts.order, hclear⟩

end Nesting

end Outline

end PlaybookStyle
