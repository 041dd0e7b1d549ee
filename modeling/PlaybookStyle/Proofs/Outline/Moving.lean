/-
Outlines whose lines move.

Text that is put between the lines of a source, or before them, moves the lines
that follow and changes nothing else. The outline moves with them: a node is read
at moved lines as it is read at the old ones, with every line number in it moved.
It is no matter how far the lines move, as long as none passes another; nor does
it matter what was read before.
-/

import Mathlib.Order.MinMax
import PlaybookStyle.Proofs.Outline.Reading
import PlaybookStyle.Proofs.Outline.Tokens

namespace PlaybookStyle

/-! ### Moved places -/

/-- A place whose line moves. -/
def Position.moved (f : Nat → Nat) (p : Position) : Position := ⟨f p.line, p.column⟩

/-- The lines of a scalar behind its first, moved with that line. -/
def LineRange.moved (f : Nat → Nat) (r : LineRange) : LineRange := ⟨f (r.first - 1) + 1, f r.last⟩

theorem LineRange.contains_iff {r : LineRange} {n : Nat} :
    r.contains n = true ↔ r.first ≤ n ∧ n ≤ r.last := by
  rw [contains, Bool.and_eq_true, decide_eq_true_eq, decide_eq_true_eq]

/-- A moved line lies among moved lines exactly if it did before. -/
theorem LineRange.contains_moved {f : Nat → Nat} (hf : StrictMono f) (r : LineRange) {n : Nat}
    (hn : 0 < n) : (r.moved f).contains (f n) = r.contains n := by
  rw [Bool.eq_iff_iff, contains_iff, contains_iff, moved, hf.le_iff_le, Nat.succ_le_iff,
    hf.lt_iff_lt]
  omega

namespace Outline

def Scalar.moved (f : Nat → Nat) (s : Scalar) : Scalar :=
  { s with position := s.position.moved f, endLine := f s.endLine }

mutual

def Node.moved (f : Nat → Nat) : Node → Node
  | .mapping position entries => .mapping (position.moved f) (entriesMoved f entries)
  | .sequence position items => .sequence (position.moved f) (itemsMoved f items)
  | .scalar s => .scalar (s.moved f)
  | .empty => .empty

def entriesMoved (f : Nat → Nat) : List (Entry Node) → List (Entry Node)
  | [] => []
  | entry :: rest => entryMoved f entry :: entriesMoved f rest

def entryMoved (f : Nat → Nat) : Entry Node → Entry Node
  | ⟨key, position, spacing, value, endLine⟩ =>
    ⟨key, position.moved f, spacing, value.moved f, f endLine⟩

def itemsMoved (f : Nat → Nat) : List (Item Node) → List (Item Node)
  | [] => []
  | item :: rest => itemMoved f item :: itemsMoved f rest

def itemMoved (f : Nat → Nat) : Item Node → Item Node
  | ⟨position, value, endLine⟩ => ⟨position.moved f, value.moved f, f endLine⟩

end

section Moved

variable (f : Nat → Nat)

theorem entriesMoved_eq_map (entries : List (Entry Node)) :
    entriesMoved f entries = entries.map (entryMoved f) := by
  induction entries with
  | nil => rw [entriesMoved, List.map_nil]
  | cons entry rest ih => rw [entriesMoved, ih, List.map_cons]

theorem itemsMoved_eq_map (items : List (Item Node)) :
    itemsMoved f items = items.map (itemMoved f) := by
  induction items with
  | nil => rw [itemsMoved, List.map_nil]
  | cons item rest ih => rw [itemsMoved, ih, List.map_cons]

@[simp] theorem key_entryMoved (entry : Entry Node) : (entryMoved f entry).key = entry.key := by
  rw [entryMoved]

@[simp] theorem position_entryMoved (entry : Entry Node) :
    (entryMoved f entry).position = entry.position.moved f := by rw [entryMoved]

@[simp] theorem spacing_entryMoved (entry : Entry Node) :
    (entryMoved f entry).spacing = entry.spacing := by rw [entryMoved]

@[simp] theorem value_entryMoved (entry : Entry Node) :
    (entryMoved f entry).value = entry.value.moved f := by rw [entryMoved]

@[simp] theorem position_itemMoved (item : Item Node) :
    (itemMoved f item).position = item.position.moved f := by rw [itemMoved]

@[simp] theorem value_itemMoved (item : Item Node) :
    (itemMoved f item).value = item.value.moved f := by rw [itemMoved]

@[simp] theorem endLine_itemMoved (item : Item Node) :
    (itemMoved f item).endLine = f item.endLine := by rw [itemMoved]

@[simp] theorem entries?_moved (n : Node) :
    (n.moved f).entries? = n.entries?.map (List.map (entryMoved f)) := by
  cases n with
  | mapping position entries =>
    rw [Node.moved, entriesMoved_eq_map]
    rfl
  | _ => rw [Node.moved]; rfl

@[simp] theorem scalar?_moved (n : Node) :
    (n.moved f).scalar? = n.scalar?.map (Scalar.moved f) := by
  cases n <;> rw [Node.moved] <;> rfl

end Moved

/-! ### Moved lines -/

def LogicalLine.moved (f : Nat → Nat) (line : LogicalLine) : LogicalLine :=
  { line with number := f line.number }

theorem LogicalLine.ofLine?_moved (f : Nat → Nat) (number : Nat) (line : List Char) :
    ofLine? (f number) line = (ofLine? number line).map (moved f) := by
  rw [ofLine?_eq, ofLine?_eq]
  repeat' split
  all_goals rfl

/-- Logical lines are the same wherever their lines stand. -/
theorem LogicalLine.ofLines_moved {f : Nat → Nat} {low high : Nat} {lines : List (List Char)}
    (h : ∀ i < lines.length, f (low + i) = high + i) :
    ofLines high lines = (ofLines low lines).map (moved f) := by
  induction lines generalizing low high with
  | nil => rfl
  | cons line rest ih =>
    have hfirst : f low = high := h 0 (Nat.succ_pos _)
    have hrest : ofLines (high + 1) rest = (ofLines (low + 1) rest).map (moved f) := by
      refine ih fun i hi => ?_
      rw [Nat.add_assoc, Nat.add_assoc, Nat.add_comm 1]
      exact h (i + 1) (Nat.succ_lt_succ hi)
    rw [ofLines, ofLines, hrest, ← hfirst, ofLine?_moved, List.map_append, Option.toList_map]

/-- A cursor at moved lines, behind verbatim ranges that were there before. -/
def Cursor.moved (f : Nat → Nat) (before : List LineRange) (c : Cursor) : Cursor where
  lines := c.lines.map (LogicalLine.moved f)
  lastLine := f c.lastLine
  verbatim := before ++ c.verbatim.map (LineRange.moved f)

section Lines

variable {f : Nat → Nat} {before : List LineRange} {c : Cursor} {line : LogicalLine}
  {rest : List LogicalLine}

theorem Cursor.lines_moved (h : c.lines = line :: rest) :
    (c.moved f before).lines = line.moved f :: rest.map (LogicalLine.moved f) := by
  rw [Cursor.moved, h, List.map_cons]

theorem Cursor.passVerbatim_moved (hf : StrictMono f) (before : List LineRange) (c : Cursor)
    (first : Nat) (passed rest : List LogicalLine) :
    (c.moved f before).passVerbatim (f first) (passed.map (LogicalLine.moved f))
        (rest.map (LogicalLine.moved f)) = (c.passVerbatim first passed rest).moved f before := by
  have hlast : ((passed.map (LogicalLine.moved f)).getLast?.map LogicalLine.number).getD
      (f c.lastLine) = f ((passed.getLast?.map LogicalLine.number).getD c.lastLine) := by
    rw [List.getLast?_map]
    cases passed.getLast? <;> rfl
  simp only [Cursor.passVerbatim, Cursor.moved, hlast, hf.lt_iff_lt]
  split
  · simp [LineRange.moved]
  · rfl

theorem spanDeeper_moved (indent : Nat) (lines : List LogicalLine) :
    spanDeeper indent (lines.map (LogicalLine.moved f)) =
      ((spanDeeper indent lines).1.map (LogicalLine.moved f),
        (spanDeeper indent lines).2.map (LogicalLine.moved f)) := by
  induction lines with
  | nil => rfl
  | cons line rest ih =>
    rw [List.map_cons, spanDeeper, spanDeeper, ih]
    by_cases h : indent < line.indent
    · rw [if_pos h, if_pos (show indent < (line.moved f).indent from h)]
      rfl
    · rw [if_neg h, if_neg (show ¬indent < (line.moved f).indent from h)]
      rfl

theorem joinWhile_moved (more : List Char → Bool) (text : List Char) (lines : List LogicalLine) :
    joinWhile more text (lines.map (LogicalLine.moved f)) =
      ((joinWhile more text lines).1, (joinWhile more text lines).2.1.map (LogicalLine.moved f),
        (joinWhile more text lines).2.2.map (LogicalLine.moved f)) := by
  induction lines generalizing text with
  | nil => rfl
  | cons line rest ih =>
    rw [List.map_cons, joinWhile, joinWhile]
    split
    · rw [show (line.moved f).text = line.text from rfl, ih]
      rfl
    · rfl

theorem scalarText_moved (text : List Char) (parent : Nat) (lines : List LogicalLine) :
    scalarText text parent (lines.map (LogicalLine.moved f)) =
      ((scalarText text parent lines).1,
        (scalarText text parent lines).2.1.map (LogicalLine.moved f),
        (scalarText text parent lines).2.2.map (LogicalLine.moved f)) := by
  unfold scalarText
  cases text with
  | nil => rfl
  | cons first more =>
    dsimp only
    split
    · simp only [spanDeeper_moved, blockScalarText, List.map_map]
      rfl
    · split
      · simp only [joinWhile_moved]
      · split
        · simp only [joinWhile_moved]
        · simp only [spanDeeper_moved, plainText, List.flatMap_map]
          rfl

theorem scalarAt_moved (hf : StrictMono f) (before : List LineRange) (tag? : Option (List Char))
    (text : List Char) (position : Position) (parent : Nat) (c : Cursor) :
    (scalarAt tag? text (position.moved f) parent (c.moved f before)).1 =
      ((scalarAt tag? text position parent c).1.1.moved f,
        (scalarAt tag? text position parent c).1.2.moved f before) := by
  have htext : scalarText text parent (c.moved f before).lines = _ :=
    scalarText_moved text parent c.lines
  have hafter := Cursor.passVerbatim_moved hf before c position.line
    (scalarText text parent c.lines).2.1 (scalarText text parent c.lines).2.2
  simp only [scalarAt, htext]
  rw [show (position.moved f).line = f position.line from rfl, hafter, Node.moved, Scalar.moved]
  dsimp only
  rw [hf.monotone.map_max]
  rfl

end Lines

/-! ### Reading at moved lines -/

section Reading

variable {f : Nat → Nat} {before : List LineRange}

theorem head?_moved {lines : List LogicalLine} {next : LogicalLine} (h : lines.head? = some next) :
    (lines.map (LogicalLine.moved f)).head? = some (next.moved f) := by rw [List.head?_map, h]; rfl

theorem forall_head?_moved {lines : List LogicalLine} {P : LogicalLine → Prop}
    (h : ∀ line ∈ lines.head?, P (line.moved f)) :
    ∀ line ∈ (lines.map (LogicalLine.moved f)).head?, P line := by
  intro line hline
  rw [List.head?_map] at hline
  obtain ⟨old, hold, rfl⟩ := Option.map_eq_some_iff.mp hline
  exact h old hold

mutual

theorem NodeAt.moved {c after : Cursor} {n : Node} (hf : StrictMono f) :
    NodeAt c n after → NodeAt (c.moved f before) (n.moved f) (after.moved f before)
  | .nothing h => by
    rw [Node.moved]
    exact .nothing (by rw [Cursor.moved, h, List.map_nil])
  | .sequence h hitem found => by
    rw [Node.moved, itemsMoved_eq_map]
    exact .sequence (Cursor.lines_moved h) hitem (found.moved hf)
  | .mapping h hitem hkey found => by
    rw [Node.moved, entriesMoved_eq_map]
    exact .mapping (Cursor.lines_moved h) hitem hkey (found.moved hf)
  | .value h hitem hkey found => .value (Cursor.lines_moved h) hitem hkey (found.moved hf)

theorem ItemsAt.moved {indent : Nat} {c after : Cursor} {list : List (Item Node)}
    (hf : StrictMono f) :
    ItemsAt indent c list after →
      ItemsAt indent (c.moved f before) (list.map (itemMoved f)) (after.moved f before)
  | .stop h => .stop (forall_head?_moved h)
  | .item h hindent hitem first more => by
    rw [List.map_cons, itemMoved]
    exact .item (Cursor.lines_moved h) hindent hitem (first.moved hf) (more.moved hf)

theorem ItemAt.moved {c after : Cursor} {line : LogicalLine} {rest : List LogicalLine} {n : Node}
    (hf : StrictMono f) :
    ItemAt c line rest n after →
      ItemAt (c.moved f before) (line.moved f) (rest.map (LogicalLine.moved f)) (n.moved f)
        (after.moved f before)
  | .deeper habsent hnext hdeeper found =>
    .deeper habsent (head?_moved hnext) hdeeper (found.moved hf)
  | .empty habsent hnext => by
    rw [Node.moved]
    exact .empty habsent (forall_head?_moved hnext)
  | .behind hpresent hcollection found => .behind hpresent hcollection (found.moved hf)
  | .value hpresent hcollection found => .value hpresent hcollection (found.moved hf)

theorem EntriesAt.moved {indent : Nat} {c after : Cursor} {list : List (Entry Node)}
    (hf : StrictMono f) :
    EntriesAt indent c list after →
      EntriesAt indent (c.moved f before) (list.map (entryMoved f)) (after.moved f before)
  | .stop h => .stop (forall_head?_moved h)
  | .entry h hindent hkey first more => by
    rw [List.map_cons, entryMoved]
    exact .entry (Cursor.lines_moved h) hindent hkey (first.moved hf) (more.moved hf)

theorem EntryAt.moved {c after : Cursor} {line : LogicalLine} {rest : List LogicalLine}
    {split : KeySplit} {n : Node} (hf : StrictMono f) :
    EntryAt c line rest split n after →
      EntryAt (c.moved f before) (line.moved f) (rest.map (LogicalLine.moved f)) split (n.moved f)
        (after.moved f before)
  | .deeper habsent hnext hdeeper found =>
    .deeper habsent (head?_moved hnext) hdeeper (found.moved hf)
  | .items habsent hnext hindent hitem found => by
    rw [Node.moved, itemsMoved_eq_map]
    exact .items habsent (head?_moved hnext) hindent hitem (found.moved hf)
  | .empty habsent hnext => by
    rw [Node.moved]
    exact .empty habsent (forall_head?_moved hnext)
  | .value hpresent found => .value hpresent (found.moved hf)

theorem ValueAt.moved {text : List Char} {line column parent : Nat} {c after : Cursor} {n : Node}
    (hf : StrictMono f) :
    ValueAt text line column parent c n after →
      ValueAt text (f line) column parent (c.moved f before) (n.moved f) (after.moved f before)
  | .deeper habsent hnext hdeeper found =>
    .deeper habsent (head?_moved hnext) hdeeper (found.moved hf)
  | .empty habsent hnext => by
    rw [Node.moved]
    exact .empty habsent (forall_head?_moved hnext)
  | @ValueAt.scalar _ rest line _ parent start c tag? hskip hpresent => by
    have hscalar := scalarAt_moved hf before tag? rest ⟨line, start⟩ parent c
    have hread : ValueAt _ (f line) _ parent (c.moved f before)
        (scalarAt tag? rest (Position.moved f ⟨line, start⟩) parent (c.moved f before)).1.1
        (scalarAt tag? rest (Position.moved f ⟨line, start⟩) parent (c.moved f before)).1.2 :=
      .scalar hskip hpresent
    rwa [hscalar] at hread

end

end Reading

end Outline

end PlaybookStyle
