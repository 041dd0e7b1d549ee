/-
The entries of a mapping follow one another in the source.

An entry is found on the first line that is left, and reading its value passes
that line. So the lines of the entries of one mapping grow from entry to entry,
at every depth of an outline (`Node.Ordered`). What carries the proof is that the
last line passed never falls behind (`NodeAt.ordered`).

* `scan_ordered` — the outline of any text is ordered.
-/

import PlaybookStyle.Proofs.Outline.Placement

namespace PlaybookStyle.Outline

open Text

/-- The entries of every mapping in a node begin on later and later lines. -/
inductive Node.Ordered : Node → Prop
  | empty : Ordered .empty
  | scalar {s : Scalar} : Ordered (.scalar s)
  | sequence {position : Position} {items : List (Item Node)}
      (values : ∀ item ∈ items, Ordered item.value) : Ordered (.sequence position items)
  | mapping {position : Position} {entries : List (Entry Node)}
      (lines : (entries.map (·.position.line)).Pairwise (· < ·))
      (values : ∀ entry ∈ entries, Ordered entry.value) : Ordered (.mapping position entries)

theorem Node.Ordered.of_entries?_getD {n : Node} (h : n.Ordered) :
    ((n.entries?.getD []).map (·.position.line)).Pairwise (· < ·) ∧
      ∀ entry ∈ n.entries?.getD [], entry.value.Ordered := by
  cases h with
  | mapping lines values => exact ⟨lines, values⟩
  | empty => exact ⟨.nil, by simp [Node.entries?]⟩
  | scalar => exact ⟨.nil, by simp [Node.entries?]⟩
  | sequence => exact ⟨.nil, by simp [Node.entries?]⟩

/-- What the entries that were read behind a line look like: they begin on later
and later lines, all behind that line. -/
structure EntriesOrdered (last : Nat) (entries : List (Entry Node)) : Prop where
  lines : (last :: entries.map (·.position.line)).Pairwise (· < ·)
  values : ∀ entry ∈ entries, entry.value.Ordered

theorem EntriesOrdered.nil (last : Nat) : EntriesOrdered last [] :=
  ⟨List.pairwise_singleton _ _, by simp⟩

theorem EntriesOrdered.cons {last next : Nat} {entry : Entry Node} {rest : List (Entry Node)}
    (value : entry.value.Ordered) (h : EntriesOrdered next rest) (first : last < entry.position.line)
    (passed : entry.position.line ≤ next) : EntriesOrdered last (entry :: rest) := by
  obtain ⟨hnext, hrest⟩ := List.pairwise_cons.mp h.lines
  refine ⟨?_, ?_⟩
  · rw [List.map_cons, List.pairwise_cons, List.pairwise_cons]
    refine ⟨?_, fun line hline => Nat.lt_of_le_of_lt passed (hnext line hline), hrest⟩
    intro line hline
    rcases List.mem_cons.mp hline with rfl | hline
    · exact first
    · exact Nat.lt_trans first (Nat.lt_of_le_of_lt passed (hnext line hline))
  · intro e he
    rcases List.mem_cons.mp he with rfl | he
    · exact value
    · exact h.values e he

theorem EntriesOrdered.node {last : Nat} {entries : List (Entry Node)}
    (h : EntriesOrdered last entries) (position : Position) :
    (Node.mapping position entries).Ordered :=
  .mapping (List.pairwise_cons.mp h.lines).2 h.values

section Reading

variable {source : List Char} {c after : Cursor} {line : LogicalLine} {rest : List LogicalLine}

/-- The first line that is left stands behind the last line passed. -/
theorem Cursor.Placed.lastLine_lt (hc : c.Placed source) (h : c.lines = line :: rest) :
    c.lastLine < line.number :=
  (List.pairwise_cons.mp hc.ordered).1 _ (by simp [h])

theorem Cursor.Placed.lastLine_le_pass (hc : c.Placed source) (h : c.lines = line :: rest) :
    c.lastLine ≤ (c.pass line rest).lastLine :=
  Nat.le_of_lt (hc.lastLine_lt h)

theorem scalarAt_lastLine_le {text : List Char} {position : Position} {parent : Nat}
    {tag? : Option (List Char)} (hc : c.Placed source) :
    c.lastLine ≤ (scalarAt tag? text position parent c).1.2.lastLine :=
  (hc.passVerbatim (scalarText_append text parent c.lines) position.line).2.1

mutual

theorem NodeAt.ordered {c after : Cursor} {n : Node} :
    NodeAt c n after → c.Placed source → n.Ordered ∧ c.lastLine ≤ after.lastLine
  | .nothing _ => fun _ => ⟨.empty, Nat.le_refl _⟩
  | .sequence _ _ found => by
    intro hc
    obtain ⟨hvalues, hle⟩ := found.ordered hc
    exact ⟨.sequence hvalues, hle⟩
  | .mapping _ _ _ found => by
    intro hc
    obtain ⟨hentries, hle⟩ := found.ordered hc
    exact ⟨hentries.node _, hle⟩
  | .value h _ _ found => by
    intro hc
    have hline := hc.line_stands h
    obtain ⟨hnode, hle⟩ := found.ordered (hc.pass h)
    exact ⟨hnode, Nat.le_trans (hc.lastLine_le_pass h) hle⟩

theorem ItemsAt.ordered {indent : Nat} {c after : Cursor} {list : List (Item Node)} :
    ItemsAt indent c list after → c.Placed source →
      (∀ item ∈ list, item.value.Ordered) ∧ c.lastLine ≤ after.lastLine
  | .stop _ => fun _ => ⟨by simp, Nat.le_refl _⟩
  | .item h _ hitem first more => by
    intro hc
    obtain ⟨hnode, hmid⟩ := first.ordered h hitem hc
    obtain ⟨hvalues, hle⟩ := more.ordered (first.placed h hitem hc).2
    refine ⟨?_, Nat.le_trans hmid hle⟩
    intro item hmem
    rcases List.mem_cons.mp hmem with rfl | hmem
    · exact hnode
    · exact hvalues item hmem

theorem ItemAt.ordered {c after : Cursor} {line : LogicalLine} {rest : List LogicalLine}
    {n : Node} :
    ItemAt c line rest n after → c.lines = line :: rest → isItem line.text = true →
      c.Placed source → n.Ordered ∧ c.lastLine ≤ after.lastLine
  | .deeper _ _ _ found => by
    intro h _ hc
    obtain ⟨hnode, hle⟩ := found.ordered (hc.pass h)
    exact ⟨hnode, Nat.le_trans (hc.lastLine_le_pass h) hle⟩
  | .empty _ _ => fun h _ hc => ⟨.empty, hc.lastLine_le_pass h⟩
  | .behind hpresent _ found => fun h hitem hc => found.ordered (hc.enter h hitem hpresent)
  | .value _ _ found => by
    intro h _ hc
    obtain ⟨hnode, hle⟩ := found.ordered (hc.pass h)
    exact ⟨hnode, Nat.le_trans (hc.lastLine_le_pass h) hle⟩

theorem EntriesAt.ordered {indent : Nat} {c after : Cursor} {list : List (Entry Node)} :
    EntriesAt indent c list after → c.Placed source →
      EntriesOrdered c.lastLine list ∧ c.lastLine ≤ after.lastLine
  | .stop _ => fun _ => ⟨.nil _, Nat.le_refl _⟩
  | .entry h _ hkey first more => by
    intro hc
    have hlt := hc.lastLine_lt h
    obtain ⟨hnode, hmid⟩ := first.ordered h hc
    obtain ⟨hentries, hle⟩ := more.ordered (first.placed h hkey hc).2
    exact ⟨.cons hnode hentries hlt hmid, Nat.le_trans (Nat.le_of_lt hlt) (Nat.le_trans hmid hle)⟩

/-- Behind the value of an entry, the line of its key has been passed. -/
theorem EntryAt.ordered {c after : Cursor} {line : LogicalLine} {rest : List LogicalLine}
    {split : KeySplit} {n : Node} :
    EntryAt c line rest split n after → c.lines = line :: rest → c.Placed source →
      n.Ordered ∧ line.number ≤ after.lastLine
  | .deeper _ _ _ found => fun h hc => found.ordered (hc.pass h)
  | .items _ _ _ _ found => by
    intro h hc
    obtain ⟨hvalues, hle⟩ := found.ordered (hc.pass h)
    exact ⟨.sequence hvalues, hle⟩
  | .empty _ _ => fun _ _ => ⟨.empty, Nat.le_refl _⟩
  | .value _ found => fun h hc => found.ordered (hc.pass h)

theorem ValueAt.ordered {text : List Char} {line column parent : Nat} {c after : Cursor}
    {n : Node} :
    ValueAt text line column parent c n after → c.Placed source →
      n.Ordered ∧ c.lastLine ≤ after.lastLine
  | .deeper _ _ _ found => found.ordered
  | .empty _ _ => fun _ => ⟨.empty, Nat.le_refl _⟩
  | .scalar _ _ => fun hc => ⟨.scalar, scalarAt_lastLine_le hc⟩

end

/-- **The entries of a mapping follow one another.** In the outline of any text, be
it valid or not, the entries of every mapping begin on later and later lines. -/
theorem scan_ordered (source : List Char) : (Outline.scan source).root.Ordered :=
  ((node_at (.ofText source)).ordered Cursor.ofText_placed).1

theorem ordered_of_scan {source : List Char} {position : Position} {items : List (Item Node)}
    (root : (Outline.scan source).root = .sequence position items) :
    ∀ item ∈ items, item.value.Ordered := by
  have hscan := scan_ordered source
  rw [root] at hscan
  cases hscan with
  | sequence values => exact values

end Reading

end PlaybookStyle.Outline
