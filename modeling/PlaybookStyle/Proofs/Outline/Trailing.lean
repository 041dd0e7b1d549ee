/-
What else stands on the line of a key.

What belongs to an item stands behind its dash, and what belongs to a key is a scalar or
stands on later lines (`Node.Trails`). The parts of a collection have their lines for
themselves. So on the line of a key there are only dashes, all of them before the key, and
the value, if it is a scalar that begins there.

* `scan_on_line` — what an outline has on the line of a key.
-/

import PlaybookStyle.Proofs.Outline.Owners
import PlaybookStyle.Proofs.Outline.Rewriting

namespace PlaybookStyle.Outline

open Text LineRange

/-- What is in an item stands behind its dash, and what is under a key is a scalar or
stands on later lines. -/
inductive Node.Trails : Node → Prop
  | empty : Trails .empty
  | scalar {s : Scalar} : Trails (.scalar s)
  | sequence {position : Position} {items : List (Item Node)}
      (behind : ∀ item ∈ items, item.value.Everywhere item.position.Before)
      (values : ∀ item ∈ items, Trails item.value) : Trails (.sequence position items)
  | mapping {position : Position} {entries : List (Entry Node)}
      (below : ∀ entry ∈ entries, entry.value.scalar? = none →
        entry.value.Everywhere fun place => entry.position.line < place.line)
      (values : ∀ entry ∈ entries, Trails entry.value) : Trails (.mapping position entries)

section Reading

variable {source : List Char} {c after : Cursor} {line : LogicalLine} {rest : List LogicalLine}
  {n : Node}

/-- The lines left behind a line are behind its place. -/
theorem Cursor.Placed.pass_behind (hc : c.Placed source) (h : c.lines = line :: rest) :
    (c.pass line rest).Behind line.place := fun _ hl =>
  .inl ((List.pairwise_cons.mp (hc.pass h).ordered).1 _ (List.mem_map_of_mem hl))

theorem NodeAt.everywhere_behind (found : NodeAt c n after) (hc : c.Placed source) :
    n.Everywhere fun place => c.lastLine < place.line :=
  (found.nests hc _ (Nat.lt_succ_self _) hc.lastLine_lt_head).1.nested.everywhere.imp
    fun _ h => h.1

/-- What is read under a key is a scalar or stands behind its line. -/
theorem EntryAt.everywhere_below {split : KeySplit} (found : EntryAt c line rest split n after)
    (h : c.lines = line :: rest) (hc : c.Placed source) (plain : n.scalar? = none) :
    n.Everywhere fun place => line.number < place.line := by
  have hpass := hc.pass h
  cases found with
  | deeper _ _ _ found => exact found.everywhere_behind hpass
  | items _ _ _ _ found =>
    have hnests := (found.nests hpass _ (Nat.lt_succ_self _) hpass.lastLine_lt_head).sequence ⟨0, 0⟩
    cases hnests.nested.everywhere with
    | sequence positions values =>
      exact .sequence (fun item hitem => (positions item hitem).1)
        fun item hitem => (values item hitem).imp fun _ h => h.1
  | empty => exact .empty
  | value _ found =>
    cases found with
    | deeper _ _ _ found => exact found.everywhere_behind hpass
    | empty => exact .empty
    | scalar => cases plain

mutual

theorem NodeAt.trails {c after : Cursor} {n : Node} :
    NodeAt c n after → c.Placed source → n.Trails
  | .nothing _ => fun _ => .empty
  | .sequence _ _ found => fun hc =>
    .sequence (fun item hitem => (found.trails hc item hitem).1)
      fun item hitem => (found.trails hc item hitem).2
  | .mapping _ _ _ found => fun hc =>
    .mapping (fun entry hentry => (found.trails hc entry hentry).1)
      fun entry hentry => (found.trails hc entry hentry).2
  | .value h _ _ found => fun hc => found.trails (hc.pass h)

theorem ItemsAt.trails {indent : Nat} {c after : Cursor} {list : List (Item Node)} :
    ItemsAt indent c list after → c.Placed source →
      ∀ item ∈ list, item.value.Everywhere item.position.Before ∧ item.value.Trails
  | .stop _ => by simp
  | .item h hindent hitem first more => by
    intro hc item hmem
    rcases List.mem_cons.mp hmem with rfl | hmem
    · have hfollows := (first.follows (LogicalLine.place_before_behindDash _) (hc.pass_behind h)).1
      rw [LogicalLine.place, hindent] at hfollows
      exact ⟨hfollows, first.trails h hitem hc⟩
    · exact more.trails (first.placed h hitem hc).2 item hmem

theorem ItemAt.trails {c after : Cursor} {line : LogicalLine} {rest : List LogicalLine}
    {n : Node} :
    ItemAt c line rest n after → c.lines = line :: rest → isItem line.text = true →
      c.Placed source → n.Trails
  | .deeper _ _ _ found => fun h _ hc => found.trails (hc.pass h)
  | .empty _ _ => fun _ _ _ => .empty
  | .behind hpresent _ found => fun h hitem hc => found.trails (hc.enter h hitem hpresent)
  | .value _ _ found => fun h _ hc => found.trails (hc.pass h)

theorem EntriesAt.trails {indent : Nat} {c after : Cursor} {list : List (Entry Node)} :
    EntriesAt indent c list after → c.Placed source →
      ∀ entry ∈ list, (entry.value.scalar? = none →
        entry.value.Everywhere fun place => entry.position.line < place.line) ∧ entry.value.Trails
  | .stop _ => by simp
  | .entry h _ hkey first more => by
    intro hc entry hmem
    rcases List.mem_cons.mp hmem with rfl | hmem
    · exact ⟨first.everywhere_below h hc, first.trails h hc⟩
    · exact more.trails (first.placed h hkey hc).2 entry hmem

theorem EntryAt.trails {c after : Cursor} {line : LogicalLine} {rest : List LogicalLine}
    {split : KeySplit} {n : Node} :
    EntryAt c line rest split n after → c.lines = line :: rest → c.Placed source → n.Trails
  | .deeper _ _ _ found => fun h hc => found.trails (hc.pass h)
  | .items _ _ _ _ found => fun h hc =>
    .sequence (fun item hitem => (found.trails (hc.pass h) item hitem).1)
      fun item hitem => (found.trails (hc.pass h) item hitem).2
  | .empty _ _ => fun _ _ => .empty
  | .value _ found => fun h hc => found.trails (hc.pass h)

theorem ValueAt.trails {text : List Char} {line column parent : Nat} {c after : Cursor}
    {n : Node} :
    ValueAt text line column parent c n after → c.Placed source → n.Trails
  | .deeper _ _ _ found => found.trails
  | .empty _ _ => fun _ => .empty
  | .scalar _ _ => fun _ => .scalar

end

theorem scan_trails (source : List Char) : (Outline.scan source).root.Trails :=
  (node_at (.ofText source)).trails Cursor.ofText_placed

end Reading

/-! ### The line of a key -/

/-- Where something may stand on the line of an entry: up to its key, or it is the value. -/
def Entry.Beside (e : Entry Node) (place : Position) : Prop :=
  place.line = e.position.line → place.column ≤ e.position.column ∨
    ∃ s, e.value = .scalar s ∧ place = s.position

section Below

variable {holder e : Entry Node}

/-- The entries under a key are on later lines. -/
theorem Entry.line_lt_of_below
    (below : holder.value.scalar? = none →
      holder.value.Everywhere fun place => holder.position.line < place.line)
    (he : e ∈ holder.value.allEntries) : holder.position.line < e.position.line := by
  have plain : holder.value.scalar? = none := by
    cases hvalue : holder.value with
    | scalar s => rw [hvalue, Node.allEntries_scalar] at he; cases he
    | _ => rfl
  exact (below plain).of_mem_allEntries he

/-- An entry is on one of the lines of the entry that it belongs to. -/
theorem Entry.line_mem_of_covered (nonempty : holder.lines.Nonempty)
    (nested : holder.value.Nested holder.lines) (he : e ∈ holder.covered) :
    holder.lines.first ≤ e.position.line ∧ e.position.line ≤ holder.lines.last := by
  rcases List.mem_cons.mp he with rfl | he
  · exact ⟨Nat.le_refl _, nonempty⟩
  · exact nested.everywhere.of_mem_allEntries he

/-- Of what belongs to a key only a scalar can be on its line. -/
theorem Entry.value_beside
    (below : e.value.scalar? = none → e.value.Everywhere fun place => e.position.line < place.line) :
    e.value.Everywhere e.Beside := by
  cases hvalue : e.value with
  | scalar s => exact .scalar fun _ => .inr ⟨s, hvalue, rfl⟩
  | mapping | sequence | empty =>
    have hlater := below (by rw [hvalue]; rfl)
    rw [hvalue] at hlater
    exact hlater.imp fun place hplace same => absurd same (Nat.ne_of_gt hplace)

end Below

theorem Node.Nested.on_line {range : LineRange} {n : Node} (nested : n.Nested range)
    (trails : n.Trails) {e : Entry Node} (he : e ∈ n.allEntries) : n.Everywhere e.Beside := by
  induction nested with
  | empty => exact .empty
  | scalar => rw [Node.allEntries_scalar] at he; cases he
  | @sequence range position items parts values ih =>
    cases trails with
    | sequence behind trails =>
      rw [Node.allEntries_sequence] at he
      obtain ⟨holder, hholder, he⟩ := List.mem_flatMap.mp he
      have hline := (values holder hholder).everywhere.of_mem_allEntries he
      -- An item with something on the line is the one that holds the entry.
      have only : ∀ item ∈ items, item.lines.first ≤ e.position.line →
          e.position.line ≤ item.lines.last → item = holder := fun item hitem hfirst hlast =>
        eq_of_mem_lines parts hitem hholder ⟨hfirst, hlast⟩ hline
      refine .sequence (fun item hitem same => ?_) fun item hitem => ?_
      · have hnonempty := parts.nonempty _ (List.mem_map_of_mem hitem)
        obtain rfl := only item hitem (Nat.le_of_eq same) (same ▸ hnonempty)
        have hbefore := (behind item hitem).of_mem_allEntries he
        unfold Position.Before at hbefore
        exact .inl (by omega)
      · by_cases hinside : item = holder
        · subst hinside
          exact ih item hitem (trails item hitem) he
        · refine (values item hitem).everywhere.imp fun place hplace same => ?_
          exact absurd (only item hitem (same ▸ hplace.1) (same ▸ hplace.2)) hinside
  | @mapping range position entries parts values ih =>
    cases trails with
    | mapping below trails =>
      rw [Node.allEntries_mapping] at he
      obtain ⟨holder, hholder, he⟩ := List.mem_flatMap.mp he
      have hnonempty : ∀ entry ∈ entries, entry.lines.Nonempty := fun entry hentry =>
        parts.nonempty _ (List.mem_map_of_mem hentry)
      have hline := Entry.line_mem_of_covered (hnonempty holder hholder) (values holder hholder) he
      have only : ∀ entry ∈ entries, entry.lines.first ≤ e.position.line →
          e.position.line ≤ entry.lines.last → entry = holder := fun entry hentry hfirst hlast =>
        eq_of_mem_lines parts hentry hholder ⟨hfirst, hlast⟩ hline
      refine .mapping (fun entry hentry same => ?_) fun entry hentry => ?_
      · obtain rfl := only entry hentry (Nat.le_of_eq same) (same ▸ hnonempty entry hentry)
        rcases List.mem_cons.mp he with rfl | he
        · exact .inl (Nat.le_refl _)
        · exact absurd same (Nat.ne_of_lt (Entry.line_lt_of_below (below entry hentry) he))
      · by_cases hinside : entry = holder
        · subst hinside
          rcases List.mem_cons.mp he with rfl | he
          · exact Entry.value_beside (below e hentry)
          · exact ih entry hentry (trails entry hentry) he
        · refine (values entry hentry).everywhere.imp fun place hplace same => ?_
          exact absurd (only entry hentry (same ▸ hplace.1) (same ▸ hplace.2)) hinside

/-- What holds everywhere in a node holds everywhere under its keys. -/
theorem Node.Everywhere.value {P : Position → Prop} {n : Node} (h : n.Everywhere P) {e : Entry Node}
    (he : e ∈ n.allEntries) : e.value.Everywhere P := by
  induction h with
  | empty => simp at he
  | scalar => simp at he
  | sequence _ _ ih =>
    rw [Node.allEntries_sequence] at he
    obtain ⟨item, hitem, he⟩ := List.mem_flatMap.mp he
    exact ih item hitem he
  | mapping _ values ih =>
    rw [Node.allEntries_mapping] at he
    obtain ⟨entry, hentry, he⟩ := List.mem_flatMap.mp he
    rcases List.mem_cons.mp he with rfl | he
    · exact values e hentry
    · exact ih entry hentry he

/-- Two scalars that begin on one line are not the values of two keys. -/
theorem Node.Nested.eq_of_values {range : LineRange} {n : Node} (nested : n.Nested range)
    {e other : Entry Node} (he : e ∈ n.allEntries) (hother : other ∈ n.allEntries) {s s' : Scalar}
    (value : e.value = .scalar s) (value' : other.value = .scalar s')
    (same : s.position.line = s'.position.line) : e = other := by
  have hplace : ∀ {P : Position → Prop} {e : Entry Node} {s : Scalar}, e.value.Everywhere P →
      e.value = .scalar s → P s.position := by
    intro P e s h hvalue
    rw [hvalue] at h
    cases h with
    | scalar h => exact h
  induction nested with
  | empty => simp at he
  | scalar => simp at he
  | @sequence range position items parts values ih =>
    rw [Node.allEntries_sequence] at he hother
    obtain ⟨item, hitem, he⟩ := List.mem_flatMap.mp he
    obtain ⟨item', hitem', hother⟩ := List.mem_flatMap.mp hother
    have hline := hplace ((values item hitem).everywhere.value he) value
    have hline' := hplace ((values item' hitem').everywhere.value hother) value'
    obtain rfl := eq_of_mem_lines parts hitem hitem' hline (same ▸ hline')
    exact ih item hitem he hother
  | @mapping range position entries parts values ih =>
    rw [Node.allEntries_mapping] at he hother
    obtain ⟨holder, hholder, he⟩ := List.mem_flatMap.mp he
    obtain ⟨holder', hholder', hother⟩ := List.mem_flatMap.mp hother
    have hcovered : ∀ {holder e : Entry Node}, holder ∈ entries → e ∈ holder.covered →
        e.value.Everywhere fun place => holder.lines.first ≤ place.line ∧ place.line ≤ holder.lines.last := by
      intro holder e hholder he
      rcases List.mem_cons.mp he with rfl | he
      · exact (values e hholder).everywhere
      · exact (values holder hholder).everywhere.value he
    have hline := hplace (hcovered hholder he) value
    have hline' := hplace (hcovered hholder' hother) value'
    obtain rfl := eq_of_mem_lines parts hholder hholder' hline (same ▸ hline')
    -- An entry with a scalar for its value holds no other.
    rcases List.mem_cons.mp he with rfl | he
    · rcases List.mem_cons.mp hother with rfl | hother
      · rfl
      · rw [value, Node.allEntries_scalar] at hother
        cases hother
    · rcases List.mem_cons.mp hother with rfl | hother
      · rw [value', Node.allEntries_scalar] at he
        cases he
      · exact ih holder hholder he hother

theorem scan_eq_of_values (source : List Char) {e other : Entry Node}
    (he : e ∈ (Outline.scan source).root.allEntries)
    (hother : other ∈ (Outline.scan source).root.allEntries) {s s' : Scalar}
    (value : e.value = .scalar s) (value' : other.value = .scalar s')
    (same : s.position.line = s'.position.line) : e = other := by
  obtain ⟨⟨range, nested⟩, -⟩ := Outline.scan_nested source
  exact nested.eq_of_values he hother value value' same

/-- **On the line of a key** an outline has nothing behind the key but its value. -/
theorem scan_on_line (source : List Char) {e : Entry Node}
    (he : e ∈ (Outline.scan source).root.allEntries) :
    (Outline.scan source).root.Everywhere e.Beside := by
  obtain ⟨⟨range, nested⟩, -⟩ := Outline.scan_nested source
  exact nested.on_line (scan_trails source) he

end PlaybookStyle.Outline
