/-
Nothing in an outline stands before its first item.

An item begins with its dash, and whatever is read after the dash stands behind
it: on the same line further to the right, or on a later line
(`NodeAt.follows`). So if the outline of a text is a sequence, the place of its
first item is before all other places in it (`scan_behind`).
-/

import PlaybookStyle.Proofs.Outline.Nodes
import PlaybookStyle.Proofs.Outline.Placement

namespace PlaybookStyle

/-- A place stands before another in the text. -/
def Position.Before (a b : Position) : Prop :=
  a.line < b.line ∨ a.line = b.line ∧ a.column < b.column

theorem Position.Before.trans {a b c : Position} (hab : a.Before b) (hbc : b.Before c) :
    a.Before c := by
  unfold Position.Before at *
  omega

theorem Position.not_before_self (a : Position) : ¬a.Before a := by
  unfold Position.Before
  omega

namespace Outline

/-- Where a logical line begins. -/
def LogicalLine.place (line : LogicalLine) : Position := ⟨line.number, line.indent + 1⟩

/-- A place is before all that is left to read. -/
def Cursor.Behind (place : Position) (c : Cursor) : Prop :=
  ∀ line ∈ c.lines, place.Before line.place

section Behind

variable {place : Position} {c after : Cursor} {line : LogicalLine} {rest : List LogicalLine}

theorem Cursor.Behind.head (hc : c.Behind place) (h : c.lines = line :: rest) :
    place.Before line.place := hc line (by rw [h]; exact List.mem_cons_self)

theorem Cursor.Behind.pass (hc : c.Behind place) (h : c.lines = line :: rest) :
    (c.pass line rest).Behind place :=
  fun l hl => hc l (by rw [h]; exact List.mem_cons_of_mem _ hl)

/-- What stands behind a dash stands further to the right. -/
theorem LogicalLine.place_before_behindDash (line : LogicalLine) :
    line.place.Before line.behindDash.place :=
  .inr ⟨rfl, by simp only [place, behindDash]; omega⟩

theorem Cursor.Behind.enter (hline : place.Before line.behindDash.place)
    (hrest : (c.pass line rest).Behind place) : (c.enter line rest).Behind place := by
  intro l hl
  rcases List.mem_cons.mp hl with rfl | hl
  · exact hline
  · exact hrest l hl

mutual

theorem NodeAt.follows {c after : Cursor} {n : Node} :
    NodeAt c n after → c.Behind place → n.Everywhere place.Before ∧ after.Behind place
  | .nothing _ => fun hc => ⟨.empty, hc⟩
  | .sequence _ _ found => by
    intro hc
    obtain ⟨hitems, hafter⟩ := found.follows hc
    exact ⟨.sequence (fun item hitem => (hitems item hitem).1)
      fun item hitem => (hitems item hitem).2, hafter⟩
  | .mapping _ _ _ found => by
    intro hc
    obtain ⟨hentries, hafter⟩ := found.follows hc
    exact ⟨.mapping (fun entry hentry => (hentries entry hentry).1)
      fun entry hentry => (hentries entry hentry).2, hafter⟩
  | .value h _ _ found => fun hc => found.follows (hc.pass h) (hc.head h)

theorem ItemsAt.follows {indent : Nat} {c after : Cursor} {list : List (Item Node)} :
    ItemsAt indent c list after → c.Behind place →
      (∀ item ∈ list, place.Before item.position ∧ item.value.Everywhere place.Before) ∧
        after.Behind place
  | .stop _ => fun hc => ⟨by simp, hc⟩
  | .item h hindent _ first more => by
    intro hc
    have hline := hc.head h
    obtain ⟨hnode, hmid⟩ := first.follows (.trans hline (LogicalLine.place_before_behindDash _)) (hc.pass h)
    obtain ⟨hitems, hafter⟩ := more.follows hmid
    refine ⟨?_, hafter⟩
    intro item hmem
    rcases List.mem_cons.mp hmem with rfl | hmem
    · subst hindent
      exact ⟨hline, hnode⟩
    · exact hitems item hmem

theorem ItemAt.follows {c after : Cursor} {line : LogicalLine} {rest : List LogicalLine} {n : Node} :
    ItemAt c line rest n after → place.Before line.behindDash.place →
      (c.pass line rest).Behind place → n.Everywhere place.Before ∧ after.Behind place
  | .deeper _ _ _ found => fun _ hc => found.follows hc
  | .empty _ _ => fun _ hc => ⟨.empty, hc⟩
  | .behind _ _ found => fun hline hc => found.follows (.enter hline hc)
  | .value _ _ found => fun hline hc => found.follows hc hline

theorem EntriesAt.follows {indent : Nat} {c after : Cursor} {list : List (Entry Node)} :
    EntriesAt indent c list after → c.Behind place →
      (∀ entry ∈ list, place.Before entry.position ∧ entry.value.Everywhere place.Before) ∧
        after.Behind place
  | .stop _ => fun hc => ⟨by simp, hc⟩
  | .entry h hindent _ first more => by
    intro hc
    have hline := hc.head h
    obtain ⟨hnode, hmid⟩ := first.follows hline (hc.pass h)
    obtain ⟨hentries, hafter⟩ := more.follows hmid
    refine ⟨?_, hafter⟩
    intro entry hmem
    rcases List.mem_cons.mp hmem with rfl | hmem
    · subst hindent
      exact ⟨hline, hnode⟩
    · exact hentries entry hmem

theorem EntryAt.follows {c after : Cursor} {line : LogicalLine} {rest : List LogicalLine}
    {split : KeySplit} {n : Node} :
    EntryAt c line rest split n after → place.Before line.place →
      (c.pass line rest).Behind place → n.Everywhere place.Before ∧ after.Behind place
  | .deeper _ _ _ found => fun _ hc => found.follows hc
  | .items _ _ _ _ found => by
    intro _ hc
    obtain ⟨hitems, hafter⟩ := found.follows hc
    exact ⟨.sequence (fun item hitem => (hitems item hitem).1)
      fun item hitem => (hitems item hitem).2, hafter⟩
  | .empty _ _ => fun _ hc => ⟨.empty, hc⟩
  | .value _ found => by
    intro hline hc
    refine found.follows hc (hline.imp_right fun h => ⟨h.1, Nat.lt_of_lt_of_le h.2 ?_⟩)
    simp only [LogicalLine.place]
    omega

theorem ValueAt.follows {text : List Char} {line column parent : Nat} {c after : Cursor} {n : Node} :
    ValueAt text line column parent c n after → c.Behind place → place.Before ⟨line, column⟩ →
      n.Everywhere place.Before ∧ after.Behind place
  | .deeper _ _ _ found => fun hc _ => found.follows hc
  | .empty _ _ => fun hc _ => ⟨.empty, hc⟩
  | .scalar hskip _ => by
    intro hc hline
    obtain ⟨skipped, -, hstart, -⟩ := skipProperties_append none column text
    rw [hskip] at hstart
    refine ⟨.scalar (hline.imp_right fun h => ⟨h.1, Nat.lt_of_lt_of_le h.2 ?_⟩), ?_⟩
    · exact Nat.le_trans (Nat.le_add_right _ _) (Nat.le_of_eq hstart.symm)
    · intro l hl
      exact hc l (scalarText_append _ parent c.lines ▸ List.mem_append_right _ hl)

end

/-- The lines left behind a line stand behind its beginning. -/
theorem Cursor.Placed.behind_pass {source : List Char} (hc : c.Placed source)
    (h : c.lines = line :: rest) : (c.pass line rest).Behind line.place := fun _ hl =>
  .inl ((List.pairwise_cons.mp (hc.pass h).ordered).1 _ (List.mem_map_of_mem hl))

/-- What an item has stands behind its dash. -/
theorem ItemAt.everywhere_before {source : List Char} {after : Cursor} {n : Node}
    (found : ItemAt c line rest n after) (h : c.lines = line :: rest) (hc : c.Placed source) :
    n.Everywhere line.place.Before :=
  (found.follows line.place_before_behindDash (hc.behind_pass h)).1

/-- The items of a sequence, as far as they stand behind the first of them. -/
structure FirstComesFirst (items : List (Item Node)) (first : Item Node)
    (rest : List (Item Node)) : Prop where
  items_eq : items = first :: rest
  line : 1 ≤ first.position.line
  column : 1 ≤ first.position.column
  value : first.value.Everywhere first.position.Before
  positions : ∀ item ∈ rest, first.position.Before item.position
  values : ∀ item ∈ rest, item.value.Everywhere first.position.Before

/-- A sequence is found at a dash, perhaps behind tags on lines of their own. -/
theorem NodeAt.first_comes_first {source : List Char} {c after : Cursor} {n : Node} :
    NodeAt c n after → c.Placed source → ∀ {position items}, n = .sequence position items →
      ∃ first rest, FirstComesFirst items first rest
  | .nothing _ => fun _ _ _ hn => by cases hn
  | @NodeAt.sequence _ _ line rest _ h hitem found => by
    rintro hc _ _ ⟨⟩
    cases found with
    | stop hstop => exact absurd ⟨rfl, hitem⟩ (hstop line (by rw [h]; rfl))
    | item h' hindent _ first more =>
      obtain ⟨rfl, rfl⟩ := List.cons.inj (h.symm.trans h')
      obtain ⟨hvalue, hmid⟩ := first.follows line.place_before_behindDash (hc.behind_pass h)
      have hmore := (more.follows hmid).1
      have hlast : c.lastLine < line.number :=
        (List.pairwise_cons.mp hc.ordered).1 _ (by simp [h])
      exact ⟨_, _, rfl, Nat.lt_of_le_of_lt (Nat.zero_le _) hlast, Nat.le_add_left _ _, hvalue,
        fun item hmem => (hmore item hmem).1, fun item hmem => (hmore item hmem).2⟩
  | .mapping _ _ _ _ => fun _ _ _ hn => by cases hn
  | .value h _ _ (.deeper _ _ _ found) => fun hc _ _ hn => found.first_comes_first (hc.pass h) hn
  | .value _ _ _ (.empty _ _) => fun _ _ _ hn => by cases hn
  | .value _ _ _ (.scalar _ _) => fun _ _ _ hn => by cases hn

/-- **The first item of a text comes first.** All other places in its outline are
behind the dash of the first item. -/
theorem scan_first_comes_first {source : List Char} {position : Position}
    {items : List (Item Node)} (root : (Outline.scan source).root = .sequence position items) :
    ∃ first rest, FirstComesFirst items first rest :=
  (node_at (.ofText source)).first_comes_first Cursor.ofText_placed root

end Behind

end Outline

end PlaybookStyle
