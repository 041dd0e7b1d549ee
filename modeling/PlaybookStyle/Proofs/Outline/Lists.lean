/-
Lists in an outline have their lines for themselves.

A list of items may stand under an entry of an item of another list, and so on
(`InnerList`). It then begins behind the line of that entry, and ends before the
next entry or item begins. So a line on which an item begins tells the list and
its place in the list (`InnerList.eq_of_line`, `InnerList.lines_pairwise`), and
between two items in a row no line carries structure (`Item.Next.idle`).
-/

import PlaybookStyle.Proofs.Outline.Following

namespace PlaybookStyle.Outline

open Text LineRange

/-- A list in a node: the items of a sequence, or a list under an entry of one of them. -/
inductive InnerList : Node → List (Item Node) → Prop
  | here {position : Position} {items : List (Item Node)} :
      InnerList (.sequence position items) items
  | under {position : Position} {items list : List (Item Node)} {item : Item Node}
      {outer : Entry Node} (hitem : item ∈ items) (houter : outer ∈ item.value.entries?.getD [])
      (inner : InnerList outer.value list) : InnerList (.sequence position items) list

section Lines

variable {source : List Char} {range : LineRange} {n : Node} {list other : List (Item Node)}

/-- A line is a line of one part only. -/
theorem eq_of_mem_lines {α : Type} {parts : List α} {lines : α → LineRange}
    (h : Consecutive range (parts.map lines)) {a b : α} (ha : a ∈ parts) (hb : b ∈ parts) {line : Nat}
    (hlineA : (lines a).first ≤ line ∧ line ≤ (lines a).last)
    (hlineB : (lines b).first ≤ line ∧ line ≤ (lines b).last) : a = b := by
  have horder := List.pairwise_map.mp h.order
  clear h
  induction parts with
  | nil => cases ha
  | cons first rest ih =>
    obtain ⟨hfirst, hrest⟩ := List.pairwise_cons.mp horder
    simp only [LineRange.Before] at hfirst
    rcases List.mem_cons.mp ha with hfirstA | ha
    · rcases List.mem_cons.mp hb with hfirstB | hb
      · exact hfirstA.trans hfirstB.symm
      · have hbefore := hfirstA ▸ hfirst b hb
        omega
    · rcases List.mem_cons.mp hb with hfirstB | hb
      · have hbefore := hfirstB ▸ hfirst a ha
        omega
      · exact ih ha hb hrest

/-- The entries of a nested node follow one another and are nested. -/
theorem Node.Nested.consecutive_entries (h : n.Nested range) :
    Consecutive range ((n.entries?.getD []).map Entry.lines) ∧
      ∀ entry ∈ n.entries?.getD [], entry.value.Nested entry.lines := by
  cases h with
  | mapping parts values => exact ⟨parts, values⟩
  | empty => exact ⟨.nil _, by simp [Node.entries?]⟩
  | scalar => exact ⟨.nil _, by simp [Node.entries?]⟩
  | sequence => exact ⟨.nil _, by simp [Node.entries?]⟩

/-- Items under an entry begin behind its line. -/
theorem Node.Read.behind_entries {holder last : Nat} (h : n.Read source holder last) :
    ∀ entry ∈ n.entries?.getD [],
      (∀ item ∈ entry.value.items, entry.position.line < item.position.line) ∧
        entry.value.Read source (entry.position.column - 1) entry.position.line := by
  cases h with
  | mapping behind values => exact fun entry hentry => ⟨behind entry hentry, values entry hentry⟩
  | empty => simp [Node.entries?]
  | sameLine => simp [Node.entries?]
  | ownLine => simp [Node.entries?]
  | sequence => simp [Node.entries?]

namespace InnerList

/-- The items of an inner list begin on lines of the node. -/
theorem within (h : InnerList n list) (nested : n.Nested range) :
    ∀ item ∈ list, range.first ≤ item.position.line ∧ item.position.line ≤ range.last := by
  induction h generalizing range with
  | here =>
    cases nested with
    | sequence parts values =>
      intro item hitem
      have hmem := List.mem_map_of_mem (f := Item.lines) hitem
      obtain ⟨hfirst, hlast⟩ := parts.within _ hmem
      exact ⟨hfirst, Nat.le_trans (parts.nonempty _ hmem) hlast⟩
  | under houtside houter inner ih =>
    cases nested with
    | sequence parts values =>
      intro item hitem
      obtain ⟨hfirst, hlast⟩ := parts.within _ (List.mem_map_of_mem houtside)
      obtain ⟨hentries, hvalues⟩ := (values _ houtside).consecutive_entries
      obtain ⟨hentryFirst, hentryLast⟩ := hentries.within _ (List.mem_map_of_mem houter)
      obtain ⟨hitemFirst, hitemLast⟩ := ih (hvalues _ houter) item hitem
      exact ⟨Nat.le_trans hfirst (Nat.le_trans hentryFirst hitemFirst),
        Nat.le_trans hitemLast (Nat.le_trans hentryLast hlast)⟩

/-- What is behind the items of a sequence holds of the lists inside. -/
theorem behind (h : InnerList n list) (nested : n.Nested range) {line : Nat}
    (first : ∀ item ∈ n.items, line < item.position.line) :
    ∀ item ∈ list, line < item.position.line := by
  cases h with
  | here => exact first
  | under houtside houter inner =>
    cases nested with
    | sequence parts values =>
      intro item hitem
      obtain ⟨hentries, hvalues⟩ := (values _ houtside).consecutive_entries
      have hentry := (hentries.within _ (List.mem_map_of_mem houter)).1
      have hinner := (inner.within (hvalues _ houter) item hitem).1
      exact Nat.lt_of_lt_of_le (first _ houtside) (Nat.le_trans hentry hinner)

/-- A list under an entry of an item lies on the lines of the item, behind the first. -/
theorem under_lines {item : Item Node} {outer : Entry Node} {holder last : Nat}
    (inner : InnerList outer.value list) (houter : outer ∈ item.value.entries?.getD [])
    (nested : item.value.Nested item.lines) (read : item.value.Read source holder last) :
    ∀ i ∈ list, item.position.line < i.position.line ∧
      outer.lines.first ≤ i.position.line ∧ i.position.line ≤ outer.lines.last ∧
      i.position.line ≤ item.lines.last := by
  intro i hi
  obtain ⟨hentries, hvalues⟩ := nested.consecutive_entries
  obtain ⟨hfirst, hlast⟩ := hentries.within _ (List.mem_map_of_mem houter)
  obtain ⟨hlow, hhigh⟩ := inner.within (hvalues _ houter) i hi
  have hbehind := inner.behind (hvalues _ houter) (read.behind_entries _ houter).1 i hi
  exact ⟨Nat.lt_of_le_of_lt hfirst hbehind, hlow, hhigh, Nat.le_trans hhigh hlast⟩

/-- An item begins on no line of a list under an entry of an item beside it. -/
theorem line_ne_under {items : List (Item Node)} {item i j : Item Node} {outer : Entry Node}
    {holder last : Nat} (parts : Consecutive range (items.map Item.lines)) (hi : i ∈ items)
    (hitem : item ∈ items) (inner : InnerList outer.value list)
    (houter : outer ∈ item.value.entries?.getD []) (nested : item.value.Nested item.lines)
    (read : item.value.Read source holder last) (hj : j ∈ list) :
    i.position.line ≠ j.position.line := by
  intro same
  obtain ⟨hlt, -, -, hle⟩ := inner.under_lines houter nested read j hj
  have hnonempty := parts.nonempty _ (List.mem_map_of_mem hi)
  have heq : i = item :=
    eq_of_mem_lines parts hi hitem ⟨Nat.le_refl i.position.line, hnonempty⟩
      ⟨same ▸ Nat.le_of_lt hlt, same ▸ hle⟩
  rw [heq] at same
  omega

/-- **The line on which an item begins tells its list.** -/
theorem eq_of_line {holder last : Nat} (h : InnerList n list) (hother : InnerList n other)
    (nested : n.Nested range) (read : n.Read source holder last) {i j : Item Node}
    (hi : i ∈ list) (hj : j ∈ other) (same : i.position.line = j.position.line) : list = other := by
  induction h generalizing range holder last with
  | here =>
    cases nested with
    | sequence parts values =>
      cases read with
      | sequence next reads =>
        cases hother with
        | here => rfl
        | under hitem houter inner =>
          exact absurd same
            (line_ne_under parts hi hitem inner houter (values _ hitem) (reads _ hitem) hj)
  | under hitem houter inner ih =>
    cases nested with
    | sequence parts values =>
      cases read with
      | sequence next reads =>
        have hvalue := values _ hitem
        have hread := reads _ hitem
        cases hother with
        | here =>
          exact absurd same.symm (line_ne_under parts hj hitem inner houter hvalue hread hi)
        | under hitem' houter' inner' =>
          -- Both lists lie on the lines of one item, and there on those of one entry.
          obtain ⟨hlt, hfirst, hlast, hle⟩ := inner.under_lines houter hvalue hread i hi
          obtain ⟨hlt', hfirst', hlast', hle'⟩ :=
            inner'.under_lines houter' (values _ hitem') (reads _ hitem') j hj
          rw [← same] at hlt' hfirst' hlast' hle'
          obtain rfl := eq_of_mem_lines parts hitem hitem' ⟨Nat.le_of_lt hlt, hle⟩
            ⟨Nat.le_of_lt hlt', hle'⟩
          obtain ⟨hentries, hvalues⟩ := hvalue.consecutive_entries
          obtain rfl := eq_of_mem_lines hentries houter houter' ⟨hfirst, hlast⟩ ⟨hfirst', hlast'⟩
          exact ih inner' (hvalues _ houter) (hread.behind_entries _ houter).2 hi

/-- The items of an inner list begin on later and later lines. -/
theorem lines_pairwise (h : InnerList n list) (nested : n.Nested range) :
    (list.map (·.position.line)).Pairwise (· < ·) := by
  induction h generalizing range with
  | here =>
    cases nested with
    | sequence parts values =>
      refine List.pairwise_map.mpr ((List.pairwise_map.mp parts.order).imp_of_mem ?_)
      intro a b ha _ hbefore
      exact Nat.lt_of_le_of_lt (parts.nonempty _ (List.mem_map_of_mem ha)) hbefore
  | under hitem houter inner ih =>
    cases nested with
    | sequence parts values =>
      exact ih ((values _ hitem).consecutive_entries.2 _ houter)

/-- Of two items in a row, the second begins on the first line with structure behind
the first. -/
theorem next (h : InnerList n list) {holder last : Nat} (read : n.Read source holder last) :
    list.IsChain (Item.Next source) := by
  induction h generalizing holder last with
  | here =>
    cases read with
    | sequence next values => exact next
  | under hitem houter inner ih =>
    cases read with
    | sequence next values => exact ih ((values _ hitem).behind_entries _ houter).2

end InnerList

end Lines

/-- Between two items in a row no line carries structure. -/
theorem Item.Next.idle {source : List Char} {item next : Item Node} (h : item.Next source next) :
    CarriesAt source item.endLine ∧ CarriesAt source next.position.line ∧
      item.endLine < next.position.line ∧
        ∀ k, item.endLine < k → k < next.position.line → IdleAt source k := by
  obtain ⟨hcarries, hfirst⟩ := h
  obtain ⟨line, hhead, hnumber⟩ := Option.map_eq_some_iff.mp hfirst
  obtain ⟨rest, hlines⟩ := List.head?_eq_some_iff.mp hhead
  obtain ⟨hlt, -, hof, hidle⟩ := linesAfter_cons hlines
  rw [hnumber] at hlt hidle
  exact ⟨hcarries, ⟨line, hof, hnumber⟩, hlt, hidle⟩

end PlaybookStyle.Outline
