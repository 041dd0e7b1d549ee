/-
A line tells the entry whose key stands on it, and the item that has the entry.

The entries below a key begin behind its line (`Node.Descends`): the value of a key
on its own line is a scalar. So an entry has the line of its key, and the lines of
the keys right below it, for itself (`Entry.Owns`). Lists of items may stand inside
one another, yet two items of such lists never share a line of an entry
(`InnerList.eq_of_owns`).

* `scan_descends` — in the outline of any text the entries below a key begin behind it.
-/

import PlaybookStyle.Proofs.Outline.Lists

namespace PlaybookStyle.Outline

open Text LineRange

/-! ### Entries below a key -/

/-- The entries below a key begin behind its line. -/
inductive Node.Descends : Node → Prop
  | empty : Descends .empty
  | scalar {s : Scalar} : Descends (.scalar s)
  | sequence {position : Position} {items : List (Item Node)}
      (values : ∀ item ∈ items, Descends item.value) : Descends (.sequence position items)
  | mapping {position : Position} {entries : List (Entry Node)}
      (below : ∀ entry ∈ entries, ∀ inner ∈ entry.value.entries?.getD [],
        entry.position.line < inner.position.line)
      (values : ∀ entry ∈ entries, Descends entry.value) : Descends (.mapping position entries)

theorem Node.Descends.of_entries?_getD {n : Node} (h : n.Descends) :
    ∀ entry ∈ n.entries?.getD [], entry.value.Descends ∧
      ∀ inner ∈ entry.value.entries?.getD [], entry.position.line < inner.position.line := by
  cases h with
  | mapping below values => exact fun entry hentry => ⟨values entry hentry, below entry hentry⟩
  | empty => simp [Node.entries?]
  | scalar => simp [Node.entries?]
  | sequence => simp [Node.entries?]

/-- A node that descends, and whose entries begin behind a line. -/
structure Node.DescendsFrom (line : Nat) (n : Node) : Prop where
  descends : n.Descends
  behind : ∀ entry ∈ n.entries?.getD [], line < entry.position.line

namespace Node.DescendsFrom

theorem empty (line : Nat) : DescendsFrom line .empty := ⟨.empty, by simp [Node.entries?]⟩

theorem sequence {line : Nat} {position : Position} {items : List (Item Node)}
    (values : ∀ item ∈ items, item.value.Descends) :
    DescendsFrom line (.sequence position items) :=
  ⟨.sequence values, by simp [Node.entries?]⟩

theorem mapping {line : Nat} {position : Position} {entries : List (Entry Node)}
    (values : ∀ entry ∈ entries, entry.value.DescendsFrom entry.position.line)
    (ordered : EntriesOrdered line entries) : DescendsFrom line (.mapping position entries) := by
  constructor
  · exact .mapping (fun entry hentry => (values entry hentry).behind)
      fun entry hentry => (values entry hentry).descends
  · intro entry hentry
    exact (List.pairwise_cons.mp ordered.lines).1 _ (List.mem_map_of_mem hentry)

theorem mono {line other : Nat} {n : Node} (h : n.DescendsFrom line) (le : other ≤ line) :
    n.DescendsFrom other :=
  ⟨h.descends, fun entry hentry => Nat.lt_of_le_of_lt le (h.behind entry hentry)⟩

end Node.DescendsFrom

section Reading

variable {source : List Char}

mutual

/-- What is read at a cursor has its entries behind the last line passed. -/
theorem NodeAt.descends {c after : Cursor} {n : Node} :
    NodeAt c n after → c.Placed source → n.DescendsFrom c.lastLine
  | .nothing _ => fun _ => .empty _
  | .sequence _ _ found => fun hc => .sequence (found.descends hc)
  | .mapping _ _ _ found => fun hc => .mapping (found.descends hc) (found.ordered hc).1
  | .value h _ _ found => fun hc =>
    (found.descends (hc.pass h)).mono (hc.lastLine_le_pass h)

theorem ItemsAt.descends {indent : Nat} {c after : Cursor} {list : List (Item Node)} :
    ItemsAt indent c list after → c.Placed source → ∀ item ∈ list, item.value.Descends
  | .stop _ => by simp
  | .item h _ hitem first more => by
    intro hc item hmem
    rcases List.mem_cons.mp hmem with rfl | hmem
    · exact first.descends h hitem hc
    · exact more.descends (first.placed h hitem hc).2 item hmem

theorem ItemAt.descends {c after : Cursor} {line : LogicalLine} {rest : List LogicalLine}
    {n : Node} :
    ItemAt c line rest n after → c.lines = line :: rest → isItem line.text = true →
      c.Placed source → n.Descends
  | .deeper _ _ _ found => fun h _ hc => (found.descends (hc.pass h)).descends
  | .empty _ _ => fun _ _ _ => .empty
  | .behind hpresent _ found => fun h hitem hc =>
    (found.descends (hc.enter h hitem hpresent)).descends
  | .value _ _ found => fun h _ hc => (found.descends (hc.pass h)).descends

theorem EntriesAt.descends {indent : Nat} {c after : Cursor} {list : List (Entry Node)} :
    EntriesAt indent c list after → c.Placed source →
      ∀ entry ∈ list, entry.value.DescendsFrom entry.position.line
  | .stop _ => by simp
  | .entry h _ hkey first more => by
    intro hc entry hmem
    rcases List.mem_cons.mp hmem with rfl | hmem
    · exact first.descends h hc
    · exact more.descends (first.placed h hkey hc).2 entry hmem

theorem EntryAt.descends {c after : Cursor} {line : LogicalLine} {rest : List LogicalLine}
    {split : KeySplit} {n : Node} :
    EntryAt c line rest split n after → c.lines = line :: rest → c.Placed source →
      n.DescendsFrom line.number
  | .deeper _ _ _ found => fun h hc => found.descends (hc.pass h)
  | .items _ _ _ _ found => fun h hc => .sequence (found.descends (hc.pass h))
  | .empty _ _ => fun _ _ => .empty _
  | .value _ found => fun h hc => found.descends (hc.pass h)

theorem ValueAt.descends {text : List Char} {line column parent : Nat} {c after : Cursor}
    {n : Node} :
    ValueAt text line column parent c n after → c.Placed source → n.DescendsFrom c.lastLine
  | .deeper _ _ _ found => found.descends
  | .empty _ _ => fun _ => .empty _
  | .scalar _ _ => fun _ => ⟨.scalar, by simp [scalarAt, Node.entries?]⟩

end

/-- **The entries below a key begin behind it**, in the outline of any text, be it
valid or not. -/
theorem scan_descends (source : List Char) : (Outline.scan source).root.Descends :=
  ((node_at (.ofText source)).descends Cursor.ofText_placed).descends

end Reading

/-! ### The lines of an entry's keys -/

/-- The key of an entry, or one right below it, stands on a line. -/
def Entry.Owns (e : Entry Node) (line : Nat) : Prop :=
  e.position.line = line ∨ ∃ inner ∈ e.value.entries?.getD [], inner.position.line = line

/-- The keys of an entry stand on its lines. -/
theorem Entry.Owns.within {e : Entry Node} {line : Nat} (h : e.Owns line)
    (nonempty : e.lines.Nonempty) (nested : e.value.Nested e.lines) :
    e.lines.first ≤ line ∧ line ≤ e.lines.last := by
  rcases h with rfl | ⟨inner, hinner, rfl⟩
  · exact ⟨Nat.le_refl _, nonempty⟩
  · have hparts := nested.consecutive_entries.1
    have hmem := List.mem_map_of_mem (f := Entry.lines) hinner
    obtain ⟨hfirst, hlast⟩ := hparts.within _ hmem
    exact ⟨hfirst, Nat.le_trans (hparts.nonempty _ hmem) hlast⟩

/-- An entry with a list below it has one key of its own. -/
theorem Entry.Owns.eq_of_innerList {e : Entry Node} {line : Nat} {list : List (Item Node)}
    (h : e.Owns line) (inner : InnerList e.value list) : e.position.line = line := by
  rcases h with rfl | ⟨other, hother, -⟩
  · rfl
  · cases hvalue : e.value with
    | sequence position items =>
      rw [hvalue] at hother
      cases hother
    | mapping | scalar | empty =>
      rw [hvalue] at inner
      cases inner

/-- The keys of entries that follow one another stand on later and later lines. -/
theorem entries_lines_pairwise {range : LineRange} {entries : List (Entry Node)}
    (h : Consecutive range (entries.map Entry.lines)) :
    (entries.map (·.position.line)).Pairwise (· < ·) := by
  refine List.pairwise_map.mpr ((List.pairwise_map.mp h.order).imp_of_mem ?_)
  intro a b ha _ hbefore
  exact Nat.lt_of_le_of_lt (h.nonempty _ (List.mem_map_of_mem ha)) hbefore

/-- In an item, no key right below an entry stands on the line of an entry. -/
theorem line_ne_below {range : LineRange} {n : Node} (nested : n.Nested range)
    (descends : n.Descends) {entry other inner : Entry Node} (hentry : entry ∈ n.entries?.getD [])
    (hother : other ∈ n.entries?.getD []) (hinner : inner ∈ entry.value.entries?.getD []) :
    other.position.line ≠ inner.position.line := by
  intro same
  obtain ⟨hentries, hvalues⟩ := nested.consecutive_entries
  have hmem : ∀ {e}, e ∈ n.entries?.getD [] → e.lines ∈ (n.entries?.getD []).map Entry.lines :=
    List.mem_map_of_mem
  have owns : entry.Owns inner.position.line := .inr ⟨inner, hinner, rfl⟩
  obtain rfl := eq_of_mem_lines hentries hother hentry
    ⟨Nat.le_of_eq same, same ▸ hentries.nonempty _ (hmem hother)⟩
    (owns.within (hentries.nonempty _ (hmem hentry)) (hvalues entry hentry))
  have hbelow := (descends.of_entries?_getD other hentry).2 inner hinner
  omega

namespace InnerList

variable {source : List Char} {range : LineRange} {n : Node} {list other : List (Item Node)}

/-- The items of an inner list are nested in the lines of the node. -/
theorem items_nested (h : InnerList n list) (nested : n.Nested range) :
    ∀ item ∈ list, item.lines.Within range ∧ item.lines.Nonempty ∧
      item.value.Nested item.lines := by
  induction h generalizing range with
  | here =>
    cases nested with
    | sequence parts values =>
      intro item hitem
      have hmem := List.mem_map_of_mem (f := Item.lines) hitem
      exact ⟨parts.within _ hmem, parts.nonempty _ hmem, values item hitem⟩
  | under houtside houter inner ih =>
    cases nested with
    | sequence parts values =>
      intro item hitem
      obtain ⟨hentries, hvalues⟩ := (values _ houtside).consecutive_entries
      obtain ⟨hwithin, hitem⟩ := ih (hvalues _ houter) item hitem
      have houterWithin := hentries.within _ (List.mem_map_of_mem houter)
      have houtsideWithin := parts.within _ (List.mem_map_of_mem houtside)
      exact ⟨hwithin.trans (houterWithin.trans houtsideWithin), hitem⟩

theorem descends (h : InnerList n list) (hn : n.Descends) : ∀ item ∈ list, item.value.Descends := by
  induction h with
  | here =>
    cases hn with
    | sequence values => exact values
  | under hitem houter inner ih =>
    cases hn with
    | sequence values => exact ih ((values _ hitem).of_entries?_getD _ houter).1

/-- A line of an entry of an item lies within the item. -/
theorem owns_within (h : InnerList n list) (nested : n.Nested range) {item : Item Node}
    (hitem : item ∈ list) {e : Entry Node} (he : e ∈ item.value.entries?.getD []) {line : Nat}
    (owns : e.Owns line) :
    (e.lines.first ≤ line ∧ line ≤ e.lines.last) ∧
      item.lines.first ≤ line ∧ line ≤ item.lines.last := by
  obtain ⟨-, -, hvalue⟩ := h.items_nested nested item hitem
  obtain ⟨hentries, hvalues⟩ := hvalue.consecutive_entries
  have hmem := List.mem_map_of_mem (f := Entry.lines) he
  obtain ⟨hfirst, hlast⟩ := hentries.within _ hmem
  have hline := owns.within (hentries.nonempty _ hmem) (hvalues e he)
  exact ⟨hline, Nat.le_trans hfirst hline.1, Nat.le_trans hline.2 hlast⟩

/-- A line of an entry below an entry lies on the lines of that, behind its key. -/
theorem under_owns {item j : Item Node} {outer f : Entry Node} {holder last line : Nat}
    (inner : InnerList outer.value list)
    (houter : outer ∈ item.value.entries?.getD []) (nested : item.value.Nested item.lines)
    (read : item.value.Read source holder last) (hj : j ∈ list)
    (hf : f ∈ j.value.entries?.getD []) (owns : f.Owns line) :
    outer.position.line < line ∧ (outer.lines.first ≤ line ∧ line ≤ outer.lines.last) ∧
      item.lines.first ≤ line ∧ line ≤ item.lines.last := by
  obtain ⟨hentries, hvalues⟩ := nested.consecutive_entries
  obtain ⟨⟨hfirst, hlast⟩, -⟩ := inner.items_nested (hvalues _ houter) j hj
  obtain ⟨houterFirst, houterLast⟩ := hentries.within _ (List.mem_map_of_mem houter)
  obtain ⟨-, hlow, hhigh⟩ := inner.owns_within (hvalues _ houter) hj hf owns
  have hbehind := inner.behind (hvalues _ houter) (read.behind_entries _ houter).1 j hj
  exact ⟨Nat.lt_of_lt_of_le hbehind hlow,
    ⟨Nat.le_trans hfirst hlow, Nat.le_trans hhigh hlast⟩,
    Nat.le_trans houterFirst (Nat.le_trans hfirst hlow),
    Nat.le_trans hhigh (Nat.le_trans hlast houterLast)⟩

/-- An entry of an item has no line with the entries of a list below an item beside it. -/
theorem not_owns_under {items : List (Item Node)} {item i j : Item Node} {outer e f : Entry Node}
    {position : Position} {holder last line : Nat}
    (nested : (Node.sequence position items).Nested range) (hi : i ∈ items)
    (he : e ∈ i.value.entries?.getD []) (owns : e.Owns line) (hitem : item ∈ items)
    (inner : InnerList outer.value list) (houter : outer ∈ item.value.entries?.getD [])
    (read : item.value.Read source holder last) (hj : j ∈ list)
    (hf : f ∈ j.value.entries?.getD []) (ownsF : f.Owns line) : False := by
  obtain ⟨hentry, hwithin⟩ := InnerList.here.owns_within nested hi he owns
  cases nested with
  | sequence parts values =>
    obtain ⟨hbehind, houterLine, hitemLine⟩ :=
      inner.under_owns houter (values _ hitem) read hj hf ownsF
    obtain rfl := eq_of_mem_lines parts hi hitem hwithin hitemLine
    obtain rfl := eq_of_mem_lines (values _ hi).consecutive_entries.1 he houter hentry houterLine
    exact Nat.lt_irrefl _ (owns.eq_of_innerList inner ▸ hbehind)

/-- **The line of an entry's key tells the entry and its item.** -/
theorem eq_of_owns {holder last line : Nat} (h : InnerList n list) (hother : InnerList n other)
    (nested : n.Nested range) (read : n.Read source holder last) {i j : Item Node}
    {e f : Entry Node} (hi : i ∈ list) (hj : j ∈ other) (he : e ∈ i.value.entries?.getD [])
    (hf : f ∈ j.value.entries?.getD []) (owns : e.Owns line) (ownsF : f.Owns line) :
    i = j ∧ e = f := by
  induction h generalizing range holder last with
  | here =>
    cases hother with
    | here =>
      obtain ⟨hentry, hwithin⟩ := InnerList.here.owns_within nested hi he owns
      obtain ⟨hentryF, hwithinF⟩ := InnerList.here.owns_within nested hj hf ownsF
      cases nested with
      | sequence parts values =>
        obtain rfl := eq_of_mem_lines parts hi hj hwithin hwithinF
        exact ⟨rfl, eq_of_mem_lines (values _ hi).consecutive_entries.1 he hf hentry hentryF⟩
    | under hitem houter inner =>
      cases read with
      | sequence next reads =>
        exact (not_owns_under nested hi he owns hitem inner houter (reads _ hitem) hj hf ownsF).elim
  | under hitem houter inner ih =>
    cases read with
    | sequence next reads =>
      cases hother with
      | here =>
        exact (not_owns_under nested hj hf ownsF hitem inner houter (reads _ hitem) hi he owns).elim
      | under hitem' houter' inner' =>
        cases nested with
        | sequence parts values =>
          -- Both lists lie on the lines of one item, and there on those of one entry.
          obtain ⟨-, houterLine, hitemLine⟩ :=
            inner.under_owns houter (values _ hitem) (reads _ hitem) hi he owns
          obtain ⟨-, houterLine', hitemLine'⟩ :=
            inner'.under_owns houter' (values _ hitem') (reads _ hitem') hj hf ownsF
          obtain rfl := eq_of_mem_lines parts hitem hitem' hitemLine hitemLine'
          obtain ⟨hentries, hvalues⟩ := (values _ hitem).consecutive_entries
          obtain rfl := eq_of_mem_lines hentries houter houter' houterLine houterLine'
          exact ih inner' (hvalues _ houter) ((reads _ hitem).behind_entries _ houter).2 hi

end InnerList

end PlaybookStyle.Outline
