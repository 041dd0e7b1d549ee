/-
What the scanner reads, line by line.

The lines with structure behind a line are all that the scanner has left when it
has passed that line (`Cursor.Follows`); only the first of them may be entered, to
read what stands behind its dash. So two facts hold of every outline
(`Node.Read`). Of two items in a row the second begins on the first line with
structure behind the last line of the first. And a scalar is what `scalarText`
makes of the text at its place and of the lines with structure behind it, where
the key or dash that holds it tells how deep these lines have to be.

* `scan_read` — the outline of any text is read so.
* `scan_scalar` — and every scalar in it.
-/

import Mathlib.Data.List.Chain
import PlaybookStyle.Proofs.Outline.Nesting

namespace PlaybookStyle.Outline

open Text

/-! ### The lines behind a line -/

/-- The logical lines of a text behind the line with a number. -/
def linesAfter (source : List Char) (n : Nat) : List LogicalLine :=
  LogicalLine.ofLines (n + 1) ((splitLines source).drop n)

/-- A logical line read from the source line with its number. -/
def LogicalLine.Of (source : List Char) (line : LogicalLine) : Prop :=
  ∃ cut, (splitLines source)[line.number - 1]? = some cut ∧
    LogicalLine.ofLine? line.number cut = some line

/-- The line with a number carries structure. -/
def CarriesAt (source : List Char) (number : Nat) : Prop :=
  ∃ line : LogicalLine, line.Of source ∧ line.number = number

/-- The line with a number carries no structure. -/
def IdleAt (source : List Char) (number : Nat) : Prop :=
  ∀ cut, (splitLines source)[number - 1]? = some cut → LogicalLine.ofLine? number cut = none

section Behind

variable {source : List Char} {n : Nat} {line : LogicalLine} {rest : List LogicalLine}

theorem linesAfter_zero (source : List Char) : linesAfter source 0 = LogicalLine.ofText source :=
  rfl

theorem drop_succ_of_drop_eq_cons {α : Type} {list rest : List α} {a : α} {n : Nat}
    (h : list.drop n = a :: rest) : list[n]? = some a ∧ list.drop (n + 1) = rest := by
  constructor
  · rw [← Nat.add_zero n, ← List.getElem?_drop, h]
    rfl
  · rw [← List.tail_drop, h]
    rfl

theorem LogicalLine.number_of_ofLine? {number : Nat} {cut : List Char}
    (h : LogicalLine.ofLine? number cut = some line) : line.number = number := by
  rw [LogicalLine.ofLine?_eq] at h
  split at h
  · cases h
  · split at h
    · cases h
    · obtain rfl := Option.some.inj h
      rfl

/-- The first logical line behind a line: it is read from its source line, no line
before it carries structure, and behind it are the others. -/
theorem linesAfter_cons (h : linesAfter source n = line :: rest) :
    n < line.number ∧ linesAfter source line.number = rest ∧ line.Of source ∧
      ∀ k, n < k → k < line.number → IdleAt source k := by
  generalize hcuts : (splitLines source).drop n = cuts
  rw [linesAfter, hcuts] at h
  induction cuts generalizing n with
  | nil => cases h
  | cons cut cuts ih =>
    obtain ⟨hcut, hdrop⟩ := drop_succ_of_drop_eq_cons hcuts
    rw [LogicalLine.ofLines] at h
    cases hline : LogicalLine.ofLine? (n + 1) cut with
    | none =>
      rw [hline] at h
      obtain ⟨hlt, hrest, hread, hidle⟩ := ih h hdrop
      refine ⟨by omega, hrest, hread, fun k hlow hhigh => ?_⟩
      by_cases hk : k = n + 1
      · subst hk
        intro other hother
        rw [Nat.add_sub_cancel, hcut] at hother
        obtain rfl := Option.some.inj hother
        exact hline
      · exact hidle k (by omega) hhigh
    | some first =>
      rw [hline] at h
      obtain ⟨rfl, rfl⟩ := List.cons.inj h
      have hnumber := LogicalLine.number_of_ofLine? hline
      refine ⟨by omega, ?_, ⟨cut, ?_, ?_⟩, fun k hlow hhigh => by omega⟩
      · rw [linesAfter, hnumber, hdrop]
        rfl
      · rw [hnumber, Nat.add_sub_cancel]
        exact hcut
      · rw [hnumber]
        exact hline

theorem of_mem_linesAfter (h : line ∈ linesAfter source n) : line.Of source := by
  generalize hlines : linesAfter source n = lines at h
  induction lines generalizing n with
  | nil => cases h
  | cons first lines ih =>
    obtain ⟨-, hrest, hof, -⟩ := linesAfter_cons hlines
    rcases List.mem_cons.mp h with rfl | h
    · exact hof
    · exact ih hrest h

/-- Behind the last of some lines taken are the lines that follow them. -/
theorem linesAfter_append {taken after : List LogicalLine}
    (h : linesAfter source n = taken ++ after) :
    linesAfter source ((taken.getLast?.map LogicalLine.number).getD n) = after := by
  induction taken generalizing n with
  | nil => exact h
  | cons line taken ih =>
    have hrest := ih (linesAfter_cons h).2.1
    rw [List.getLast?_cons]
    cases hlast : taken.getLast? with
    | none =>
      rw [hlast] at hrest
      exact hrest
    | some last =>
      rw [hlast] at hrest
      exact hrest

end Behind

/-! ### Texts up to the end of their line -/

/-- A text is what a line has from a place on, up to the blanks at its end. -/
def RestAt (source : List Char) (place : Position) (text : List Char) : Prop :=
  ∃ cut before, (splitLines source)[place.line - 1]? = some cut ∧ trimEnd cut = before ++ text ∧
    place.column = byteLength before + 1

section Rests

variable {source : List Char} {line : LogicalLine}

theorem RestAt.right {number column : Nat} {a b : List Char}
    (h : RestAt source ⟨number, column⟩ (a ++ b)) :
    RestAt source ⟨number, column + byteLength a⟩ b := by
  obtain ⟨cut, before, hcut, hsplit, hcolumn⟩ := h
  refine ⟨cut, before ++ a, hcut, by rw [hsplit, List.append_assoc], ?_⟩
  simp only [byteLength_append] at hcolumn ⊢
  omega

theorem LogicalLine.Of.restAt (h : line.Of source) :
    RestAt source ⟨line.number, line.indent + 1⟩ line.text := by
  obtain ⟨cut, hcut, hread⟩ := h
  have hspaces : ((trimEnd cut).takeWhile (· == ' ')).all (· == ' ') := List.all_takeWhile
  generalize line.number = number at hcut hread
  rw [LogicalLine.ofLine?_eq] at hread
  split at hread
  · cases hread
  · split at hread
    · cases hread
    · obtain rfl := Option.some.inj hread
      refine ⟨cut, (trimEnd cut).takeWhile (· == ' '), hcut, ?_, ?_⟩
      · exact List.takeWhile_append_dropWhile.symm
      · rw [byteLength_eq_length_of_spaces hspaces]

/-- What stands behind a dash goes on to the end of the line. -/
theorem RestAt.item (h : RestAt source ⟨line.number, line.indent + 1⟩ line.text)
    (hitem : isItem line.text = true) :
    RestAt source ⟨line.number, line.behindDash.indent + 1⟩ line.item := by
  obtain ⟨front, htext, hindent⟩ := LogicalLine.exists_front_of_isItem hitem
  rw [htext] at h
  have hright := h.right
  rwa [Nat.add_right_comm, ← hindent] at hright

/-- What stands behind a colon goes on to the end of the line. -/
theorem RestAt.value {split : KeySplit} (h : RestAt source ⟨line.number, line.indent + 1⟩ line.text)
    (hkey : splitKey line.text = some split) :
    RestAt source ⟨line.number, line.indent + split.colon + byteLength split.gap + 2⟩
      split.value := by
  obtain ⟨front, htext, hfront⟩ := exists_front_of_splitKey hkey
  rw [htext] at h
  have hright := h.right
  rwa [show line.indent + split.colon + byteLength split.gap + 2 =
    line.indent + 1 + byteLength front by omega]

end Rests

/-! ### What is read -/

/-- A scalar as it is read: the text at its place, with what the lines behind it
add that are deeper than the indentation `parent`. -/
def Scalar.Read (source : List Char) (parent : Nat) (s : Scalar) : Prop :=
  ∃ text, RestAt source s.position text ∧ HasContent text ∧
    let found := scalarText text parent (linesAfter source s.position.line)
    s.raw = String.ofList found.1.raw ∧ s.text = String.ofList found.1.text ∧
      s.style = found.1.style ∧
      s.endLine = (found.2.1.getLast?.map LogicalLine.number).getD s.position.line

/-- Of two items in a row, the second begins on the first line with structure behind
the last line of the first, which has structure too. -/
def Item.Next (source : List Char) (item next : Item Node) : Prop :=
  CarriesAt source item.endLine ∧
    (linesAfter source item.endLine).head?.map LogicalLine.number = some next.position.line

/-- A node as it is read for a key or dash that stands on the line `last` at the
indentation `holder`. A scalar begins on that line, or on a deeper line below whose
own indentation then tells how deep its other lines are. Nothing holds the node that
is read first of all, with no line passed. -/
inductive Node.Read (source : List Char) : Nat → Nat → Node → Prop
  | empty {holder last : Nat} : Read source holder last .empty
  | sameLine {holder : Nat} {s : Scalar} (h : s.Read source holder) :
      Read source holder s.position.line (.scalar s)
  | ownLine {holder last : Nat} {s : Scalar} {line : LogicalLine} (behind : last < s.position.line)
      (own : line.Of source) (number : line.number = s.position.line)
      (deeper : last = 0 ∨ holder < line.indent) (h : s.Read source (line.indent - 1)) :
      Read source holder last (.scalar s)
  | sequence {holder last : Nat} {position : Position} {items : List (Item Node)}
      (next : items.IsChain (Item.Next source))
      (values : ∀ item ∈ items,
        Read source (item.position.column - 1) item.position.line item.value) :
      Read source holder last (.sequence position items)
  | mapping {holder last : Nat} {position : Position} {entries : List (Entry Node)}
      (behind : ∀ entry ∈ entries, ∀ item ∈ entry.value.items,
        entry.position.line < item.position.line)
      (values : ∀ entry ∈ entries,
        Read source (entry.position.column - 1) entry.position.line entry.value) :
      Read source holder last (.mapping position entries)

/-- The lines that are left at a cursor are those behind the last line passed. The
first may be entered, where an item or a key stands behind its dash. -/
inductive Cursor.Left (source : List Char) (c : Cursor) : Prop
  | fresh (h : linesAfter source c.lastLine = c.lines)
  | entered {line head : LogicalLine} {rest : List LogicalLine}
      (h : linesAfter source c.lastLine = line :: rest) (lines : c.lines = head :: rest)
      (number : head.number = line.number)
      (stands : RestAt source ⟨head.number, head.indent + 1⟩ head.text)
      (opens : (isItem head.text || (splitKey head.text).isSome) = true)

/-- The cursor has passed a line with structure, or none, and the others are left. -/
structure Cursor.Follows (source : List Char) (c : Cursor) : Prop where
  passed : c.lastLine = 0 ∨ CarriesAt source c.lastLine
  left : c.Left source

section Cursors

variable {source : List Char} {c : Cursor} {line : LogicalLine} {rest : List LogicalLine}

namespace Cursor.Follows

theorem ofText (source : List Char) : (Cursor.ofText source).Follows source :=
  ⟨.inl rfl, .fresh (linesAfter_zero source)⟩

/-- The first line left, and the lines behind it. -/
theorem first (hc : c.Follows source) (h : c.lines = line :: rest) :
    (linesAfter source c.lastLine).head?.map LogicalLine.number = some line.number ∧
      CarriesAt source line.number ∧ linesAfter source line.number = rest ∧
      RestAt source ⟨line.number, line.indent + 1⟩ line.text := by
  cases hc.left with
  | fresh hfresh =>
    rw [h] at hfresh
    obtain ⟨-, hrest, hof, -⟩ := linesAfter_cons hfresh
    exact ⟨by rw [hfresh]; rfl, ⟨line, hof, rfl⟩, hrest, hof.restAt⟩
  | @entered first _ _ hlines hhead number stands =>
    obtain ⟨rfl, rfl⟩ := List.cons.inj (h.symm.trans hhead)
    obtain ⟨-, hrest, hof, -⟩ := linesAfter_cons hlines
    rw [← number] at hrest
    exact ⟨by rw [hlines, number]; rfl, ⟨first, hof, number.symm⟩, hrest, stands⟩

theorem pass (hc : c.Follows source) (h : c.lines = line :: rest) :
    (c.pass line rest).Follows source := by
  obtain ⟨-, hcarries, hrest, -⟩ := hc.first h
  exact ⟨.inr hcarries, .fresh hrest⟩

theorem enter (hc : c.Follows source) (h : c.lines = line :: rest) (hitem : isItem line.text = true)
    (opens : (isItem line.item || (splitKey line.item).isSome) = true) :
    (c.enter line rest).Follows source := by
  obtain ⟨hfirst, -, hrest, hstands⟩ := hc.first h
  obtain ⟨first, hhead, hnumber⟩ := Option.map_eq_some_iff.mp hfirst
  obtain ⟨others, hothers⟩ := List.head?_eq_some_iff.mp hhead
  have hsame : others = rest := by
    rw [← (linesAfter_cons hothers).2.1, hnumber]
    exact hrest
  subst hsame
  exact ⟨hc.passed, .entered hothers rfl hnumber.symm (hstands.item hitem) opens⟩

/-- A line that opens neither an item nor an entry was not entered. -/
theorem of_plain (hc : c.Follows source) (h : c.lines = line :: rest)
    (hitem : isItem line.text = false) (hkey : splitKey line.text = none) : line.Of source := by
  cases hc.left with
  | fresh hfresh =>
    rw [h] at hfresh
    exact (linesAfter_cons hfresh).2.2.1
  | entered _ hhead _ _ opens =>
    obtain ⟨rfl, rfl⟩ := List.cons.inj (h.symm.trans hhead)
    simp [hitem, hkey] at opens

theorem passVerbatim {passed : List LogicalLine} (hc : c.Follows source)
    (hfresh : linesAfter source c.lastLine = passed ++ rest) (first : Nat) :
    (c.passVerbatim first passed rest).Follows source := by
  refine ⟨?_, .fresh (linesAfter_append hfresh)⟩
  cases hlast : passed.getLast? with
  | none =>
    simp only [Cursor.passVerbatim, hlast]
    exact hc.passed
  | some last =>
    have hmem : last ∈ linesAfter source c.lastLine := by
      rw [hfresh]
      exact List.mem_append_left _ (List.mem_of_getLast? hlast)
    simp only [Cursor.passVerbatim, hlast]
    exact .inr ⟨last, of_mem_linesAfter hmem, rfl⟩

end Cursor.Follows

/-- The scalar that is read behind the last line passed, and what is left behind it. -/
theorem scalarAt_read {text : List Char} {position : Position} {parent : Nat}
    {tag? : Option (List Char)} (hc : c.Placed source) (hfollows : c.Follows source)
    (hfresh : linesAfter source c.lastLine = c.lines) (hline : c.lastLine = position.line)
    (hrest : RestAt source position text) (hcontent : HasContent text) :
    (scalarAt tag? text position parent c).1.1.Read source parent position.line ∧
      (scalarAt tag? text position parent c).1.2.Follows source := by
  have hpasses : c.lastLine ≤ (scalarAt tag? text position parent c).1.2.lastLine :=
    scalarAt_lastLine_le hc
  have hlines : linesAfter source position.line = c.lines := hline ▸ hfresh
  have htaken := hfresh.trans (scalarText_append text parent c.lines).symm
  have hmax : max (scalarAt tag? text position parent c).1.2.lastLine c.lastLine =
      (scalarAt tag? text position parent c).1.2.lastLine := Nat.max_eq_left hpasses
  refine ⟨?_, hfollows.passVerbatim htaken position.line⟩
  refine Node.Read.sameLine (s := ⟨_, _, _, position, _, _⟩) ⟨text, hrest, hcontent, ?_⟩
  dsimp only
  rw [hlines]
  refine ⟨rfl, rfl, rfl, ?_⟩
  rw [← hline]
  exact hmax

/-- What stands behind the dash of each item is read for that dash. -/
theorem Node.Read.sequence_values {holder last : Nat} {position : Position}
    {items : List (Item Node)} (h : (Node.sequence position items).Read source holder last) :
    ∀ item ∈ items, item.value.Read source (item.position.column - 1) item.position.line := by
  cases h with
  | sequence next values => exact values

theorem Node.Read.mapping_values {holder last : Nat} {position : Position}
    {entries : List (Entry Node)} (h : (Node.mapping position entries).Read source holder last) :
    ∀ entry ∈ entries,
      entry.value.Read source (entry.position.column - 1) entry.position.line := by
  cases h with
  | mapping behind values => exact values

/-- What is read on a line of its own goes on as deep as that line. -/
theorem Node.Read.own {holder last : Nat} {n : Node} (hline : line.Of source)
    (hlast : last < line.number) (hdeeper : last = 0 ∨ holder < line.indent)
    (h : n.Read source (line.indent - 1) line.number) : n.Read source holder last := by
  generalize hnumber : line.number = number at h hlast
  cases h with
  | empty => exact .empty
  | sameLine h => exact .ownLine hlast hline hnumber hdeeper h
  | ownLine behind own number deeper h =>
    exact .ownLine (Nat.lt_trans hlast behind) own number (by omega) h
  | sequence next values => exact .sequence next values
  | mapping behind values => exact .mapping behind values

/-- A collection is read the same wherever the key or dash stands that holds it. -/
theorem Node.Read.of_scalar?_eq_none {holder last other : Nat} {n : Node}
    (h : n.Read source holder last) (hn : n.scalar? = none) : n.Read source holder other := by
  cases h with
  | empty => exact .empty
  | sameLine => cases hn
  | ownLine => cases hn
  | sequence next values => exact .sequence next values
  | mapping behind values => exact .mapping behind values

theorem forall_mem_head?_of_eq {lines : List LogicalLine} {next : LogicalLine} {holder : Nat}
    (h : lines.head? = some next) (deeper : holder < next.indent) :
    ∀ other ∈ lines.head?, holder < other.indent := by
  intro other hother
  obtain rfl := Option.some.inj (h.symm.trans hother)
  exact deeper

/-- A line that opens an item or an entry begins a collection. -/
theorem NodeAt.scalar?_of_opens {after : Cursor} {n : Node} (found : NodeAt c n after)
    (h : c.lines = line :: rest)
    (opens : (isItem line.text || (splitKey line.text).isSome) = true) : n.scalar? = none := by
  cases found with
  | nothing => rfl
  | sequence => rfl
  | mapping => rfl
  | value h' hitem hkey =>
    obtain ⟨rfl, rfl⟩ := List.cons.inj (h'.symm.trans h)
    simp [hitem, hkey] at opens

mutual

/-- What is read at a cursor, with the items of a sequence behind the last line
passed. -/
theorem NodeAt.read {c after : Cursor} {n : Node} :
    NodeAt c n after → c.Placed source → c.Follows source →
      (∀ holder, (c.lastLine = 0 ∨ ∀ next ∈ c.lines.head?, holder < next.indent) →
        n.Read source holder c.lastLine) ∧
      (∀ item ∈ n.items, c.lastLine < item.position.line) ∧ after.Follows source
  | .nothing _ => fun _ hfollows => ⟨fun _ _ => .empty, by simp [Node.items], hfollows⟩
  | .sequence _ _ found => by
    intro hc hfollows
    obtain ⟨hnext, hvalues, hbehind, -, hafter⟩ := found.read hc hfollows
    exact ⟨fun _ _ => .sequence hnext hvalues, hbehind, hafter⟩
  | .mapping _ _ _ found => by
    intro hc hfollows
    obtain ⟨hbehind, hvalues, hafter⟩ := found.read hc hfollows
    exact ⟨fun _ _ => .mapping hbehind hvalues, by simp [Node.items], hafter⟩
  | .value h hitem hkey found => by
    intro hc hfollows
    have hline := hc.line_stands h
    have hlast := hc.lastLine_lt h
    obtain ⟨-, -, hlines, hrest⟩ := hfollows.first h
    obtain ⟨hread, hitems, hafter⟩ :=
      found.read (hc.pass h) (hfollows.pass h) hlines rfl hrest (.inr hline.content)
    refine ⟨fun holder hdeeper => hread.own (hfollows.of_plain h hitem hkey) hlast ?_,
      fun item hmem => Nat.lt_trans hlast (hitems item hmem), hafter⟩
    exact hdeeper.imp_right fun hnext => hnext _ (List.head?_eq_some_iff.mpr ⟨_, h⟩)

theorem ItemsAt.read {indent : Nat} {c after : Cursor} {list : List (Item Node)} :
    ItemsAt indent c list after → c.Placed source → c.Follows source →
      list.IsChain (Item.Next source) ∧
        (∀ item ∈ list, item.value.Read source (item.position.column - 1) item.position.line) ∧
        (∀ item ∈ list, c.lastLine < item.position.line) ∧
        (∀ item ∈ list.head?,
          (linesAfter source c.lastLine).head?.map LogicalLine.number = some item.position.line) ∧
        after.Follows source
  | .stop _ => fun _ hfollows => ⟨.nil, by simp, by simp, by simp, hfollows⟩
  | .item h hindent hitem first more => by
    intro hc hfollows
    have hlast := hc.lastLine_lt h
    obtain ⟨hread, hmid⟩ := first.read h hitem hc hfollows
    have hpassed := (first.nests h hitem hc).2
    obtain ⟨hnext, hvalues, hbehind, hhead, hafter⟩ :=
      more.read (first.placed h hitem hc).2 hmid
    have hcarries := hmid.passed.resolve_left (by omega)
    refine ⟨List.isChain_cons.mpr ⟨fun item hitem => ⟨hcarries, hhead item hitem⟩, hnext⟩, ?_, ?_, ?_,
      hafter⟩
    · intro item hmem
      rcases List.mem_cons.mp hmem with rfl | hmem
      · subst hindent
        exact hread
      · exact hvalues item hmem
    · intro item hmem
      rcases List.mem_cons.mp hmem with rfl | hmem
      · exact hlast
      · exact Nat.lt_trans hlast (Nat.lt_of_le_of_lt hpassed (hbehind item hmem))
    · rintro item ⟨⟩
      exact (hfollows.first h).1

theorem ItemAt.read {c after : Cursor} {line : LogicalLine} {rest : List LogicalLine} {n : Node} :
    ItemAt c line rest n after → c.lines = line :: rest → isItem line.text = true →
      c.Placed source → c.Follows source →
        n.Read source line.indent line.number ∧ after.Follows source
  | .deeper _ hnext hdeeper found => by
    intro h _ hc hfollows
    obtain ⟨hread, -, hafter⟩ := found.read (hc.pass h) (hfollows.pass h)
    exact ⟨hread _ (.inr (forall_mem_head?_of_eq hnext hdeeper)), hafter⟩
  | .empty _ _ => fun h _ _ hfollows => ⟨.empty, hfollows.pass h⟩
  | .behind hpresent hcollection found => by
    intro h hitem hc hfollows
    obtain ⟨hread, -, hafter⟩ :=
      found.read (hc.enter h hitem hpresent) (hfollows.enter h hitem hcollection)
    obtain ⟨_, -, hindent⟩ := LogicalLine.text_eq_of_isItem hitem
    have hdeeper : line.indent < line.behindDash.indent := by omega
    have hcollected := hread line.indent (.inr (forall_mem_head?_of_eq rfl hdeeper))
    exact ⟨hcollected.of_scalar?_eq_none (found.scalar?_of_opens rfl hcollection), hafter⟩
  | .value hpresent _ found => by
    intro h hitem hc hfollows
    obtain ⟨-, -, hlines, hrest⟩ := hfollows.first h
    obtain ⟨hread, -, hafter⟩ := found.read (hc.pass h) (hfollows.pass h) hlines rfl
      (hrest.item hitem) (.inl (trimStart_trimStart _))
    exact ⟨hread, hafter⟩

theorem EntriesAt.read {indent : Nat} {c after : Cursor} {list : List (Entry Node)} :
    EntriesAt indent c list after → c.Placed source → c.Follows source →
      (∀ entry ∈ list, ∀ item ∈ entry.value.items, entry.position.line < item.position.line) ∧
        (∀ entry ∈ list,
          entry.value.Read source (entry.position.column - 1) entry.position.line) ∧
        after.Follows source
  | .stop _ => fun _ hfollows => ⟨by simp, by simp, hfollows⟩
  | .entry h hindent hkey first more => by
    intro hc hfollows
    obtain ⟨hread, hitems, hmid⟩ := first.read h hkey hc hfollows
    obtain ⟨hbehind, hvalues, hafter⟩ := more.read (first.placed h hkey hc).2 hmid
    refine ⟨List.forall_mem_cons.mpr ⟨hitems, hbehind⟩, ?_, hafter⟩
    subst hindent
    exact List.forall_mem_cons.mpr ⟨hread, hvalues⟩

theorem EntryAt.read {c after : Cursor} {line : LogicalLine} {rest : List LogicalLine}
    {split : KeySplit} {n : Node} :
    EntryAt c line rest split n after → c.lines = line :: rest →
      splitKey line.text = some split → c.Placed source → c.Follows source →
        n.Read source line.indent line.number ∧
          (∀ item ∈ n.items, line.number < item.position.line) ∧ after.Follows source
  | .deeper _ hnext hdeeper found => by
    intro h _ hc hfollows
    obtain ⟨hread, hitems, hafter⟩ := found.read (hc.pass h) (hfollows.pass h)
    exact ⟨hread _ (.inr (forall_mem_head?_of_eq hnext hdeeper)), hitems, hafter⟩
  | .items _ _ _ _ found => by
    intro h _ hc hfollows
    obtain ⟨hnext, hvalues, hbehind, -, hafter⟩ := found.read (hc.pass h) (hfollows.pass h)
    exact ⟨.sequence hnext hvalues, hbehind, hafter⟩
  | .empty _ _ => fun h _ _ hfollows => ⟨.empty, by simp [Node.items], hfollows.pass h⟩
  | .value _ found => by
    intro h hkey hc hfollows
    obtain ⟨-, -, hlines, hrest⟩ := hfollows.first h
    exact found.read (hc.pass h) (hfollows.pass h) hlines rfl (hrest.value hkey)
      (.inl (trimStart_trimStart _))

theorem ValueAt.read {text : List Char} {line column parent : Nat} {c after : Cursor} {n : Node} :
    ValueAt text line column parent c n after → c.Placed source → c.Follows source →
      linesAfter source c.lastLine = c.lines → c.lastLine = line →
      RestAt source ⟨line, column⟩ text → (trimStart text = text ∨ HasContent text) →
        n.Read source parent line ∧ (∀ item ∈ n.items, line < item.position.line) ∧
          after.Follows source
  | .deeper _ hnext hdeeper found => by
    intro hc hfollows _ hline _ _
    subst hline
    obtain ⟨hread, hitems, hafter⟩ := found.read hc hfollows
    exact ⟨hread _ (.inr (forall_mem_head?_of_eq hnext hdeeper)), hitems, hafter⟩
  | .empty _ _ => fun _ hfollows _ _ _ _ => ⟨.empty, by simp [Node.items], hfollows⟩
  | .scalar hskip hpresent => by
    intro hc hfollows hfresh hline hrest htext
    obtain ⟨skipped, happend, hstart, hcontent⟩ := skipProperties_append none column text
    rw [hskip] at happend hstart hcontent
    dsimp only at happend hstart hcontent
    rw [happend] at hrest
    rw [hstart]
    obtain ⟨hread, hafter⟩ :=
      scalarAt_read hc hfollows hfresh hline hrest.right (hcontent htext hpresent)
    exact ⟨hread, by simp [Node.items, scalarAt], hafter⟩

end

/-- **The outline is read line by line.** In the outline of any text, be it valid or
not, items that follow one another have no line with structure between them, and
every scalar is read from its place and the lines behind it. -/
theorem scan_read (source : List Char) (holder : Nat) :
    (Outline.scan source).root.Read source holder 0 :=
  ((node_at (.ofText source)).read Cursor.ofText_placed (.ofText source)).1 holder (.inl rfl)

end Cursors

/-! ### The scalars of an outline -/

/-- The number of spaces before the text of a line. -/
def indentOf (cut : List Char) : Nat := ((trimEnd cut).takeWhile (· == ' ')).length

theorem LogicalLine.Of.indent_eq {source : List Char} {line : LogicalLine} (h : line.Of source) :
    ∃ cut, (splitLines source)[line.number - 1]? = some cut ∧ line.indent = indentOf cut := by
  obtain ⟨cut, hcut, hread⟩ := h
  refine ⟨cut, hcut, ?_⟩
  generalize line.number = number at hread
  rw [LogicalLine.ofLine?_eq] at hread
  split at hread
  · cases hread
  · split at hread
    · cases hread
    · obtain rfl := Option.some.inj hread
      rfl

/-- A scalar in a node is the value behind a dash or key that stands on the line `last`
at the indentation `holder`. -/
inductive Node.Holds : Node → Nat → Nat → Scalar → Prop
  | item {position : Position} {items : List (Item Node)} {item : Item Node} {s : Scalar}
      (hitem : item ∈ items) (value : item.value = .scalar s) :
      Holds (.sequence position items) (item.position.column - 1) item.position.line s
  | entry {position : Position} {entries : List (Entry Node)} {entry : Entry Node} {s : Scalar}
      (hentry : entry ∈ entries) (value : entry.value = .scalar s) :
      Holds (.mapping position entries) (entry.position.column - 1) entry.position.line s
  | inItem {position : Position} {items : List (Item Node)} {item : Item Node} {s : Scalar}
      {holder last : Nat} (hitem : item ∈ items) (inner : Holds item.value holder last s) :
      Holds (.sequence position items) holder last s
  | inEntry {position : Position} {entries : List (Entry Node)} {entry : Entry Node} {s : Scalar}
      {holder last : Nat} (hentry : entry ∈ entries) (inner : Holds entry.value holder last s) :
      Holds (.mapping position entries) holder last s

/-- A node holds the value of the first key of its first item. -/
theorem Node.Holds.of_first {n : Node} {s : Scalar} (place : Position)
    (h : (n.items.head?.bind fun item => (item.value.entries?.getD []).head?).map
      (fun entry => (entry.position, entry.value.scalar?)) = some (place, some s)) :
    n.Holds (place.column - 1) place.line s := by
  obtain ⟨entry, hfound, hplace⟩ := Option.map_eq_some_iff.mp h
  obtain ⟨item, hitem, hentry⟩ := Option.bind_eq_some_iff.mp hfound
  obtain ⟨rfl, hvalue⟩ : entry.position = place ∧ entry.value.scalar? = some s :=
    Prod.ext_iff.mp hplace
  cases n with
  | sequence position items =>
    refine .inItem (List.mem_of_mem_head? hitem) ?_
    cases hmapping : item.value with
    | mapping position entries =>
      rw [hmapping] at hentry
      refine .entry (List.mem_of_mem_head? hentry) ?_
      cases hscalar : entry.value with
      | scalar found =>
        rw [hscalar] at hvalue
        rw [Option.some.inj hvalue]
      | mapping | sequence | empty =>
        rw [hscalar] at hvalue
        cases hvalue
    | sequence | scalar | empty =>
      rw [hmapping] at hentry
      cases hentry
  | mapping | scalar | empty => cases hitem

/-- The indentation that the other lines of a scalar are compared with: that of its key
or dash or, if the scalar begins on a line below, one less than that of its line. -/
def Scalar.parent (source : List Char) (holder last : Nat) (s : Scalar) : Nat :=
  if s.position.line = last then holder
  else ((splitLines source)[s.position.line - 1]?.map indentOf).getD 0 - 1

section Scalars

variable {source : List Char} {n : Node} {holder last : Nat} {s : Scalar}

theorem line_pos_of_standsAt {place : Position} {text : List Char} (h : StandsAt source place text) :
    0 < place.line := by
  obtain ⟨before, after, hline, -⟩ := h
  cases hnumber : place.line with
  | zero =>
    rw [hnumber] at hline
    cases hline
  | succ number => exact Nat.succ_pos number

theorem Node.Holds.read (held : n.Holds holder last s) (placed : n.Placed source) {top line : Nat}
    (read : n.Read source top line) : 0 < last ∧ (Node.scalar s).Read source holder last := by
  induction held generalizing top line with
  | item hitem value =>
    cases placed with
    | sequence _ stands _ =>
      exact ⟨line_pos_of_standsAt (stands _ hitem), value ▸ read.sequence_values _ hitem⟩
  | entry hentry value =>
    cases placed with
    | mapping _ stands _ =>
      obtain ⟨_, _, _, -, -, -, stands', -⟩ := stands _ hentry
      exact ⟨line_pos_of_standsAt stands', value ▸ read.mapping_values _ hentry⟩
  | inItem hitem _ ih =>
    cases placed with
    | sequence _ _ values => exact ih (values _ hitem) (read.sequence_values _ hitem)
  | inEntry hentry _ ih =>
    cases placed with
    | mapping _ _ values => exact ih (values _ hentry) (read.mapping_values _ hentry)

/-- **Every scalar of an outline** is read from its place and the lines behind it, where
the lines of a block or plain scalar are deeper than its parent. -/
theorem scan_scalar (held : (Outline.scan source).root.Holds holder last s) :
    s.Read source (s.parent source holder last) ∧ holder ≤ s.parent source holder last := by
  obtain ⟨hlast, hread⟩ := held.read (Outline.scan_placed source) (scan_read source 0)
  unfold Scalar.parent
  cases hread with
  | sameLine h => exact ⟨(if_pos rfl).symm ▸ h, Nat.le_of_eq (if_pos rfl).symm⟩
  | ownLine behind own number deeper h =>
    obtain ⟨cut, hcut, hindent⟩ := own.indent_eq
    rw [if_neg (Nat.ne_of_gt behind), ← number, hcut, Option.map_some, Option.getD_some, ← hindent]
    exact ⟨h, by omega⟩

end Scalars

end PlaybookStyle.Outline
