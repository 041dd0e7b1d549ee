/-
Sources with one scalar written anew.

A scalar is the value of a key on its line, or no key is before it (`Node.Reaches`). Where
its text is exchanged for another that begins at the same column (`Swap`), another is read at
the place of the scalar, held by the same key or dash (`NodeAt.swapped`). What is read behind
the line is not looked at here.
-/

import PlaybookStyle.Proofs.Outline.Differing
import PlaybookStyle.Proofs.Outline.First

namespace PlaybookStyle.Outline

open Text

/-! ### The scalar in the outline -/

/-- In the node of the key or dash at `own`, a scalar begins at a place, held by the key or
dash at `holder`. If it is `keyed` it is the value of that key, else no key stands on its
line. -/
inductive Node.Reaches (place holder : Position) (keyed : Bool) : Position → Node → Prop
  | scalar {s : Scalar} (position : s.position = place) (alone : keyed = false) :
      Reaches place holder keyed holder (.scalar s)
  | item {own position : Position} {items : List (Item Node)} {item : Item Node}
      (hitem : item ∈ items) (inner : Reaches place holder keyed item.position item.value) :
      Reaches place holder keyed own (.sequence position items)
  | value {own position : Position} {entries : List (Entry Node)} {entry : Entry Node} {s : Scalar}
      (hentry : entry ∈ entries) (value : entry.value = .scalar s) (begins : s.position = place)
      (holds : entry.position = holder) (behind : keyed = true) :
      Reaches place holder keyed own (.mapping position entries)
  | entry {own position : Position} {entries : List (Entry Node)} {entry : Entry Node}
      (hentry : entry ∈ entries) (earlier : entry.position.line < place.line)
      (inner : Reaches place holder keyed entry.position entry.value) :
      Reaches place holder keyed own (.mapping position entries)

/-- An entry reaches the scalar: it is the value of its key, or stands below. -/
inductive Entry.Reaches (place holder : Position) (keyed : Bool) (entry : Entry Node) : Prop
  | value {s : Scalar} (value : entry.value = .scalar s) (begins : s.position = place)
      (holds : entry.position = holder) (behind : keyed = true)
  | below (earlier : entry.position.line < place.line)
      (inner : entry.value.Reaches place holder keyed entry.position)

section Reaches

variable {place holder own : Position} {keyed : Bool} {n : Node}

@[simp] theorem Node.reaches_sequence {position : Position} {items : List (Item Node)} :
    (Node.sequence position items).Reaches place holder keyed own ↔
      ∃ item ∈ items, item.value.Reaches place holder keyed item.position := by
  constructor
  · rintro (_ | ⟨hitem, inner⟩)
    exact ⟨_, hitem, inner⟩
  · rintro ⟨item, hitem, inner⟩
    exact .item hitem inner

@[simp] theorem Node.reaches_mapping {position : Position} {entries : List (Entry Node)} :
    (Node.mapping position entries).Reaches place holder keyed own ↔
      ∃ entry ∈ entries, entry.Reaches place holder keyed := by
  constructor
  · rintro (_ | _ | ⟨hentry, value, place, holds, behind⟩ | ⟨hentry, earlier, inner⟩)
    · exact ⟨_, hentry, .value value place holds behind⟩
    · exact ⟨_, hentry, .below earlier inner⟩
  · rintro ⟨entry, hentry, ⟨value, place, holds, behind⟩ | ⟨earlier, inner⟩⟩
    · exact .value hentry value place holds behind
    · exact .entry hentry earlier inner

theorem Node.Everywhere.of_reaches {P : Position → Prop} (h : n.Everywhere P)
    (reaches : n.Reaches place holder keyed own) : P place := by
  induction reaches with
  | scalar position =>
    cases h with
    | scalar hs => exact position ▸ hs
  | item hitem _ ih =>
    cases h with
    | sequence _ values => exact ih (values _ hitem)
  | value hentry value place =>
    cases h with
    | mapping _ values =>
      have hvalue := values _ hentry
      rw [value] at hvalue
      cases hvalue with
      | scalar hs => exact place ▸ hs
  | entry hentry _ _ ih =>
    cases h with
    | mapping _ values => exact ih (values _ hentry)

theorem Entry.Reaches.of_everywhere {P : Position → Prop} {entry : Entry Node}
    (reaches : entry.Reaches place holder keyed) (h : entry.value.Everywhere P) : P place := by
  cases reaches with
  | value value position =>
    rw [value] at h
    cases h with
    | scalar hs => exact position ▸ hs
  | below _ inner => exact h.of_reaches inner

/-- A key that holds the scalar as its value stands in the node. -/
theorem Node.Reaches.of_keyed {P : Position → Prop} (reaches : n.Reaches place holder true own)
    (h : n.Everywhere P) : P holder := by
  generalize hkeyed : true = keyed at reaches
  induction reaches with
  | scalar _ alone => cases hkeyed.trans alone
  | item hitem _ ih =>
    cases h with
    | sequence _ values => exact ih (values _ hitem)
  | value hentry _ _ holds =>
    cases h with
    | mapping positions => exact holds ▸ positions _ hentry
  | entry hentry _ _ ih =>
    cases h with
    | mapping _ values => exact ih (values _ hentry)

/-- The node is the scalar, or holds it. -/
theorem Node.Reaches.cases_holds (reaches : n.Reaches place holder keyed own) :
    ∃ s : Scalar, s.position = place ∧
      (n = .scalar s ∧ own = holder ∨ n.Holds (holder.column - 1) holder.line s) := by
  induction reaches with
  | scalar position => exact ⟨_, position, .inl ⟨rfl, rfl⟩⟩
  | item hitem _ ih =>
    obtain ⟨s, position, ⟨value, rfl⟩ | inner⟩ := ih
    · exact ⟨s, position, .inr (.item hitem value)⟩
    · exact ⟨s, position, .inr (.inItem hitem inner)⟩
  | value hentry value position holds => exact ⟨_, position, .inr (holds ▸ .entry hentry value)⟩
  | entry hentry _ _ ih =>
    obtain ⟨s, position, ⟨value, rfl⟩ | inner⟩ := ih
    · exact ⟨s, position, .inr (.entry hentry value)⟩
    · exact ⟨s, position, .inr (.inEntry hentry inner)⟩

end Reaches

/-! ### Lines with the scalar exchanged -/

/-- In a text that starts at one column a scalar begins at another, behind tags and
anchors. -/
def ReadsAt (text : List Char) (start column : Nat) : Prop :=
  ∃ tag? rest, skipProperties none start text = (tag?, column, rest) ∧ isAbsent rest = false

theorem ReadsAt.present {text : List Char} {start column : Nat} (h : ReadsAt text start column) :
    isAbsent text = false := by
  obtain ⟨tag?, rest, hskip, hpresent⟩ := h
  cases text with
  | nil =>
    rw [skipProperties] at hskip
    cases hskip
    exact hpresent
  | cons c text =>
    refine beq_eq_false_iff_ne.mpr ?_
    rintro rfl
    rw [skipProperties, dif_neg (by decide)] at hskip
    cases hskip
    cases hpresent

/-- The text of a line behind its dashes, as it is and as it is written anew. A scalar
begins in both at the same column, held by the key or dash at `holder`. It is `keyed` if it
is the value of that key. -/
structure Swap extends Exchange where
  column : Nat
  holder : Position
  keyed : Bool
  alone : keyed = false → (isItem old || (splitKey old).isSome) = false ∧
    ReadsAt old (indent + 1) column ∧ ReadsAt new (indent + 1) column
  behind : keyed = true → holder = ⟨number, indent + 1⟩ ∧ (splitKey old).isSome = true ∧
    ∃ split, splitKey new = some split ∧
      ReadsAt split.value (indent + split.colon + byteLength split.gap + 2) column

namespace Swap

variable {r : Swap}

def place (r : Swap) : Position := ⟨r.number, r.column⟩

theorem not_keyed_of_eq_none (h : splitKey r.old = none) : r.keyed = false := by
  cases hkeyed : r.keyed with
  | false => rfl
  | true =>
    have hkey := (r.behind hkeyed).2.1
    rw [h] at hkey
    cases hkey

/-! ### The line itself -/

/-- A scalar without a key is read at the place in the new text. -/
theorem exists_valueAt (halone : r.keyed = false) (parent : Nat) (c : Cursor) :
    ∃ n after, ValueAt r.new r.number (r.indent + 1) parent c n after ∧
      n.Reaches r.place r.holder r.keyed r.holder := by
  obtain ⟨-, -, tag?, text, hskip, hpresent⟩ := r.alone halone
  exact ⟨_, _, .scalar hskip hpresent, .scalar rfl halone⟩

/-- And one was in the old text. -/
theorem own_eq_of_valueAt (halone : r.keyed = false) {parent : Nat} {c after : Cursor} {n : Node}
    {own : Position} (found : ValueAt r.old r.number (r.indent + 1) parent c n after)
    (reaches : n.Reaches r.place r.holder r.keyed own) : own = r.holder := by
  obtain ⟨-, ⟨tag?, text, hskip, hpresent⟩, -⟩ := r.alone halone
  cases found with
  | deeper habsent =>
    rw [hskip] at habsent
    exact absurd (hpresent.symm.trans habsent) (by decide)
  | empty habsent =>
    rw [hskip] at habsent
    exact absurd (hpresent.symm.trans habsent) (by decide)
  | scalar =>
    cases reaches
    rfl

/-- A scalar that is the value of a key is read at the place in the new text. -/
theorem exists_entryAt (hkeyed : r.keyed = true) (c : Cursor) (rest : List LogicalLine) :
    ∃ split s after, splitKey r.new = some split ∧
      EntryAt c r.newLine rest split (.scalar s) after ∧ s.position = r.place := by
  obtain ⟨-, -, split, hkey, hread⟩ := r.behind hkeyed
  obtain ⟨tag?, text, hskip, hpresent⟩ := id hread
  exact ⟨split, _, _, hkey, .value hread.present (.scalar hskip hpresent), rfl⟩

end Swap

/-! ### Reading up to the scalar -/

section Reading

variable {source : List Char} {r : Swap}

/-- What the items reach is behind the last line passed. -/
theorem ItemsAt.line_lt {indent : Nat} {c after : Cursor} {list : List (Item Node)}
    (found : ItemsAt indent c list after) (hc : c.Placed source) {item : Item Node}
    (hitem : item ∈ list) {place holder own : Position} {keyed : Bool}
    (reaches : item.value.Reaches place holder keyed own) : c.lastLine < place.line := by
  have hnests := (found.nests hc _ (Nat.lt_succ_self _) hc.lastLine_lt_head).sequence ⟨0, 0⟩
  cases hnests.nested.everywhere with
  | sequence _ values => exact ((values item hitem).of_reaches reaches).1

theorem EntriesAt.line_lt {indent : Nat} {c after : Cursor} {list : List (Entry Node)}
    (found : EntriesAt indent c list after) (hc : c.Placed source) {entry : Entry Node}
    (hentry : entry ∈ list) {place holder : Position} {keyed : Bool}
    (reaches : entry.Reaches place holder keyed) : c.lastLine < place.line := by
  have hnests := (found.nests hc _ (Nat.lt_succ_self _) hc.lastLine_lt_head).mapping ⟨0, 0⟩
  cases hnests.nested.everywhere with
  | mapping _ values => exact (reaches.of_everywhere (values entry hentry)).1

/-- A line with an item in which the scalar is has dashes before the scalar. -/
theorem Swap.dashed {line line' : LogicalLine} (hline : r.Line line line')
    (hitem : isItem line.text = true) {n : Node} {own : Position}
    (behind : n.Everywhere line.place.Before)
    (reaches : n.Reaches r.place r.holder r.keyed own) : r.Dashed line line' := by
  refine Exchange.Line.dashed hline ?_
  rintro rfl
  cases hkeyed : r.keyed with
  | false =>
    have hopens := (r.alone hkeyed).1
    rw [show isItem r.old = true from hitem, Bool.true_or] at hopens
    cases hopens
  | true =>
    rw [hkeyed] at reaches
    have hbefore := reaches.of_keyed behind
    rw [(r.behind hkeyed).1] at hbefore
    exact r.oldLine.place.not_before_self hbefore

mutual

/-- At the place of the scalar another is read. -/
theorem NodeAt.swapped {c after : Cursor} {n : Node} {own : Position} :
    NodeAt c n after → c.Placed source → ∀ {c'}, r.Ahead c c' →
      n.Reaches r.place r.holder r.keyed own →
        ∃ n' after', NodeAt c' n' after' ∧ n'.Reaches r.place r.holder r.keyed own
  | .nothing _ => by
    intro _ c' _ reaches
    cases reaches
  | .sequence h hitem found => by
    intro hc c' hahead reaches
    obtain ⟨line', rest', hlines', -, front⟩ := hahead.cases_front h
    obtain ⟨list', after', hfound, hreaches⟩ :=
      found.swapped hc hahead (Node.reaches_sequence.mp reaches)
    exact ⟨_, after', .sequence hlines' (front.isItem.trans hitem) (front.indent ▸ hfound),
      Node.reaches_sequence.mpr hreaches⟩
  | .mapping h hitem hkey found => by
    intro hc c' hahead reaches
    obtain ⟨line', rest', hlines', -, front⟩ := hahead.cases_front h
    obtain ⟨list', after', hfound, hreaches⟩ :=
      found.swapped hc hahead (Node.reaches_mapping.mp reaches)
    obtain ⟨split', hkey'⟩ := front.exists_splitKey hitem hkey
    exact ⟨_, after', .mapping hlines' (front.isItem.trans hitem) hkey' (front.indent ▸ hfound),
      Node.reaches_mapping.mpr hreaches⟩
  | @NodeAt.value _ _ line rest n h hitem hkey found => by
    intro hc c' hahead reaches
    rcases hahead.cases_lines h with ⟨line', hline, hlines'⟩ | ⟨rest', hrest, hlines'⟩
    · have hopens := hline.collection_eq
      obtain ⟨rfl, rfl⟩ := hline.eq_of_not_isItem hitem
      rw [hitem, hkey] at hopens
      obtain ⟨hitem', hkey'⟩ := Bool.or_eq_false_iff.mp hopens
      have halone := Swap.not_keyed_of_eq_none hkey
      obtain rfl := Swap.own_eq_of_valueAt halone found reaches
      obtain ⟨n', after', hfound, hreaches⟩ :=
        Swap.exists_valueAt halone (r.indent - 1) (c'.pass r.newLine _)
      exact ⟨n', after', .value hlines' hitem' (Option.not_isSome_iff_eq_none.mp (by simp [hkey']))
        hfound, hreaches⟩
    · have hahead' : r.Ahead (c.pass line rest) (c'.pass line rest') := hahead.pass hrest
      obtain ⟨n', after', hfound, hreaches⟩ :=
        found.swapped (hc.pass h) hahead' (hahead'.lt_number (hc.pass h)) reaches
      exact ⟨n', after', .value hlines' hitem hkey hfound, hreaches⟩

theorem ItemsAt.swapped {indent : Nat} {c after : Cursor} {list : List (Item Node)} :
    ItemsAt indent c list after → c.Placed source → ∀ {c'}, r.Ahead c c' →
      (∃ item ∈ list, item.value.Reaches r.place r.holder r.keyed item.position) →
        ∃ list' after', ItemsAt indent c' list' after' ∧
          ∃ item ∈ list', item.value.Reaches r.place r.holder r.keyed item.position
  | .stop _ => by
    rintro _ c' _ ⟨item, hmem, -⟩
    cases hmem
  | @ItemsAt.item _ _ mid _ line rest n list h hindent hitem first more => by
    rintro hc c' hahead ⟨item, hmem, reaches⟩
    have hmid := (first.placed h hitem hc).2
    rcases List.mem_cons.mp hmem with rfl | hmem
    · obtain ⟨line', rest', hlines', hfront, front⟩ := hahead.cases_front h
      have hfront : r.Dashed line line' ∧ rest = rest' ∨ line = line' ∧ Differ r.Line rest rest' :=
        hfront.imp_left fun ⟨hline, hrest⟩ =>
          ⟨Swap.dashed hline hitem (first.everywhere_before h hc) (hindent ▸ reaches), hrest⟩
      obtain ⟨n', mid', hfound, hreaches⟩ := first.swapped h hitem hc hahead hfront reaches
      refine ⟨_, _, .item hlines' (front.indent.trans hindent) (front.isItem.trans hitem) hfound
        (items_at indent mid'), _, List.mem_cons_self, ?_⟩
      rw [front.number]
      exact hreaches
    · -- The first item ends before the line.
      have hbefore := more.line_lt hmid hmem reaches
      obtain ⟨rest', hrest, hlines'⟩ := hahead.cases_passed h (first.nests h hitem hc).2 hbefore
      obtain ⟨mid', hfirst, hahead'⟩ := first.ahead h hitem hc hahead hrest hbefore
      obtain ⟨list', after', hmore, other, hother, hreaches⟩ :=
        more.swapped hmid hahead' ⟨item, hmem, reaches⟩
      exact ⟨_, after', .item hlines' hindent hitem hfirst hmore, other,
        List.mem_cons_of_mem _ hother, hreaches⟩

theorem ItemAt.swapped {c after : Cursor} {line : LogicalLine} {rest : List LogicalLine} {n : Node}
    {own : Position} :
    ItemAt c line rest n after → c.lines = line :: rest → isItem line.text = true →
      c.Placed source → ∀ {c'}, r.Ahead c c' → ∀ {line' rest'},
        (r.Dashed line line' ∧ rest = rest' ∨ line = line' ∧ Differ r.Line rest rest') →
          n.Reaches r.place r.holder r.keyed own →
            ∃ n' after', ItemAt c' line' rest' n' after' ∧
              n'.Reaches r.place r.holder r.keyed own
  | .deeper habsent hnext hdeeper found => by
    intro h hitem hc c' hahead line' rest' hfront reaches
    rcases hfront with ⟨hdashed, -⟩ | ⟨rfl, hrest⟩
    · exact absurd (hdashed.oldPresent.symm.trans habsent) (by decide)
    · obtain ⟨next', hhead', front⟩ := hrest.exists_front hnext
      obtain ⟨n', after', hfound, hreaches⟩ :=
        found.swapped (hc.pass h) (hahead.pass hrest) reaches
      exact ⟨n', after', .deeper habsent hhead' (by rwa [front.indent]) hfound, hreaches⟩
  | .empty _ _ => by
    intro _ _ _ c' _ line' rest' _ reaches
    cases reaches
  | .behind hpresent hcollection found => by
    intro h hitem hc c' hahead line' rest' hfront reaches
    rcases hfront with ⟨hdashed, rfl⟩ | ⟨rfl, hrest⟩
    · obtain ⟨n', after', hfound, hreaches⟩ :=
        found.swapped (hc.enter h hitem hpresent) (hahead.enter_dashed hdashed) reaches
      exact ⟨n', after', .behind hdashed.newPresent (hdashed.inner.collection_eq.trans hcollection)
        hfound, hreaches⟩
    · obtain ⟨n', after', hfound, hreaches⟩ :=
        found.swapped (hc.enter h hitem hpresent) (hahead.enter hrest) reaches
      exact ⟨n', after', .behind hpresent hcollection hfound, hreaches⟩
  | @ItemAt.value _ _ line rest n hpresent hcollection found => by
    intro h _ hc c' hahead line' rest' hfront reaches
    rcases hfront with ⟨⟨-, newPresent, inner⟩, rfl⟩ | ⟨rfl, hrest⟩
    · have hcollection' := inner.collection_eq.trans hcollection
      obtain ⟨hold, hnew⟩ := inner.eq_of_not_isItem (Bool.or_eq_false_iff.mp hcollection).1
      have halone : r.keyed = false := by
        refine Swap.not_keyed_of_eq_none (Option.not_isSome_iff_eq_none.mp ?_)
        rw [show r.old = line.item from (congrArg LogicalLine.text hold).symm,
          (Bool.or_eq_false_iff.mp hcollection).2]
        decide
      have found : ValueAt line.behindDash.text line.behindDash.number (line.behindDash.indent + 1)
        line.indent (c.pass line rest) n _ := found
      rw [hold] at found
      obtain rfl := Swap.own_eq_of_valueAt halone found reaches
      obtain ⟨n', after', hfound, hreaches⟩ :=
        Swap.exists_valueAt halone line'.indent (c'.pass line' rest)
      refine ⟨n', after', .value newPresent hcollection' ?_, hreaches⟩
      have hplace : ValueAt line'.behindDash.text line'.behindDash.number
          (line'.behindDash.indent + 1) line'.indent (c'.pass line' rest) n' after' := by
        rw [hnew]
        exact hfound
      exact hplace
    · have hahead' : r.Ahead (c.pass line rest) (c'.pass line rest') := hahead.pass hrest
      obtain ⟨n', after', hfound, hreaches⟩ :=
        found.swapped (hc.pass h) hahead' (hahead'.lt_number (hc.pass h)) reaches
      exact ⟨n', after', .value hpresent hcollection hfound, hreaches⟩

theorem EntriesAt.swapped {indent : Nat} {c after : Cursor} {list : List (Entry Node)} :
    EntriesAt indent c list after → c.Placed source → ∀ {c'}, r.Ahead c c' →
      (∃ entry ∈ list, entry.Reaches r.place r.holder r.keyed) →
        ∃ list' after', EntriesAt indent c' list' after' ∧
          ∃ entry ∈ list', entry.Reaches r.place r.holder r.keyed
  | .stop _ => by
    rintro _ c' _ ⟨entry, hmem, -⟩
    cases hmem
  | @EntriesAt.entry _ _ mid _ line rest split n list h hindent hkey first more => by
    rintro hc c' hahead ⟨entry, hmem, reaches⟩
    have hmid := (first.placed h hkey hc).2
    rcases List.mem_cons.mp hmem with rfl | hmem
    · cases reaches with
      | below hbefore reaches =>
        obtain ⟨rest', hrest, hlines'⟩ := hahead.cases_passed h (Nat.le_refl _) hbefore
        obtain ⟨n', mid', hfound, hreaches⟩ := first.swapped h hc hahead hrest reaches
        exact ⟨_, _, .entry hlines' hindent hkey hfound (entries_at indent mid'), _,
          List.mem_cons_self, .below hbefore hreaches⟩
      | value _ _ holds hkeyed =>
        have hholder := holds.trans (r.behind hkeyed).1
        have hcolumn : line.indent = r.indent :=
          hindent.trans (Nat.succ.inj (congrArg Position.column hholder))
        rcases hahead.cases_lines h with ⟨line', hline, hlines'⟩ | ⟨rest', hrest, -⟩
        · obtain ⟨rfl, rfl⟩ := hline.eq_of_indent hcolumn
          obtain ⟨split', s, mid', hkey', hfound, hplace⟩ := Swap.exists_entryAt hkeyed c' rest
          exact ⟨_, _, .entry hlines' hindent hkey' hfound (entries_at indent mid'), _,
            List.mem_cons_self, .value rfl hplace holds hkeyed⟩
        · -- No line behind this one has its number.
          have hbefore := (hahead.pass hrest).lt_number (hc.pass h)
          exact absurd (congrArg Position.line hholder) (Nat.ne_of_lt hbefore)
    · -- The first entry ends before the line.
      have hbefore := more.line_lt hmid hmem reaches
      obtain ⟨rest', hrest, hlines'⟩ := hahead.cases_passed h (first.nests h hc).passes hbefore
      obtain ⟨mid', hfirst, hahead'⟩ := first.ahead h hc hahead hrest hbefore
      obtain ⟨list', after', hmore, other, hother, hreaches⟩ :=
        more.swapped hmid hahead' ⟨entry, hmem, reaches⟩
      exact ⟨_, after', .entry hlines' hindent hkey hfirst hmore, other,
        List.mem_cons_of_mem _ hother, hreaches⟩

theorem EntryAt.swapped {c after : Cursor} {line : LogicalLine} {rest : List LogicalLine}
    {split : KeySplit} {n : Node} {own : Position} :
    EntryAt c line rest split n after → c.lines = line :: rest → c.Placed source →
      ∀ {c'}, r.Ahead c c' → ∀ {rest'}, Differ r.Line rest rest' →
        n.Reaches r.place r.holder r.keyed own →
          ∃ n' after', EntryAt c' line rest' split n' after' ∧
            n'.Reaches r.place r.holder r.keyed own
  | .deeper habsent hnext hdeeper found => by
    intro h hc c' hahead rest' hrest reaches
    obtain ⟨next', hhead', front⟩ := hrest.exists_front hnext
    obtain ⟨n', after', hfound, hreaches⟩ := found.swapped (hc.pass h) (hahead.pass hrest) reaches
    exact ⟨n', after', .deeper habsent hhead' (by rwa [front.indent]) hfound, hreaches⟩
  | .items habsent hnext hindent hitem found => by
    intro h hc c' hahead rest' hrest reaches
    obtain ⟨next', hhead', front⟩ := hrest.exists_front hnext
    obtain ⟨list', after', hfound, hreaches⟩ :=
      found.swapped (hc.pass h) (hahead.pass hrest) (Node.reaches_sequence.mp reaches)
    exact ⟨_, after', .items habsent hhead' (front.indent.trans hindent)
      (front.isItem.trans hitem) hfound, Node.reaches_sequence.mpr hreaches⟩
  | .empty _ _ => by
    intro _ _ c' _ rest' _ reaches
    cases reaches
  | .value hpresent found => by
    intro h hc c' hahead rest' hrest reaches
    have hahead' : r.Ahead (c.pass line rest) (c'.pass line rest') := hahead.pass hrest
    obtain ⟨n', after', hfound, hreaches⟩ :=
      found.swapped (hc.pass h) hahead' (hahead'.lt_number (hc.pass h)) reaches
    exact ⟨n', after', .value hpresent hfound, hreaches⟩

theorem ValueAt.swapped {text : List Char} {line column parent : Nat} {c after : Cursor} {n : Node}
    {own : Position} :
    ValueAt text line column parent c n after → c.Placed source → ∀ {c'}, r.Ahead c c' →
      line < r.number → n.Reaches r.place r.holder r.keyed own →
        ∃ n' after', ValueAt text line column parent c' n' after' ∧
          n'.Reaches r.place r.holder r.keyed own
  | .deeper habsent hnext hdeeper found => by
    intro hc c' hahead _ reaches
    obtain ⟨next', hhead', front⟩ := hahead.lines.exists_front hnext
    obtain ⟨n', after', hfound, hreaches⟩ := found.swapped hc hahead reaches
    exact ⟨n', after', .deeper habsent hhead' (by rwa [front.indent]) hfound, hreaches⟩
  | .empty _ _ => by
    intro _ c' _ _ reaches
    cases reaches
  | .scalar _ _ => by
    intro _ c' _ hbefore reaches
    cases reaches with
    | scalar position => exact absurd (congrArg Position.line position) (Nat.ne_of_lt hbefore)

end

end Reading

end PlaybookStyle.Outline
