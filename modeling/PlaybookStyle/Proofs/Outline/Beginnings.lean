/-
Where scalars begin.

A scalar is the value of a key and begins behind the colon of that key, or nothing but
spaces, dashes, tags and anchors is before it on its line (`Begins`). In the second case
the key that holds it, if one does, stands on an earlier line.

* `scan_begun` — so it is with every scalar in the outline of any text.
-/

import PlaybookStyle.Proofs.Outline.Rewritten
import PlaybookStyle.Proofs.Outline.Swapping
import PlaybookStyle.Proofs.Outline.Trailing

namespace PlaybookStyle.Outline

open Text

/-- A scalar begins at a place, as the value of the key that stands at another. -/
def BeginsBehind (source : List Char) (key place : Position) : Prop :=
  ∃ top ∈ LogicalLine.ofText source, ∃ line split, top.Leads line ∧
    splitKey line.text = some split ∧ line.place = key ∧ line.number = place.line ∧
    ReadsAt split.value (line.indent + split.colon + byteLength split.gap + 2) place.column

/-- A scalar begins at a place off the margin, and only spaces, dashes, tags and anchors
are before it. -/
def BeginsAlone (source : List Char) (place : Position) : Prop :=
  ∃ top ∈ LogicalLine.ofText source, ∃ line, top.Leads line ∧ 0 < line.indent ∧
    (isItem line.text || (splitKey line.text).isSome) = false ∧ line.number = place.line ∧
    ReadsAt line.text (line.indent + 1) place.column

/-- How the scalar at a place begins, which stands under a key or under none. -/
inductive Begins (source : List Char) (key? : Option Position) (place : Position) : Prop
  | behind {key : Position} (own : key? = some key) (h : BeginsBehind source key place)
  | alone (later : ∀ key ∈ key?, key.line < place.line) (h : BeginsAlone source place)

/-- Every scalar in the node begins so; the node may stand under a key. -/
inductive Node.Begun (source : List Char) : Option Position → Node → Prop
  | empty {key? : Option Position} : Begun source key? .empty
  | scalar {key? : Option Position} {s : Scalar} (h : Begins source key? s.position) :
      Begun source key? (.scalar s)
  | sequence {key? : Option Position} {position : Position} {items : List (Item Node)}
      (values : ∀ item ∈ items, Begun source none item.value) :
      Begun source key? (.sequence position items)
  | mapping {key? : Option Position} {position : Position} {entries : List (Entry Node)}
      (values : ∀ entry ∈ entries, Begun source (some entry.position) entry.value) :
      Begun source key? (.mapping position entries)

section Reading

variable {source : List Char}

/-- The line that comes next is off the margin. -/
def Cursor.Indented (c : Cursor) : Prop := ∀ line ∈ c.lines.head?, 0 < line.indent

theorem Cursor.Indented.of_deeper {c : Cursor} {next : LogicalLine} {bound : Nat}
    (hnext : c.lines.head? = some next) (hdeeper : bound < next.indent) : c.Indented := by
  intro line hline
  obtain rfl := Option.some.inj (hnext.symm.trans hline)
  exact Nat.zero_lt_of_lt hdeeper

theorem Cursor.Indented.of_enter {c : Cursor} {line : LogicalLine} {rest : List LogicalLine} :
    (c.enter line rest).Indented := by
  rintro _ ⟨⟩
  simp only [LogicalLine.behindDash]
  omega

mutual

/-- What is read behind the line of a key begins there. -/
theorem NodeAt.begun {key? : Option Position} {c after : Cursor} {n : Node} :
    NodeAt c n after → c.Placed source → c.Led source → (∀ key ∈ key?, key.line ≤ c.lastLine) →
      (n.scalar? = none ∨ c.Indented) → n.Begun source key?
  | .nothing _ => fun _ _ _ _ => .empty
  | .sequence _ _ found => fun hc hled _ _ => .sequence (found.begun hc hled)
  | .mapping _ _ _ found => fun hc hled _ _ => .mapping (found.begun hc hled)
  | @NodeAt.value _ _ line rest _ h hitem hkey found => by
    intro hc hled hlast hindented
    have hlt := hc.lastLine_lt h
    obtain ⟨top, htop, hleads⟩ := hled line (by rw [h]; exact List.mem_cons_self)
    refine found.begun (hc.pass h) (hled.pass h)
      (fun key hmem => Nat.le_trans (hlast key hmem) (Nat.le_of_lt hlt)) ?_
    refine hindented.imp_right fun hindented column read => ?_
    exact .alone (fun key hmem => Nat.lt_of_le_of_lt (hlast key hmem) hlt)
      ⟨top, htop, line, hleads, hindented line (by rw [h]; rfl), by rw [hitem, hkey]; rfl, rfl, read⟩

theorem ItemsAt.begun {indent : Nat} {c after : Cursor} {list : List (Item Node)} :
    ItemsAt indent c list after → c.Placed source → c.Led source →
      ∀ item ∈ list, item.value.Begun source none
  | .stop _ => by simp
  | .item h _ hitem first more => by
    intro hc hled
    have hmid := (first.placed h hitem hc).2
    exact List.forall_mem_cons.mpr ⟨first.begun h hitem hc hled,
      more.begun hmid (first.openings h hitem hc hled).2⟩

theorem ItemAt.begun {c after : Cursor} {line : LogicalLine} {rest : List LogicalLine} {n : Node} :
    ItemAt c line rest n after → c.lines = line :: rest → isItem line.text = true →
      c.Placed source → c.Led source → n.Begun source none
  | .deeper _ hnext hdeeper found => fun h _ hc hled =>
    found.begun (hc.pass h) (hled.pass h) (by simp) (.inr (.of_deeper hnext hdeeper))
  | .empty _ _ => fun _ _ _ _ => .empty
  | .behind hpresent _ found => fun h hitem hc hled =>
    found.begun (hc.enter h hitem hpresent) (hled.enter h hitem hpresent) (by simp) (.inr .of_enter)
  | @ItemAt.value _ _ line _ _ hpresent hcollection found => by
    intro h hitem hc hled
    obtain ⟨top, htop, hleads⟩ := hled _ (by rw [h]; exact List.mem_cons_self)
    have hindent : 0 < line.behindDash.indent := by
      simp only [LogicalLine.behindDash]
      omega
    exact found.begun (hc.pass h) (hled.pass h) (by simp) (.inr fun column read => .alone (by simp)
      ⟨top, htop, _, hleads.behindDash hitem hpresent, hindent, hcollection, rfl, read⟩)

theorem EntriesAt.begun {indent : Nat} {c after : Cursor} {list : List (Entry Node)} :
    EntriesAt indent c list after → c.Placed source → c.Led source →
      ∀ entry ∈ list, entry.value.Begun source (some entry.position)
  | .stop _ => by simp
  | @EntriesAt.entry indent _ _ _ line _ _ _ _ h hindent hkey first more => by
    intro hc hled
    have hmid := (first.placed h hkey hc).2
    have hplace : line.place = ⟨line.number, indent + 1⟩ := by rw [LogicalLine.place, hindent]
    exact List.forall_mem_cons.mpr ⟨hplace ▸ first.begun h hkey hc hled,
      more.begun hmid (first.openings h hc hled).2⟩

theorem EntryAt.begun {c after : Cursor} {line : LogicalLine} {rest : List LogicalLine}
    {split : KeySplit} {n : Node} :
    EntryAt c line rest split n after → c.lines = line :: rest →
      splitKey line.text = some split → c.Placed source → c.Led source →
        n.Begun source (some line.place)
  | .deeper _ hnext hdeeper found => fun h _ hc hled =>
    found.begun (hc.pass h) (hled.pass h) (by rintro _ ⟨⟩; exact Nat.le_refl _)
      (.inr (.of_deeper hnext hdeeper))
  | .items _ _ _ _ found => fun h _ hc hled => .sequence (found.begun (hc.pass h) (hled.pass h))
  | .empty _ _ => fun _ _ _ _ => .empty
  | .value _ found => by
    intro h hkey hc hled
    obtain ⟨top, htop, hleads⟩ := hled _ (by rw [h]; exact List.mem_cons_self)
    exact found.begun (hc.pass h) (hled.pass h) (by rintro _ ⟨⟩; exact Nat.le_refl _)
      (.inr fun column read => .behind rfl ⟨top, htop, _, _, hleads, hkey, rfl, rfl, read⟩)

theorem ValueAt.begun {key? : Option Position} {text : List Char} {line column parent : Nat}
    {c after : Cursor} {n : Node} :
    ValueAt text line column parent c n after → c.Placed source → c.Led source →
      (∀ key ∈ key?, key.line ≤ c.lastLine) →
        (n.scalar? = none ∨ ∀ start, ReadsAt text column start → Begins source key? ⟨line, start⟩) →
          n.Begun source key?
  | .deeper _ hnext hdeeper found => fun hc hled hlast _ =>
    found.begun hc hled hlast (.inr (.of_deeper hnext hdeeper))
  | .empty _ _ => fun _ _ _ _ => .empty
  | .scalar hskip hpresent => by
    intro _ _ _ here
    rcases here with hnone | here
    · cases hnone
    · exact .scalar (here _ ⟨_, _, hskip, hpresent⟩)

end

/-- **Where scalars begin**, in the outline of any text that is no scalar, be it valid or
not. -/
theorem scan_begun (source : List Char) (collection : (Outline.scan source).root.scalar? = none) :
    (Outline.scan source).root.Begun source none :=
  (node_at (.ofText source)).begun Cursor.ofText_placed (fun line hline => ⟨line, hline, .here⟩)
    (by simp) (.inl collection)

end Reading

/-! ### Values of keys -/

section Values

variable {source : List Char} {place : Position}

theorem ReadsAt.start_le {text : List Char} {start column : Nat} (h : ReadsAt text start column) :
    start ≤ column := by
  obtain ⟨tag?, rest, hskip, -⟩ := h
  obtain ⟨skipped, -, hcolumn, -⟩ := skipProperties_append none start text
  rw [hskip] at hcolumn
  exact Nat.le_trans (Nat.le_add_right _ _) (Nat.le_of_eq hcolumn.symm)

/-- A scalar begins behind the key that it is under. -/
theorem Begins.before {key : Position} (h : Begins source (some key) place) : key.Before place := by
  cases h with
  | behind own h =>
    obtain rfl := Option.some.inj own
    obtain ⟨top, -, line, split, -, -, rfl, number, reads⟩ := h
    have hcolumn := reads.start_le
    exact .inr ⟨number, by simp only [LogicalLine.place]; omega⟩
  | alone later _ => exact .inl (later key rfl)

theorem Node.Begun.of_mem_allEntries {key? : Option Position} {n : Node} (begun : n.Begun source key?)
    {e : Entry Node} (he : e ∈ n.allEntries) : e.value.Begun source (some e.position) := by
  induction begun with
  | empty => simp at he
  | scalar => simp at he
  | sequence _ ih =>
    rw [Node.allEntries_sequence] at he
    obtain ⟨item, hitem, he⟩ := List.mem_flatMap.mp he
    exact ih item hitem he
  | mapping values ih =>
    rw [Node.allEntries_mapping] at he
    obtain ⟨entry, hentry, he⟩ := List.mem_flatMap.mp he
    rcases List.mem_cons.mp he with rfl | he
    · exact values e hentry
    · exact ih entry hentry he

/-- **The value of a key** begins behind it, if it is a scalar. -/
theorem scan_value_behind (source : List Char) {e : Entry Node}
    (he : e ∈ (Outline.scan source).root.allEntries) {s : Scalar} (value : e.value = .scalar s) :
    e.position.Before s.position := by
  have collection : (Outline.scan source).root.scalar? = none := by
    cases hroot : (Outline.scan source).root with
    | scalar s => rw [hroot, Node.allEntries_scalar] at he; cases he
    | _ => rfl
  have begun := (scan_begun source collection).of_mem_allEntries he
  rw [value] at begun
  cases begun with
  | scalar begins => exact begins.before

end Values

/-! ### Scalars that are held -/

section Held

variable {source : List Char} {n : Node} {holder last : Nat} {s : Scalar}

theorem Node.Holds.scalar?_eq_none (held : n.Holds holder last s) : n.scalar? = none := by
  cases held with
  | item => rfl
  | entry => rfl
  | inItem => rfl
  | inEntry => rfl

/-- A scalar that is held is the value of a key and begins behind it, or it begins on a line
without keys. -/
theorem Node.Holds.begins (held : n.Holds holder last s) {key? : Option Position}
    (begun : n.Begun source key?) (trails : n.Trails) (own : Position) :
    ∃ holding keyed, holder = holding.column - 1 ∧ last = holding.line ∧
      n.Reaches s.position holding keyed own ∧
        (keyed = true ∧ BeginsBehind source holding s.position ∨
          keyed = false ∧ BeginsAlone source s.position) := by
  induction held generalizing key? own with
  | @item position items item s hitem value =>
    cases begun with
    | sequence values =>
      have begins := values item hitem
      rw [value] at begins
      cases begins with
      | scalar begins =>
        cases begins with
        | behind keyed => cases keyed
        | alone _ alone =>
          exact ⟨_, _, rfl, rfl, .item hitem (value ▸ .scalar rfl rfl), .inr ⟨rfl, alone⟩⟩
  | @entry position entries entry s hentry value =>
    cases begun with
    | mapping values =>
      have begins := values entry hentry
      rw [value] at begins
      cases begins with
      | scalar begins =>
        cases begins with
        | behind keyed behind =>
          obtain rfl := Option.some.inj keyed
          exact ⟨_, _, rfl, rfl, .value hentry value rfl rfl rfl, .inl ⟨rfl, behind⟩⟩
        | alone later alone =>
          exact ⟨_, _, rfl, rfl, .entry hentry (later _ rfl) (value ▸ .scalar rfl rfl),
            .inr ⟨rfl, alone⟩⟩
  | @inItem position items item s holder last hitem inner ih =>
    cases begun with
    | sequence values =>
      cases trails with
      | sequence _ trails =>
        obtain ⟨holding, keyed, hholder, hlast, reaches, begins⟩ :=
          ih (values item hitem) (trails item hitem) item.position
        exact ⟨holding, keyed, hholder, hlast, .item hitem reaches, begins⟩
  | @inEntry position entries entry s holder last hentry inner ih =>
    cases begun with
    | mapping values =>
      cases trails with
      | mapping below trails =>
        obtain ⟨holding, keyed, hholder, hlast, reaches, begins⟩ :=
          ih (values entry hentry) (trails entry hentry) entry.position
        have earlier := (below entry hentry inner.scalar?_eq_none).of_reaches reaches
        exact ⟨holding, keyed, hholder, hlast, .entry hentry earlier reaches, begins⟩

/-- So it is with every scalar that an outline holds. -/
theorem scan_begins (held : (Outline.scan source).root.Holds holder last s) (own : Position) :
    ∃ holding keyed, holder = holding.column - 1 ∧ last = holding.line ∧
      (Outline.scan source).root.Reaches s.position holding keyed own ∧
        (keyed = true ∧ BeginsBehind source holding s.position ∨
          keyed = false ∧ BeginsAlone source s.position) :=
  held.begins (scan_begun source held.scalar?_eq_none) (scan_trails source) own

end Held

end PlaybookStyle.Outline
