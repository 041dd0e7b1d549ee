/-
Rendered blocks are read as the trees they render.

Of a way of writing keys and leaves, only a few facts matter (`Writing.Legible`):
a key is cut off at its colon, a leaf is neither a key nor an item, and it takes
the lines that go on with it. For every such writing the scanner follows the
layout of a block, line by line (`Rendered.read`): a tree whose leaves all go on
straight is read as it is, up to the line behind its last; the first leaf that
does not stops the scanner at one of its lines, deeper than the block around it,
so that no collection takes it up again.
-/

import PlaybookStyle.Proofs.Outline.Reading
import PlaybookStyle.Proofs.Outline.Tokens
import PlaybookStyle.Proofs.Outline.Tree

namespace PlaybookStyle.Outline

open Text

/-! ### Trees of lists -/

section Trees

variable {α : Type} {view : Scalar → α}

theorem entryTrees_cons (entry : Entry Node) (rest : List (Entry Node)) :
    entryTrees view (entry :: rest) =
      (entry.key.toList, entry.value.tree view) :: entryTrees view rest := by
  rw [entryTrees, entryTree]

theorem itemTrees_cons (item : Item Node) (rest : List (Item Node)) :
    itemTrees view (item :: rest) = item.value.tree view :: itemTrees view rest := by
  rw [itemTrees, itemTree]

theorem allEntries_cons {p : α → Prop} {entry : List Char × Tree α}
    {rest : List (List Char × Tree α)} :
    AllEntries p (entry :: rest) ↔ entry.2.All p ∧ AllEntries p rest := by
  rw [AllEntries, AllEntry]

theorem allItems_cons {p : α → Prop} {item : Tree α} {rest : List (Tree α)} :
    AllItems p (item :: rest) ↔ item.All p ∧ AllItems p rest := by
  rw [AllItems]

mutual

theorem Tree.all_of_forall {p : α → Prop} (h : ∀ a, p a) : (tree : Tree α) → tree.All p
  | .nothing => by
    rw [Tree.All]
    trivial
  | .leaf a => by
    rw [Tree.All]
    exact h a
  | .mapping entries => by
    rw [Tree.All]
    exact allEntries_of_forall h entries
  | .sequence items => by
    rw [Tree.All]
    exact allItems_of_forall h items

theorem allEntries_of_forall {p : α → Prop} (h : ∀ a, p a) :
    (entries : List (List Char × Tree α)) → AllEntries p entries
  | [] => by
    rw [AllEntries]
    trivial
  | (_, tree) :: rest => by
    rw [allEntries_cons]
    exact ⟨tree.all_of_forall h, allEntries_of_forall h rest⟩

theorem allItems_of_forall {p : α → Prop} (h : ∀ a, p a) :
    (items : List (Tree α)) → AllItems p items
  | [] => by
    rw [AllItems]
    trivial
  | item :: rest => by
    rw [allItems_cons]
    exact ⟨item.all_of_forall h, allItems_of_forall h rest⟩

end

end Trees

/-! ### Legible writings -/

/-- A text that starts neither an item nor an entry. -/
structure Opens (text : List Char) : Prop where
  starts : Starts text
  item : isItem text = false
  key : splitKey text = none

theorem Opens.not_collection {text : List Char} (h : Opens text) :
    (isItem text || (splitKey text).isSome) = false := by
  rw [h.item, h.key]
  rfl

/-- A line that is a logical line as it stands. -/
structure BlockLine.Solid (b : BlockLine) : Prop where
  starts : Starts b.text
  closes : Closes b.text
  marker : b.indent = 0 → isDocumentMarker b.text = false

/-- What the scanner has to see in keys and leaves. -/
structure Writing.Legible {α : Type} (W : Writing α) : Prop where
  key_starts : ∀ {key written}, W.key key written → Starts written
  key_item : ∀ {key written} (rest), W.key key written → isItem (written ++ ':' :: rest) = false
  key_split : ∀ {key written} (rest), W.key key written → endsKey rest = true →
    ∃ split, splitKey (written ++ ':' :: rest) = some split ∧ split.key = key ∧ split.rest = rest
  key_marker : ∀ {key written} (rest), W.key key written →
    isDocumentMarker (written ++ ':' :: rest) = false
  inline_opens : ∀ {a n text below}, W.inline a n text below → Opens text
  inline_solid : ∀ {a n text below}, W.inline a n text below →
    Closes text ∧ ∀ b ∈ below, b.Solid
  inline_straight : ∀ {a n text below}, W.inline a n text below → W.straight a
  inline_read : ∀ {a n text below} {c : Cursor} {ls rest} (line column),
    W.inline a n text below → c.lines = ls ++ rest → ls.map LogicalLine.block = below →
    (∀ next ∈ rest.head?, next.indent ≤ n) →
    ∃ s after, ValueAt text line column n c (.scalar s) after ∧ W.view s = a ∧ after.lines = rest
  below_opens : ∀ {a k m text below}, W.below a k m text below → Opens text
  below_solid : ∀ {a k m text below}, W.below a k m text below → k < m →
    Closes text ∧ ∀ b ∈ below, b.Solid
  below_read : ∀ {a k m text below} {c : Cursor} {ls rest} (line column),
    W.below a k m text below → k < m → W.straight a → c.lines = ls ++ rest →
    ls.map LogicalLine.block = below → (∀ next ∈ rest.head?, next.indent ≤ k) →
    ∃ s after, ValueAt text line column (m - 1) c (.scalar s) after ∧ W.view s = a ∧
      after.lines = rest
  below_stops : ∀ {a k m text below} {c : Cursor} {ls rest} (line column),
    W.below a k m text below → k < m → ¬W.straight a → c.lines = ls ++ rest →
    ls.map LogicalLine.block = below →
    ∃ n after next, ValueAt text line column (m - 1) c n after ∧ after.lines.head? = some next ∧
      k < next.indent
  properties_opens : ∀ {text}, W.properties text → Opens text
  properties_closes : ∀ {text}, W.properties text → Closes text
  properties_skip : ∀ {text} (column), W.properties text →
    isAbsent (skipProperties none column text).2.2 = true

/-! ### Lines -/

theorem Starts.isAbsent {text : List Char} (h : Starts text) : isAbsent text = false := by
  obtain ⟨c, rest, rfl, -, hc⟩ := h
  exact beq_eq_false_iff_ne.mpr hc

theorem Starts.append {text : List Char} (h : Starts text) (more : List Char) :
    Starts (text ++ more) := by
  obtain ⟨c, rest, rfl, hblank, hc⟩ := h
  exact ⟨c, rest ++ more, rfl, hblank, hc⟩

theorem trimStart_gap_cons {c : Char} (h : isBlank c = false) (g : Nat) (rest : List Char) :
    trimStart (gap g ++ c :: rest) = c :: rest := by
  induction g with
  | zero =>
    have hspace : trimStart (' ' :: c :: rest) = trimStart (c :: rest) := rfl
    exact hspace.trans (trimStart_of_not_isBlank h)
  | succ g ih =>
    have hspace : trimStart (gap (g + 1) ++ c :: rest) = trimStart (gap g ++ c :: rest) := rfl
    exact hspace.trans ih

theorem trimStart_gap_append {text : List Char} (h : Starts text) (g : Nat) :
    trimStart (gap g ++ text) = text := by
  obtain ⟨c, rest, rfl, hblank, -⟩ := h
  exact trimStart_gap_cons hblank g rest

theorem byteLength_gap (g : Nat) : byteLength (gap g) = g + 1 := by
  have hspaces : (gap g).all (· == ' ') := by simp [gap]
  rw [byteLength_eq_length_of_spaces hspaces, gap, List.length_replicate]

theorem endsKey_gap_append (g : Nat) (text : List Char) : endsKey (gap g ++ text) = true := rfl

theorem isItem_dash_gap (g : Nat) (text : List Char) : isItem ('-' :: (gap g ++ text)) = true := rfl

/-! ### Behind a colon or a dash -/

section Notes

variable {note : List Char}

theorem Note.isAbsent (h : Note note) : isAbsent (trimStart note) = true := by
  cases h with
  | nothing => rfl
  | comment h =>
    rw [trimStart_gap_cons (by decide)]
    rfl

theorem Note.endsKey (h : Note note) : endsKey note = true := by
  cases h with
  | nothing => rfl
  | comment h => exact endsKey_gap_append _ _

theorem Note.isItem (h : Note note) : isItem ('-' :: note) = true := by
  cases h with
  | nothing => rfl
  | comment h => exact isItem_dash_gap _ _

variable {α : Type} {W : Writing α} {lead : List Char}

theorem Writing.Lead.endsKey (h : W.Lead lead) : endsKey lead = true := by
  cases h with
  | note h => exact h.endsKey
  | properties h => exact endsKey_gap_append _ _

theorem Writing.Lead.isItem (h : W.Lead lead) : isItem ('-' :: lead) = true := by
  cases h with
  | note h => exact h.isItem
  | properties h => exact isItem_dash_gap _ _

end Notes

/-- Behind a dash and a gap, the text is a line of its own in its column. -/
theorem LogicalLine.behindDash_gap {line : LogicalLine} {g : Nat} {text : List Char}
    (hstarts : Starts text) (htext : line.text = '-' :: (gap g ++ text)) :
    line.item = text ∧ line.behindDash.block = ⟨line.indent + g + 2, text⟩ := by
  have hitem : line.item = text := by
    rw [item, htext]
    exact trimStart_gap_append hstarts g
  refine ⟨hitem, ?_⟩
  have hindent : line.behindDash.indent = line.indent + g + 2 := by
    simp only [behindDash, hitem, htext, List.drop_succ_cons, List.drop_zero, byteLength_append,
      byteLength_gap]
    omega
  rw [block, hindent]
  exact congrArg _ hitem

/-! ### First lines -/

section Heads

variable {α : Type} {W : Writing α} (legible : W.Legible)
include legible

theorem RenderedEntry.head {entry : List Char × Tree α} {k : Nat} {blocks : List BlockLine}
    (h : RenderedEntry W entry k blocks) :
    ∃ text more, blocks = ⟨k, text⟩ :: more ∧ Starts text ∧ isItem text = false ∧
      (splitKey text).isSome = true := by
  have hsplit : ∀ {key written rest}, W.key key written → endsKey rest = true →
      (splitKey (written ++ ':' :: rest)).isSome = true := by
    intro key written rest hkey hends
    obtain ⟨split, hsplit, -⟩ := legible.key_split rest hkey hends
    simp [hsplit]
  cases h with
  | nothing hkey hlead => exact ⟨_, _, rfl, (legible.key_starts hkey).append _,
      legible.key_item _ hkey, hsplit hkey hlead.endsKey⟩
  | leaf hkey _ => exact ⟨_, _, rfl, (legible.key_starts hkey).append _, legible.key_item _ hkey,
      hsplit hkey (endsKey_gap_append _ _)⟩
  | deeper hkey hlead _ => exact ⟨_, _, rfl, (legible.key_starts hkey).append _,
      legible.key_item _ hkey, hsplit hkey hlead.endsKey⟩
  | flat hkey hnote _ _ => exact ⟨_, _, rfl, (legible.key_starts hkey).append _,
      legible.key_item _ hkey, hsplit hkey hnote.endsKey⟩

omit legible in
theorem RenderedItem.head {item : Tree α} {k : Nat} {blocks : List BlockLine}
    (h : RenderedItem W item k blocks) :
    ∃ text more, blocks = ⟨k, text⟩ :: more ∧ Starts text ∧ isItem text = true := by
  have hdash : ∀ rest, Starts ('-' :: rest) := fun rest => ⟨'-', rest, rfl, by decide, by decide⟩
  cases h with
  | nothing hlead => exact ⟨_, _, rfl, hdash _, hlead.isItem⟩
  | leaf _ => exact ⟨_, _, rfl, hdash _, isItem_dash_gap _ _⟩
  | compact _ => exact ⟨_, _, rfl, hdash _, isItem_dash_gap _ _⟩
  | deeper hlead _ => exact ⟨_, _, rfl, hdash _, hlead.isItem⟩

theorem RenderedEntries.exists_head {entries : List (List Char × Tree α)} {k : Nat}
    {blocks : List BlockLine} (h : RenderedEntries W entries k blocks) (nonempty : entries ≠ []) :
    ∃ text more, blocks = ⟨k, text⟩ :: more ∧ Starts text ∧ isItem text = false ∧
      (splitKey text).isSome = true := by
  cases h with
  | nil => exact absurd rfl nonempty
  | cons first _ =>
    obtain ⟨text, more, rfl, hfirst⟩ := first.head legible
    exact ⟨text, _, rfl, hfirst⟩

omit legible in
theorem RenderedItems.exists_head {items : List (Tree α)} {k : Nat} {blocks : List BlockLine}
    (h : RenderedItems W items k blocks) (nonempty : items ≠ []) :
    ∃ text more, blocks = ⟨k, text⟩ :: more ∧ Starts text ∧ isItem text = true := by
  cases h with
  | nil => exact absurd rfl nonempty
  | cons first _ =>
    obtain ⟨text, more, rfl, hfirst⟩ := first.head
    exact ⟨text, _, rfl, hfirst⟩

/-- The first line of a block opens an item or an entry. -/
theorem Rendered.head {tree : Tree α} {k : Nat} {blocks : List BlockLine}
    (h : Rendered W tree k blocks) :
    ∃ text more, blocks = ⟨k, text⟩ :: more ∧ Starts text ∧
      (isItem text || (splitKey text).isSome) = true := by
  cases h with
  | mapping nonempty h =>
    obtain ⟨text, more, rfl, hstarts, hitem, hkey⟩ := h.exists_head legible nonempty
    exact ⟨text, more, rfl, hstarts, by rw [hitem, hkey]; rfl⟩
  | sequence nonempty h =>
    obtain ⟨text, more, rfl, hstarts, hitem⟩ := h.exists_head nonempty
    exact ⟨text, more, rfl, hstarts, by rw [hitem]; rfl⟩

theorem RenderedEntries.head {entries : List (List Char × Tree α)} {k : Nat}
    {blocks : List BlockLine} (h : RenderedEntries W entries k blocks) :
    ∀ b ∈ blocks.head?, b.indent = k ∧ isItem b.text = false := by
  cases h with
  | nil => simp
  | cons first _ =>
    obtain ⟨text, more, rfl, -, hitem, -⟩ := first.head legible
    rintro _ ⟨⟩
    exact ⟨rfl, hitem⟩

omit legible in
theorem RenderedItems.head {items : List (Tree α)} {k : Nat} {blocks : List BlockLine}
    (h : RenderedItems W items k blocks) : ∀ b ∈ blocks.head?, b.indent = k := by
  cases h with
  | nil => simp
  | cons first _ =>
    obtain ⟨text, more, rfl, -⟩ := first.head
    rintro _ ⟨⟩
    rfl

end Heads

/-- The line behind some lines is the first of them, or behind them all. -/
theorem head?_append_cases {ls rest : List LogicalLine} {next : LogicalLine}
    (h : next ∈ (ls ++ rest).head?) :
    next.block ∈ (ls.map LogicalLine.block).head? ∨ next ∈ rest.head? := by
  cases ls with
  | nil => exact .inr h
  | cons line tail =>
    obtain rfl : line = next := by simpa using h
    exact .inl rfl

/-- Logical lines with a first line in block form have this line. -/
theorem exists_cons_of_map_block {ls : List LogicalLine} {k : Nat} {text : List Char}
    {below : List BlockLine} (h : ls.map LogicalLine.block = ⟨k, text⟩ :: below) :
    ∃ line tail, ls = line :: tail ∧ line.indent = k ∧ line.text = text ∧
      tail.map LogicalLine.block = below := by
  obtain ⟨line, tail, rfl, hline, htail⟩ := List.map_eq_cons_iff.mp h
  obtain ⟨hindent, htext⟩ := BlockLine.mk.inj hline
  exact ⟨line, tail, rfl, hindent, htext, htail⟩

/-! ### Reading -/

/-- Where reading ends: behind the block if all of it goes on straight, and
otherwise at a line deeper than the block. -/
structure Ends (straight : Prop) (k : Nat) (rest : List LogicalLine) (after : Cursor) : Prop where
  behind : straight → after.lines = rest
  stuck : ¬straight → ∃ next, after.lines.head? = some next ∧ k < next.indent

theorem Ends.of_behind {straight : Prop} {k : Nat} {rest : List LogicalLine} {after : Cursor}
    (hstraight : straight) (h : after.lines = rest) : Ends straight k rest after :=
  ⟨fun _ => h, fun hnot => absurd hstraight hnot⟩

theorem Ends.cases {straight : Prop} {k : Nat} {rest : List LogicalLine} {after : Cursor}
    (h : Ends straight k rest after) :
    (straight ∧ after.lines = rest) ∨
      (¬straight ∧ ∃ next, after.lines.head? = some next ∧ k < next.indent) := by
  by_cases hstraight : straight
  · exact .inl ⟨hstraight, h.behind hstraight⟩
  · exact .inr ⟨hstraight, h.stuck hstraight⟩

/-- What gets stuck deeper gets stuck. -/
theorem Ends.mono {straight : Prop} {k m : Nat} {rest : List LogicalLine} {after : Cursor}
    (h : Ends straight m rest after) (hkm : k ≤ m) : Ends straight k rest after := by
  refine ⟨h.behind, fun hnot => ?_⟩
  obtain ⟨next, hnext, hdeeper⟩ := h.stuck hnot
  exact ⟨next, hnext, Nat.lt_of_le_of_lt hkm hdeeper⟩

section Reading

variable {α : Type} {W : Writing α} (legible : W.Legible)
include legible

/-- A line with a key is cut at its colon. -/
theorem Writing.Legible.key_line {key written rest : List Char} (hkey : W.key key written)
    (hends : endsKey rest = true) {line : LogicalLine}
    (htext : line.text = written ++ ':' :: rest) :
    ∃ split, splitKey line.text = some split ∧ split.key = key ∧ split.value = trimStart rest := by
  obtain ⟨split, hsplit, hname, hrest⟩ := legible.key_split rest hkey hends
  refine ⟨split, by rw [htext]; exact hsplit, hname, ?_⟩
  rw [KeySplit.value, hrest]

/-- Alone behind a colon or a dash stands nothing, or what is passed over. -/
theorem Writing.Legible.lead_cases {lead : List Char} (hlead : W.Lead lead) :
    isAbsent (trimStart lead) = true ∨
      Opens (trimStart lead) ∧
        ∀ column, isAbsent (skipProperties none column (trimStart lead)).2.2 = true := by
  cases hlead with
  | note hnote => exact .inl hnote.isAbsent
  | properties h =>
    have hopens := legible.properties_opens h
    rw [trimStart_gap_append hopens.starts]
    exact .inr ⟨hopens, fun column => legible.properties_skip column h⟩

section Leads

variable {lead : List Char} (hlead : W.Lead lead) {c after : Cursor} {line next : LogicalLine}
  {rest : List LogicalLine} {n : Node}
include hlead

/-- What follows a key with a child below is the child. -/
theorem Writing.Legible.lead_entry {split : KeySplit} (hvalue : split.value = trimStart lead)
    (hnext : rest.head? = some next) (hdeeper : line.indent < next.indent)
    (found : NodeAt (c.pass line rest) n after) : EntryAt c line rest split n after := by
  have hcases := legible.lead_cases hlead
  rw [← hvalue] at hcases
  rcases hcases with habsent | ⟨hopens, hskip⟩
  · exact .deeper habsent hnext hdeeper found
  · exact .value hopens.starts.isAbsent (.deeper (hskip _) hnext hdeeper found)

/-- A key with nothing below has nothing. -/
theorem Writing.Legible.lead_empty_entry {split : KeySplit} (hvalue : split.value = trimStart lead)
    (hrest : ∀ next ∈ rest.head?,
      next.indent ≤ line.indent ∧ (next.indent = line.indent → isItem next.text = false)) :
    EntryAt c line rest split .empty (c.pass line rest) := by
  have hcases := legible.lead_cases hlead
  rw [← hvalue] at hcases
  rcases hcases with habsent | ⟨hopens, hskip⟩
  · refine .empty habsent fun next hnext => ?_
    obtain ⟨hle, hitem⟩ := hrest next hnext
    refine ⟨hle, fun h => ?_⟩
    rw [hitem h.1] at h
    cases h.2
  · exact .value hopens.starts.isAbsent (.empty (hskip _) fun next hnext => (hrest next hnext).1)

/-- What follows a dash with a child below is the child. -/
theorem Writing.Legible.lead_item (htext : line.text = '-' :: lead)
    (hnext : rest.head? = some next) (hdeeper : line.indent < next.indent)
    (found : NodeAt (c.pass line rest) n after) : ItemAt c line rest n after := by
  have hitem : line.item = trimStart lead := by
    rw [LogicalLine.item, htext]
    rfl
  have hcases := legible.lead_cases hlead
  rw [← hitem] at hcases
  rcases hcases with habsent | ⟨hopens, hskip⟩
  · exact .deeper habsent hnext hdeeper found
  · exact .value hopens.starts.isAbsent hopens.not_collection
      (.deeper (hskip _) hnext hdeeper found)

/-- A dash with nothing below has nothing. -/
theorem Writing.Legible.lead_empty_item (htext : line.text = '-' :: lead)
    (hrest : ∀ next ∈ rest.head?, next.indent ≤ line.indent) :
    ItemAt c line rest .empty (c.pass line rest) := by
  have hitem : line.item = trimStart lead := by
    rw [LogicalLine.item, htext]
    rfl
  have hcases := legible.lead_cases hlead
  rw [← hitem] at hcases
  rcases hcases with habsent | ⟨hopens, hskip⟩
  · exact .empty habsent hrest
  · exact .value hopens.starts.isAbsent hopens.not_collection (.empty (hskip _) hrest)

end Leads

/-- A leaf on lines of its own. -/
theorem Writing.Legible.below_node {a : α} {k m : Nat} {text : List Char}
    {below : List BlockLine} (h : W.below a k m text below) (deeper : k < m) (c : Cursor)
    (ls rest : List LogicalLine) (hlines : c.lines = ls ++ rest)
    (hblocks : ls.map LogicalLine.block = ⟨m, text⟩ :: below)
    (hrest : ∀ next ∈ rest.head?, next.indent ≤ k) :
    ∃ n after, NodeAt c n after ∧
      ((Tree.leaf a).All W.straight → n.tree W.view = .leaf a) ∧
      Ends ((Tree.leaf a).All W.straight) k rest after := by
  obtain ⟨line, tail, rfl, rfl, rfl, htail⟩ := exists_cons_of_map_block hblocks
  have hopens := legible.below_opens h
  have hpass : (c.pass line (tail ++ rest)).lines = tail ++ rest := rfl
  by_cases hstraight : W.straight a
  · obtain ⟨s, after, hvalue, hview, hafter⟩ := legible.below_read line.number (line.indent + 1)
      h deeper hstraight hpass htail hrest
    refine ⟨_, after, .value hlines hopens.item hopens.key hvalue, fun _ => ?_, ?_⟩
    · rw [Node.tree, hview]
    · exact .of_behind (by rw [Tree.All]; exact hstraight) hafter
  · obtain ⟨n, after, next, hvalue, hnext, hdeeper⟩ := legible.below_stops line.number
      (line.indent + 1) h deeper hstraight hpass htail
    refine ⟨n, after, .value hlines hopens.item hopens.key hvalue, ?_, ?_, fun _ => ?_⟩
    · intro hall
      rw [Tree.All] at hall
      exact absurd hall hstraight
    · intro hall
      rw [Tree.All] at hall
      exact absurd hall hstraight
    · exact ⟨next, hnext, hdeeper⟩

omit legible

mutual

theorem Rendered.read (legible : W.Legible) {tree : Tree α} {k : Nat} {blocks : List BlockLine} :
    Rendered W tree k blocks → ∀ (c : Cursor) (ls rest : List LogicalLine),
      c.lines = ls ++ rest → ls.map LogicalLine.block = blocks →
      (∀ next ∈ rest.head?, next.indent < k) →
      ∃ n after, NodeAt c n after ∧ (tree.All W.straight → n.tree W.view = tree) ∧
        Ends (tree.All W.straight) k rest after
  | .mapping nonempty h => by
    intro c ls rest hlines hblocks hrest
    obtain ⟨text, more, rfl, -, hitem, hkey⟩ := h.exists_head legible nonempty
    obtain ⟨list, after, hfound, htree, hends⟩ := h.read legible c ls rest hlines hblocks hrest
    obtain ⟨line, tail, rfl, rfl, rfl, -⟩ := exists_cons_of_map_block hblocks
    obtain ⟨split, hsplit⟩ := Option.isSome_iff_exists.mp hkey
    simp only [Tree.All]
    refine ⟨_, after, .mapping hlines hitem hsplit hfound, fun hall => ?_, hends⟩
    rw [Node.tree, htree hall]
  | .sequence nonempty h => by
    intro c ls rest hlines hblocks hrest
    obtain ⟨text, more, rfl, -, hitem⟩ := h.exists_head nonempty
    obtain ⟨list, after, hfound, htree, hends⟩ := h.read legible c ls rest hlines hblocks
      fun next hnext => ⟨Nat.le_of_lt (hrest next hnext),
        fun heq => absurd heq (Nat.ne_of_lt (hrest next hnext))⟩
    obtain ⟨line, tail, rfl, rfl, rfl, -⟩ := exists_cons_of_map_block hblocks
    simp only [Tree.All]
    refine ⟨_, after, .sequence hlines hitem hfound, fun hall => ?_, hends⟩
    rw [Node.tree, htree hall]

theorem RenderedBelow.read (legible : W.Legible) {tree : Tree α} {k : Nat}
    {blocks : List BlockLine} :
    RenderedBelow W tree k blocks → ∀ (c : Cursor) (ls rest : List LogicalLine),
      c.lines = ls ++ rest → ls.map LogicalLine.block = blocks →
      (∀ next ∈ rest.head?, next.indent ≤ k) →
      ∃ next n after, (ls ++ rest).head? = some next ∧ k < next.indent ∧ NodeAt c n after ∧
        (tree.All W.straight → n.tree W.view = tree) ∧ Ends (tree.All W.straight) k rest after
  | .leaf deeper h => by
    intro c ls rest hlines hblocks hrest
    obtain ⟨n, after, hfound, htree, hends⟩ :=
      legible.below_node h deeper c ls rest hlines hblocks hrest
    obtain ⟨next, tail, rfl, rfl, -⟩ := exists_cons_of_map_block hblocks
    exact ⟨next, n, after, rfl, deeper, hfound, htree, hends⟩
  | .block deeper h => by
    intro c ls rest hlines hblocks hrest
    obtain ⟨n, after, hfound, htree, hends⟩ := h.read legible c ls rest hlines hblocks
      fun next hnext => Nat.lt_of_le_of_lt (hrest next hnext) deeper
    obtain ⟨text, more, rfl, -⟩ := h.head legible
    obtain ⟨next, tail, rfl, rfl, -⟩ := exists_cons_of_map_block hblocks
    exact ⟨next, n, after, rfl, deeper, hfound, htree, hends.mono (Nat.le_of_lt deeper)⟩

theorem RenderedEntries.read (legible : W.Legible) {entries : List (List Char × Tree α)} {k : Nat}
    {blocks : List BlockLine} :
    RenderedEntries W entries k blocks → ∀ (c : Cursor) (ls rest : List LogicalLine),
      c.lines = ls ++ rest → ls.map LogicalLine.block = blocks →
      (∀ next ∈ rest.head?, next.indent < k) →
      ∃ list after, EntriesAt k c list after ∧
        (AllEntries W.straight entries → entryTrees W.view list = entries) ∧
        Ends (AllEntries W.straight entries) k rest after
  | .nil => by
    intro c ls rest hlines hblocks hrest
    obtain rfl := List.map_eq_nil_iff.mp hblocks
    refine ⟨[], c, .stop ?_, fun _ => by rw [entryTrees],
      .of_behind (by rw [AllEntries]; trivial) hlines⟩
    intro line hline
    rw [hlines] at hline
    have hlt := hrest line hline
    rintro ⟨hindent, -⟩
    omega
  | .cons first others => by
    intro c ls rest hlines hblocks hrest
    obtain ⟨la, lb, rfl, hfirst, hmore⟩ := List.map_eq_append_iff.mp hblocks
    rw [List.append_assoc] at hlines
    have hnext : ∀ next ∈ (lb ++ rest).head?,
        next.indent ≤ k ∧ (next.indent = k → isItem next.text = false) := by
      intro next hnext
      rcases head?_append_cases hnext with hblock | hnext
      · rw [hmore] at hblock
        obtain ⟨hindent, hitem⟩ := others.head legible _ hblock
        exact ⟨Nat.le_of_eq hindent, fun _ => hitem⟩
      · have hlt := hrest next hnext
        exact ⟨Nat.le_of_lt hlt, fun heq => by omega⟩
    obtain ⟨line, tail, split, n, mid, rfl, hindent, hkey, hname, hentry, htree, hends⟩ :=
      first.read legible c la (lb ++ rest) hlines hfirst hnext
    simp only [allEntries_cons]
    rcases hends.cases with ⟨hall, hmid⟩ | ⟨hall, next, hnext, hdeeper⟩
    · obtain ⟨list, after, hfound, htrees, hafter⟩ :=
        others.read legible mid lb rest hmid hmore hrest
      refine ⟨_, after, .entry hlines hindent hkey hentry hfound, ?_, ?_, ?_⟩
      · intro h
        rw [entryTrees_cons, htrees h.2, htree hall, String.toList_ofList, hname]
      · exact fun h => hafter.behind h.2
      · exact fun h => hafter.stuck fun hothers => h ⟨hall, hothers⟩
    · refine ⟨_, mid, .entry hlines hindent hkey hentry (.stop ?_), ?_, ?_, ?_⟩
      · intro line hline
        obtain rfl : next = line := Option.some.inj (hnext.symm.trans hline)
        rintro ⟨heq, -⟩
        omega
      · exact fun h => absurd h.1 hall
      · exact fun h => absurd h.1 hall
      · exact fun _ => ⟨next, hnext, hdeeper⟩

theorem RenderedEntry.read (legible : W.Legible) {entry : List Char × Tree α} {k : Nat}
    {blocks : List BlockLine} :
    RenderedEntry W entry k blocks → ∀ (c : Cursor) (ls rest : List LogicalLine),
      c.lines = ls ++ rest → ls.map LogicalLine.block = blocks →
      (∀ next ∈ rest.head?, next.indent ≤ k ∧ (next.indent = k → isItem next.text = false)) →
      ∃ line tail split n after, ls = line :: tail ∧ line.indent = k ∧
        splitKey line.text = some split ∧ split.key = entry.1 ∧
        EntryAt c line (tail ++ rest) split n after ∧
        (entry.2.All W.straight → n.tree W.view = entry.2) ∧
        Ends (entry.2.All W.straight) k rest after
  | .nothing hkey hlead => by
    intro c ls rest hlines hblocks hrest
    obtain ⟨line, tail, rfl, rfl, htext, htail⟩ := exists_cons_of_map_block hblocks
    obtain rfl := List.map_eq_nil_iff.mp htail
    obtain ⟨split, hsplit, hname, hvalue⟩ := legible.key_line hkey hlead.endsKey htext
    exact ⟨line, [], split, .empty, _, rfl, rfl, hsplit, hname,
      legible.lead_empty_entry hlead hvalue hrest, fun _ => by rw [Node.tree],
      .of_behind (by rw [Tree.All]; trivial) rfl⟩
  | .leaf hkey h => by
    intro c ls rest hlines hblocks hrest
    obtain ⟨line, tail, rfl, rfl, htext, htail⟩ := exists_cons_of_map_block hblocks
    have hstarts := (legible.inline_opens h).starts
    obtain ⟨split, hsplit, hname, hvalue⟩ :=
      legible.key_line hkey (endsKey_gap_append _ _) htext
    rw [trimStart_gap_append hstarts] at hvalue
    obtain ⟨s, after, hfound, hview, hafter⟩ := legible.inline_read
      (c := c.pass line (tail ++ rest)) line.number
      (line.indent + split.colon + byteLength split.gap + 2) h rfl htail
      fun next hnext => (hrest next hnext).1
    rw [← hvalue] at hfound
    refine ⟨line, tail, split, .scalar s, after, rfl, rfl, hsplit, hname, .value ?_ hfound,
      fun _ => by rw [Node.tree, hview],
      .of_behind (by rw [Tree.All]; exact legible.inline_straight h) hafter⟩
    rw [hvalue]
    exact hstarts.isAbsent
  | .deeper hkey hlead h => by
    intro c ls rest hlines hblocks hrest
    obtain ⟨line, tail, rfl, rfl, htext, htail⟩ := exists_cons_of_map_block hblocks
    obtain ⟨split, hsplit, hname, hvalue⟩ := legible.key_line hkey hlead.endsKey htext
    obtain ⟨next, n, after, hnext, hdeeper, hfound, htree, hends⟩ := h.read legible
      (c.pass line (tail ++ rest)) tail rest rfl htail fun next hnext => (hrest next hnext).1
    exact ⟨line, tail, split, n, after, rfl, rfl, hsplit, hname,
      legible.lead_entry hlead hvalue hnext hdeeper hfound, htree, hends⟩
  | .flat hkey hnote nonempty h => by
    intro c ls rest hlines hblocks hrest
    obtain ⟨line, tail, rfl, rfl, htext, htail⟩ := exists_cons_of_map_block hblocks
    obtain ⟨split, hsplit, hname, hvalue⟩ := legible.key_line hkey hnote.endsKey htext
    have habsent : isAbsent split.value = true := by rw [hvalue, hnote.isAbsent]
    obtain ⟨list, after, hfound, htree, hends⟩ :=
      h.read legible (c.pass line (tail ++ rest)) tail rest rfl htail hrest
    obtain ⟨text, more, rfl, -, hitem⟩ := h.exists_head nonempty
    obtain ⟨next, tail', rfl, hindent, rfl, -⟩ := exists_cons_of_map_block htail
    refine ⟨line, _, split, _, after, rfl, rfl, hsplit, hname,
      .items habsent rfl hindent hitem hfound, fun hall => ?_, ?_⟩
    · rw [Tree.All] at hall
      rw [Node.tree, htree hall]
    · simp only [Tree.All]
      exact hends

theorem RenderedItems.read (legible : W.Legible) {items : List (Tree α)} {k : Nat}
    {blocks : List BlockLine} :
    RenderedItems W items k blocks → ∀ (c : Cursor) (ls rest : List LogicalLine),
      c.lines = ls ++ rest → ls.map LogicalLine.block = blocks →
      (∀ next ∈ rest.head?, next.indent ≤ k ∧ (next.indent = k → isItem next.text = false)) →
      ∃ list after, ItemsAt k c list after ∧
        (AllItems W.straight items → itemTrees W.view list = items) ∧
        Ends (AllItems W.straight items) k rest after
  | .nil => by
    intro c ls rest hlines hblocks hrest
    obtain rfl := List.map_eq_nil_iff.mp hblocks
    refine ⟨[], c, .stop ?_, fun _ => by rw [itemTrees],
      .of_behind (by rw [AllItems]; trivial) hlines⟩
    intro line hline
    rw [hlines] at hline
    obtain ⟨-, hitem⟩ := hrest line hline
    rintro ⟨hindent, hdash⟩
    rw [hitem hindent] at hdash
    cases hdash
  | .cons first others => by
    intro c ls rest hlines hblocks hrest
    obtain ⟨la, lb, rfl, hfirst, hmore⟩ := List.map_eq_append_iff.mp hblocks
    rw [List.append_assoc] at hlines
    have hnext : ∀ next ∈ (lb ++ rest).head?, next.indent ≤ k := by
      intro next hnext
      rcases head?_append_cases hnext with hblock | hnext
      · rw [hmore] at hblock
        exact Nat.le_of_eq (others.head _ hblock)
      · exact (hrest next hnext).1
    obtain ⟨line, tail, n, mid, rfl, hindent, hitem, hfirst, htree, hends⟩ :=
      first.read legible c la (lb ++ rest) hlines hfirst hnext
    simp only [allItems_cons]
    rcases hends.cases with ⟨hall, hmid⟩ | ⟨hall, next, hnext, hdeeper⟩
    · obtain ⟨list, after, hfound, htrees, hafter⟩ :=
        others.read legible mid lb rest hmid hmore hrest
      refine ⟨_, after, .item hlines hindent hitem hfirst hfound, ?_, ?_, ?_⟩
      · intro h
        rw [itemTrees_cons, htrees h.2, htree hall]
      · exact fun h => hafter.behind h.2
      · exact fun h => hafter.stuck fun hothers => h ⟨hall, hothers⟩
    · refine ⟨_, mid, .item hlines hindent hitem hfirst (.stop ?_), ?_, ?_, ?_⟩
      · intro line hline
        obtain rfl : next = line := Option.some.inj (hnext.symm.trans hline)
        rintro ⟨heq, -⟩
        omega
      · exact fun h => absurd h.1 hall
      · exact fun h => absurd h.1 hall
      · exact fun _ => ⟨next, hnext, hdeeper⟩

theorem RenderedItem.read (legible : W.Legible) {item : Tree α} {k : Nat}
    {blocks : List BlockLine} :
    RenderedItem W item k blocks → ∀ (c : Cursor) (ls rest : List LogicalLine),
      c.lines = ls ++ rest → ls.map LogicalLine.block = blocks →
      (∀ next ∈ rest.head?, next.indent ≤ k) →
      ∃ line tail n after, ls = line :: tail ∧ line.indent = k ∧ isItem line.text = true ∧
        ItemAt c line (tail ++ rest) n after ∧ (item.All W.straight → n.tree W.view = item) ∧
        Ends (item.All W.straight) k rest after
  | .nothing hlead => by
    intro c ls rest hlines hblocks hrest
    obtain ⟨line, tail, rfl, rfl, htext, htail⟩ := exists_cons_of_map_block hblocks
    obtain rfl := List.map_eq_nil_iff.mp htail
    exact ⟨line, [], .empty, _, rfl, rfl, by rw [htext]; exact hlead.isItem,
      legible.lead_empty_item hlead htext hrest, fun _ => by rw [Node.tree],
      .of_behind (by rw [Tree.All]; trivial) rfl⟩
  | .leaf h => by
    intro c ls rest hlines hblocks hrest
    obtain ⟨line, tail, rfl, rfl, htext, htail⟩ := exists_cons_of_map_block hblocks
    have hopens := legible.inline_opens h
    obtain ⟨hitem, -⟩ := LogicalLine.behindDash_gap hopens.starts htext
    obtain ⟨s, after, hfound, hview, hafter⟩ := legible.inline_read
      (c := c.pass line (tail ++ rest)) line.number (line.behindDash.indent + 1) h rfl htail hrest
    rw [← hitem] at hopens hfound
    refine ⟨line, tail, .scalar s, after, rfl, rfl, by rw [htext]; rfl,
      .value hopens.starts.isAbsent hopens.not_collection hfound,
      fun _ => by rw [Node.tree, hview],
      .of_behind (by rw [Tree.All]; exact legible.inline_straight h) hafter⟩
  | .compact h => by
    intro c ls rest hlines hblocks hrest
    obtain ⟨line, tail, rfl, rfl, htext, htail⟩ := exists_cons_of_map_block hblocks
    obtain ⟨text, more, heq, hstarts, hopens⟩ := h.head legible
    obtain ⟨-, rfl⟩ := BlockLine.mk.inj (List.cons.inj heq).1
    obtain ⟨hitem, hbehind⟩ := LogicalLine.behindDash_gap hstarts htext
    obtain ⟨n, after, hfound, htree, hends⟩ := h.read legible (c.enter line (tail ++ rest))
      (line.behindDash :: tail) rest rfl (by rw [List.map_cons, hbehind, htail])
      fun next hnext => Nat.lt_of_le_of_lt (hrest next hnext) (by omega)
    rw [← hitem] at hstarts hopens
    exact ⟨line, tail, n, after, rfl, rfl, by rw [htext]; rfl,
      .behind hstarts.isAbsent hopens hfound, htree, hends.mono (by omega)⟩
  | .deeper hlead h => by
    intro c ls rest hlines hblocks hrest
    obtain ⟨line, tail, rfl, rfl, htext, htail⟩ := exists_cons_of_map_block hblocks
    obtain ⟨next, n, after, hnext, hdeeper, hfound, htree, hends⟩ := h.read legible
      (c.pass line (tail ++ rest)) tail rest rfl htail hrest
    exact ⟨line, tail, n, after, rfl, rfl, by rw [htext]; exact hlead.isItem,
      legible.lead_item hlead htext hnext hdeeper hfound, htree, hends⟩

end

end Reading

end PlaybookStyle.Outline
