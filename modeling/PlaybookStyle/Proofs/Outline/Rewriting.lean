/-
Sources with one key written anew.

Where the text of a line from a key on is replaced by another text with a key
(`Rewriting`), the scanner still takes the line for what it was, also behind the
dashes before the key. So everything that is read before the line is read as it was
(`NodeAt.ahead`), and so is everything behind it, if what stands under the new key is
read up to the same line. The outline then has a new entry in the place of the old one
(`NodeAt.rewritten`).
-/

import PlaybookStyle.Proofs.Outline.Differing
import PlaybookStyle.Proofs.Outline.First

namespace PlaybookStyle.Outline

/-! ### Lines written anew -/

/-- The text of a line from a key on, as it is and as it is written anew. -/
structure Rewriting extends Exchange where
  oldSplit : KeySplit
  newSplit : KeySplit
  oldKey : splitKey old = some oldSplit
  newKey : splitKey new = some newSplit
  key := (congrArg Option.isSome newKey).trans (congrArg Option.isSome oldKey).symm

namespace Rewriting

variable {r : Rewriting} {line line' : LogicalLine}

/-- Where the key stands. -/
def place (r : Rewriting) : Position := ⟨r.number, r.indent + 1⟩

/-- The line opens an item or an entry. -/
theorem opens (h : r.Line line line') : (isItem line.text || (splitKey line.text).isSome) = true := by
  cases h with
  | here => rw [show splitKey r.oldLine.text = _ from r.oldKey, Option.isSome_some, Bool.or_true]
  | behind _ _ oldItem => rw [oldItem, Bool.true_or]

end Rewriting

/-! ### Outlines with an entry replaced -/

mutual

/-- The node with the entry at a place replaced. -/
def Node.edit (place : Position) (f : Entry Node → Entry Node) : Node → Node
  | .mapping position entries => .mapping position (entriesEdit place f entries)
  | .sequence position items => .sequence position (itemsEdit place f items)
  | .scalar s => .scalar s
  | .empty => .empty

def entriesEdit (place : Position) (f : Entry Node → Entry Node) : List (Entry Node) → List (Entry Node)
  | [] => []
  | entry :: rest => entryEdit place f entry :: entriesEdit place f rest

def entryEdit (place : Position) (f : Entry Node → Entry Node) : Entry Node → Entry Node
  | ⟨key, position, spacing, value, endLine⟩ =>
    if position = place then f ⟨key, position, spacing, value, endLine⟩
    else ⟨key, position, spacing, Node.edit place f value, endLine⟩

def itemsEdit (place : Position) (f : Entry Node → Entry Node) : List (Item Node) → List (Item Node)
  | [] => []
  | item :: rest => itemEdit place f item :: itemsEdit place f rest

def itemEdit (place : Position) (f : Entry Node → Entry Node) : Item Node → Item Node
  | ⟨position, value, endLine⟩ => ⟨position, Node.edit place f value, endLine⟩

end

section Edit

variable {place : Position} {f : Entry Node → Entry Node}

theorem entriesEdit_eq_map (entries : List (Entry Node)) :
    entriesEdit place f entries = entries.map (entryEdit place f) := by
  induction entries with
  | nil => rw [entriesEdit, List.map_nil]
  | cons entry rest ih => rw [entriesEdit, List.map_cons, ih]

theorem itemsEdit_eq_map (items : List (Item Node)) :
    itemsEdit place f items = items.map (itemEdit place f) := by
  induction items with
  | nil => rw [itemsEdit, List.map_nil]
  | cons item rest ih => rw [itemsEdit, List.map_cons, ih]

theorem entryEdit_at {entry : Entry Node} (h : entry.position = place) :
    entryEdit place f entry = f entry := by
  obtain ⟨key, position, spacing, value, endLine⟩ := entry
  rw [entryEdit, if_pos h]

theorem entryEdit_off {entry : Entry Node} (h : entry.position ≠ place) :
    entryEdit place f entry = { entry with value := entry.value.edit place f } := by
  obtain ⟨key, position, spacing, value, endLine⟩ := entry
  rw [entryEdit, if_neg h]

theorem itemEdit_eq (item : Item Node) :
    itemEdit place f item = { item with value := item.value.edit place f } := by
  obtain ⟨position, value, endLine⟩ := item
  rw [itemEdit]

/-- Nothing changes where no entry stands at the place. -/
theorem Node.edit_of_forall_ne {n : Node} (h : ∀ e ∈ n.allEntries, e.position ≠ place) :
    n.edit place f = n := by
  induction n using Node.allEntries.induct with
  | case1 position entries ih =>
    rw [Node.allEntries_mapping, List.forall_mem_flatMap] at h
    have hsame : entries.map (entryEdit place f) = entries.map id := by
      refine List.map_congr_left fun entry hentry => ?_
      obtain ⟨hplace, hvalue⟩ := List.forall_mem_cons.mp (h entry hentry)
      rw [entryEdit_off hplace, ih entry hentry hvalue, id]
    rw [edit, entriesEdit_eq_map, hsame, List.map_id]
  | case2 position items ih =>
    rw [Node.allEntries_sequence, List.forall_mem_flatMap] at h
    have hsame : items.map (itemEdit place f) = items.map id := by
      refine List.map_congr_left fun item hitem => ?_
      rw [itemEdit_eq, ih item hitem (h item hitem), id]
    rw [edit, itemsEdit_eq_map, hsame, List.map_id]
  | case3 s => rw [edit]
  | case4 => rw [edit]

/-- Only the entries at the place count. -/
theorem Node.edit_congr {g : Entry Node → Entry Node} {n : Node}
    (h : ∀ e ∈ n.allEntries, e.position = place → f e = g e) : n.edit place f = n.edit place g := by
  induction n using Node.allEntries.induct with
  | case1 position entries ih =>
    rw [Node.allEntries_mapping, List.forall_mem_flatMap] at h
    rw [edit, edit, entriesEdit_eq_map, entriesEdit_eq_map]
    congr 1
    refine List.map_congr_left fun entry hentry => ?_
    obtain ⟨hself, hvalue⟩ := List.forall_mem_cons.mp (h entry hentry)
    by_cases hplace : entry.position = place
    · rw [entryEdit_at hplace, entryEdit_at hplace, hself hplace]
    · rw [entryEdit_off hplace, entryEdit_off hplace, ih entry hentry hvalue]
  | case2 position items ih =>
    rw [Node.allEntries_sequence, List.forall_mem_flatMap] at h
    rw [edit, edit, itemsEdit_eq_map, itemsEdit_eq_map]
    congr 1
    refine List.map_congr_left fun item hitem => ?_
    rw [itemEdit_eq, itemEdit_eq, ih item hitem (h item hitem)]
  | case3 s => rw [edit, edit]
  | case4 => rw [edit, edit]

theorem entriesEdit_of_forall_ne {entries : List (Entry Node)}
    (h : ∀ e ∈ entries.flatMap Entry.covered, e.position ≠ place) :
    entriesEdit place f entries = entries := by
  have hnode := Node.edit_of_forall_ne (f := f) (n := .mapping place entries)
    (by rwa [Node.allEntries_mapping])
  rw [Node.edit] at hnode
  exact (Node.mapping.inj hnode).2

theorem itemsEdit_of_forall_ne {items : List (Item Node)}
    (h : ∀ e ∈ items.flatMap fun item => item.value.allEntries, e.position ≠ place) :
    itemsEdit place f items = items := by
  have hnode := Node.edit_of_forall_ne (f := f) (n := .sequence place items)
    (by rwa [Node.allEntries_sequence])
  rw [Node.edit] at hnode
  exact (Node.sequence.inj hnode).2

end Edit

/-! ### Lines of entries -/

section Lines

variable {c after : Cursor} {line : LogicalLine} {rest : List LogicalLine} {n : Node} {e : Entry Node}

/-- What is read at a cursor stands behind the last line passed. -/
theorem NodeAt.entries_within (found : NodeAt c n after) (hc : c.Placed source)
    (he : e ∈ n.allEntries) : c.lastLine < e.position.line ∧ e.position.line ≤ after.lastLine :=
  (found.nests hc _ (Nat.lt_succ_self _) hc.lastLine_lt_head).1.nested.everywhere.of_mem_allEntries he

theorem ItemsAt.entries_within {indent : Nat} {list : List (Item Node)}
    (found : ItemsAt indent c list after) (hc : c.Placed source)
    (he : e ∈ list.flatMap fun item => item.value.allEntries) :
    c.lastLine < e.position.line ∧ e.position.line ≤ after.lastLine := by
  have hnests := (found.nests hc _ (Nat.lt_succ_self _) hc.lastLine_lt_head).sequence ⟨0, 0⟩
  rw [← Node.allEntries_sequence ⟨0, 0⟩] at he
  exact hnests.nested.everywhere.of_mem_allEntries he

theorem EntriesAt.entries_within {indent : Nat} {list : List (Entry Node)}
    (found : EntriesAt indent c list after) (hc : c.Placed source)
    (he : e ∈ list.flatMap Entry.covered) :
    c.lastLine < e.position.line ∧ e.position.line ≤ after.lastLine := by
  have hnests := (found.nests hc _ (Nat.lt_succ_self _) hc.lastLine_lt_head).mapping ⟨0, 0⟩
  rw [← Node.allEntries_mapping ⟨0, 0⟩] at he
  exact hnests.nested.everywhere.of_mem_allEntries he

/-- Nothing that is read behind a line stands on it or on one before. -/
theorem ItemsAt.position_ne {indent : Nat} {list : List (Item Node)} {place : Position}
    (found : ItemsAt indent c list after) (hc : c.Placed source) (hplace : place.line ≤ c.lastLine)
    (he : e ∈ list.flatMap fun item => item.value.allEntries) : e.position ≠ place := by
  rintro rfl
  exact absurd (found.entries_within hc he).1 (Nat.not_lt.mpr hplace)

theorem EntriesAt.position_ne {indent : Nat} {list : List (Entry Node)} {place : Position}
    (found : EntriesAt indent c list after) (hc : c.Placed source) (hplace : place.line ≤ c.lastLine)
    (he : e ∈ list.flatMap Entry.covered) : e.position ≠ place := by
  rintro rfl
  exact absurd (found.entries_within hc he).1 (Nat.not_lt.mpr hplace)

theorem ItemAt.entries_le (found : ItemAt c line rest n after) (h : c.lines = line :: rest)
    (hitem : isItem line.text = true) (hc : c.Placed source) (he : e ∈ n.allEntries) :
    e.position.line ≤ after.lastLine :=
  ((found.nests h hitem hc).1.nested.everywhere.of_mem_allEntries he).2

/-- What stands under a key stands behind its line. -/
theorem EntryAt.entries_within {split : KeySplit} (found : EntryAt c line rest split n after)
    (h : c.lines = line :: rest) (hc : c.Placed source) (he : e ∈ n.allEntries) :
    line.number < e.position.line ∧ e.position.line ≤ after.lastLine := by
  cases found with
  | deeper _ _ _ found => exact found.entries_within (hc.pass h) he
  | items _ _ _ _ found =>
    rw [Node.allEntries_sequence] at he
    exact found.entries_within (hc.pass h) he
  | empty => simp at he
  | value _ found =>
    cases found with
    | deeper _ _ _ found => exact found.entries_within (hc.pass h) he
    | empty => simp at he
    | scalar => simp [scalarAt] at he

end Lines

/-! ### What is read at the line -/

section Reading

variable {source : List Char} {r : Rewriting}

namespace Rewriting

variable {line line' : LogicalLine}

/-- The entry with its key written anew. -/
def entry (r : Rewriting) (value : Node → Node) (e : Entry Node) : Entry Node :=
  ⟨String.ofList r.newSplit.key, e.position, r.newSplit.spacing, value e.value, e.endLine⟩

/-- What stands under the new key, given that some node stood under the old one. If the
rewriting is `exact`, reading goes on at the same line. -/
def Reads (r : Rewriting) (source : List Char) (ok : Node → Prop) (value : Node → Node)
    (exact : Prop) : Prop :=
  ∀ {c c' mid : Cursor} {rest : List LogicalLine} {n : Node}, c.Placed source →
    c.lines = r.oldLine :: rest → c'.lines = r.newLine :: rest → c'.verbatim = c.verbatim →
      EntryAt c r.oldLine rest r.oldSplit n mid → ok n →
        ∃ mid', EntryAt c' r.newLine rest r.newSplit (value n) mid' ∧ (exact → mid' = mid)

/-- An entry at the place, before and behind. -/
def Changes (r : Rewriting) (value : Node → Node) (old new : List (Entry Node)) : Prop :=
  ∃ e ∈ old, ∃ e' ∈ new, e.position = r.place ∧ e'.position = r.place ∧ e'.value = value e.value

theorem Changes.mono {value : Node → Node} {old new old' new' : List (Entry Node)}
    (h : r.Changes value old new) (hold : ∀ e ∈ old, e ∈ old') (hnew : ∀ e ∈ new, e ∈ new') :
    r.Changes value old' new' := by
  obtain ⟨e, he, e', he', hplaces⟩ := h
  exact ⟨e, hold e he, e', hnew e' he', hplaces⟩

theorem Changes.of_heads {value : Node → Node} {e e' : Entry Node} {list list' : List (Entry Node)}
    (he : e.position = r.place) (he' : e'.position = r.place) (hvalue : e'.value = value e.value) :
    r.Changes value ((e :: list).flatMap Entry.covered) ((e' :: list').flatMap Entry.covered) :=
  ⟨e, List.mem_cons_self, e', List.mem_cons_self, he, he', hvalue⟩

/-- Where an entry at the place stands behind the beginning of the line, dashes do
before it. -/
theorem dashed (h : r.Line line line') {n : Node} (behind : n.Everywhere line.place.Before)
    (there : ∃ e ∈ n.allEntries, e.position = r.place) : r.Dashed line line' := by
  refine Exchange.Line.dashed h ?_
  rintro rfl
  obtain ⟨e, he, hplace⟩ := there
  have hbefore := behind.of_mem_allEntries he
  rw [hplace] at hbefore
  exact r.place.not_before_self hbefore

end Rewriting

variable {ok : Node → Prop} {value : Node → Node} {exact : Prop}

/-- An entry that is itself at the place has its key on the line written anew, so it is
the one that changes, and none behind it does. -/
theorem EntryAt.rewritten_here {indent : Nat} {c mid after c' : Cursor} {line : LogicalLine}
    {rest : List LogicalLine} {split : KeySplit} {n : Node} {e : Entry Node}
    {list : List (Entry Node)} (first : EntryAt c line rest split n mid)
    (h : c.lines = line :: rest) (hindent : line.indent = indent)
    (hkey : splitKey line.text = some split)
    (he : e = ⟨String.ofList split.key, ⟨line.number, indent + 1⟩, split.spacing, n, mid.lastLine⟩)
    (more : EntriesAt indent mid list after) (reads : r.Reads source ok value exact)
    (hc : c.Placed source) (hahead : r.Ahead c c') (hself : e.position = r.place) (hok : ok n) :
    ∃ list' after', EntriesAt indent c' list' after' ∧
      r.Changes value ((e :: list).flatMap Entry.covered) (list'.flatMap Entry.covered) ∧
      (exact → list' = entriesEdit r.place (r.entry value) (e :: list) ∧ after' = after) := by
  subst he
  have hnumber : line.number = r.number := congrArg Position.line hself
  obtain ⟨line', rest', hlines', hfront, front⟩ := hahead.cases_front h
  rcases hfront with ⟨hexchanged, rfl⟩ | ⟨rfl, hrest⟩
  · have hcolumn : indent = r.indent := Nat.succ.inj (congrArg Position.column hself)
    obtain ⟨rfl, rfl⟩ := hexchanged.eq_of_indent (hindent.trans hcolumn)
    obtain rfl := Option.some.inj (hkey.symm.trans r.oldKey)
    have hindent' : r.newLine.indent = indent := front.indent.trans hindent
    obtain ⟨mid', hfound, hexact⟩ := reads hc h hlines' hahead.verbatim first hok
    by_cases h' : exact
    · obtain rfl := hexact h'
      have hpassed : r.number ≤ mid'.lastLine := (first.nests h hc).passes
      have hmid := (first.placed h hkey hc).2
      refine ⟨_, after, .entry hlines' hindent' r.newKey hfound more, .of_heads hself hself rfl,
        fun _ => ⟨?_, rfl⟩⟩
      rw [entriesEdit, entryEdit_at hself,
        entriesEdit_of_forall_ne fun _ => more.position_ne hmid hpassed]
      rfl
    · exact ⟨_, _, .entry hlines' hindent' r.newKey hfound (entries_at indent mid'),
        .of_heads hself hself rfl, fun hex => absurd hex h'⟩
  · exact absurd hnumber (Nat.ne_of_lt ((hahead.pass hrest).lt_number (hc.pass h)))

mutual

/-- Where an entry stands at the place, it is the one entry that changes. -/
theorem NodeAt.rewritten {c after : Cursor} {n : Node} :
    NodeAt c n after → r.Reads source ok value exact → c.Placed source → ∀ {c'}, r.Ahead c c' →
      (∃ e ∈ n.allEntries, e.position = r.place) →
        (∀ e ∈ n.allEntries, e.position = r.place → ok e.value) →
          ∃ n' after', NodeAt c' n' after' ∧ r.Changes value n.allEntries n'.allEntries ∧
            (exact → n' = n.edit r.place (r.entry value) ∧ after' = after)
  | .nothing _ => by simp
  | .sequence h hitem found => by
    intro reads hc c' hahead hthere hok
    rw [Node.allEntries_sequence] at hthere hok
    obtain ⟨line', rest', hlines', -, front⟩ := hahead.cases_front h
    obtain ⟨list', after', hfound, hchanges, hexact⟩ := found.rewritten reads hc hahead hthere hok
    refine ⟨.sequence ⟨line'.number, line'.indent + 1⟩ list', after',
      .sequence hlines' (front.isItem.trans hitem) (front.indent ▸ hfound), ?_, fun h => ?_⟩
    · rwa [Node.allEntries_sequence, Node.allEntries_sequence]
    · rw [Node.edit, front.number, front.indent, (hexact h).1]
      exact ⟨rfl, (hexact h).2⟩
  | .mapping h hitem hkey found => by
    intro reads hc c' hahead hthere hok
    rw [Node.allEntries_mapping] at hthere hok
    obtain ⟨line', rest', hlines', -, front⟩ := hahead.cases_front h
    obtain ⟨split', hkey'⟩ := front.exists_splitKey hitem hkey
    obtain ⟨list', after', hfound, hchanges, hexact⟩ := found.rewritten reads hc hahead hthere hok
    refine ⟨.mapping ⟨line'.number, line'.indent + 1⟩ list', after',
      .mapping hlines' (front.isItem.trans hitem) hkey' (front.indent ▸ hfound), ?_, fun h => ?_⟩
    · rwa [Node.allEntries_mapping, Node.allEntries_mapping]
    · rw [Node.edit, front.number, front.indent, (hexact h).1]
      exact ⟨rfl, (hexact h).2⟩
  | .value h hitem hkey found => by
    intro reads hc c' hahead hthere hok
    rcases hahead.cases_lines h with ⟨line', hline, -⟩ | ⟨rest', hrest, hlines'⟩
    · have hopens := Rewriting.opens hline
      rw [hitem, hkey] at hopens
      cases hopens
    · obtain ⟨n', after', hfound, hchanges, hexact⟩ :=
        found.rewritten reads (hc.pass h) (hahead.pass hrest) hthere hok
      exact ⟨n', after', .value hlines' hitem hkey hfound, hchanges, hexact⟩

theorem ItemsAt.rewritten {indent : Nat} {c after : Cursor} {list : List (Item Node)} :
    ItemsAt indent c list after → r.Reads source ok value exact → c.Placed source →
      ∀ {c'}, r.Ahead c c' →
      (∃ e ∈ list.flatMap fun item => item.value.allEntries, e.position = r.place) →
        (∀ e ∈ list.flatMap fun item => item.value.allEntries, e.position = r.place → ok e.value) →
          ∃ list' after', ItemsAt indent c' list' after' ∧
            r.Changes value (list.flatMap fun item => item.value.allEntries)
              (list'.flatMap fun item => item.value.allEntries) ∧
            (exact → list' = itemsEdit r.place (r.entry value) list ∧ after' = after)
  | .stop _ => by simp
  | @ItemsAt.item _ _ mid _ line rest n list h hindent hitem first more => by
    intro reads hc c' hahead hthere hok
    obtain ⟨-, hpassed⟩ := first.nests h hitem hc
    have hmid := (first.placed h hitem hc).2
    rw [List.flatMap_cons] at hthere hok ⊢
    simp only [List.mem_append] at hthere hok
    obtain ⟨e, he, hplace⟩ := hthere
    have hline : e.position.line = r.number := congrArg Position.line hplace
    by_cases hfirst : ∃ e ∈ n.allEntries, e.position = r.place
    · -- The entry is in the first item, and what is left behind that is the same.
      obtain ⟨line', rest', hlines', hfront, front⟩ := hahead.cases_front h
      have hdashed : r.Dashed line line' ∧ rest = rest' ∨ line = line' ∧ Differ r.Line rest rest' :=
        hfront.imp_left (.imp_left fun hline =>
          Rewriting.dashed hline (first.everywhere_before h hc) hfirst)
      obtain ⟨n', mid', hfound, hchanges, hexact⟩ := first.rewritten reads h hitem hc hahead
        hdashed hfirst fun e he => hok e (.inl he)
      obtain ⟨e, he, hplace⟩ := hfirst
      have hnumber : r.number ≤ mid.lastLine := by
        have hle := first.entries_le h hitem hc he
        rwa [hplace] at hle
      have hitem' : isItem line'.text = true := front.isItem.trans hitem
      have hindent' : line'.indent = indent := front.indent.trans hindent
      by_cases h : exact
      · obtain ⟨hn', rfl⟩ := hexact h
        refine ⟨_, after, .item hlines' hindent' hitem' hfound more, ?_, fun _ => ⟨?_, rfl⟩⟩
        · rw [List.flatMap_cons]
          exact hchanges.mono (fun _ => List.mem_append_left _) fun _ => List.mem_append_left _
        · rw [itemsEdit, itemEdit_eq, hn', front.number,
            itemsEdit_of_forall_ne fun _ => more.position_ne hmid hnumber]
      · refine ⟨_, _, .item hlines' hindent' hitem' hfound (items_at indent mid'), ?_,
          fun hex => absurd hex h⟩
        rw [List.flatMap_cons]
        exact hchanges.mono (fun _ => List.mem_append_left _) fun _ => List.mem_append_left _
    · have he : e ∈ list.flatMap fun item => item.value.allEntries :=
        he.resolve_left fun he => hfirst ⟨e, he, hplace⟩
      have hbefore : mid.lastLine < r.number := hline ▸ (more.entries_within hmid he).1
      obtain ⟨rest', hrest, hlines'⟩ := hahead.cases_passed h hpassed hbefore
      obtain ⟨mid', hfound, hmid'⟩ := first.ahead h hitem hc hahead hrest hbefore
      obtain ⟨list', after', hmore, hchanges, hexact⟩ :=
        more.rewritten reads hmid hmid' ⟨e, he, hplace⟩ fun e he => hok e (.inr he)
      refine ⟨_, after', .item hlines' hindent hitem hfound hmore, ?_, fun h => ?_⟩
      · rw [List.flatMap_cons]
        exact hchanges.mono (fun _ => List.mem_append_right _) fun _ => List.mem_append_right _
      · have hsame : n.edit r.place (r.entry value) = n :=
          Node.edit_of_forall_ne fun e he hplace => hfirst ⟨e, he, hplace⟩
        rw [itemsEdit, itemEdit_eq, hsame, (hexact h).1, hmid'.lastLine]
        exact ⟨rfl, (hexact h).2⟩

theorem ItemAt.rewritten {c after : Cursor} {line : LogicalLine} {rest : List LogicalLine}
    {n : Node} :
    ItemAt c line rest n after → r.Reads source ok value exact → c.lines = line :: rest →
      isItem line.text = true → c.Placed source → ∀ {c'}, r.Ahead c c' → ∀ {line' rest'},
      (r.Dashed line line' ∧ rest = rest' ∨ line = line' ∧ Differ r.Line rest rest') →
      (∃ e ∈ n.allEntries, e.position = r.place) →
        (∀ e ∈ n.allEntries, e.position = r.place → ok e.value) →
          ∃ n' after', ItemAt c' line' rest' n' after' ∧
            r.Changes value n.allEntries n'.allEntries ∧
            (exact → n' = n.edit r.place (r.entry value) ∧ after' = after)
  | .deeper habsent hnext hdeeper found => by
    intro reads h _ hc c' hahead line' rest' hfront hthere hok
    rcases hfront with ⟨hdashed, -⟩ | ⟨rfl, hrest⟩
    · exact absurd (hdashed.oldPresent.symm.trans habsent) (by decide)
    · obtain ⟨next', hhead', front⟩ := hrest.exists_front hnext
      obtain ⟨n', after', hfound, hchanges, hexact⟩ :=
        found.rewritten reads (hc.pass h) (hahead.pass hrest) hthere hok
      exact ⟨n', after', .deeper habsent hhead' (by rwa [front.indent]) hfound, hchanges, hexact⟩
  | .empty _ _ => by simp
  | .behind hpresent hcollection found => by
    intro reads h hitem hc c' hahead line' rest' hfront hthere hok
    rcases hfront with ⟨hdashed, rfl⟩ | ⟨rfl, hrest⟩
    · obtain ⟨n', after', hfound, hchanges, hexact⟩ :=
        found.rewritten reads (hc.enter h hitem hpresent) (hahead.enter_dashed hdashed) hthere hok
      exact ⟨n', after', .behind hdashed.newPresent (hdashed.inner.collection_eq.trans hcollection)
        hfound, hchanges, hexact⟩
    · obtain ⟨n', after', hfound, hchanges, hexact⟩ :=
        found.rewritten reads (hc.enter h hitem hpresent) (hahead.enter hrest) hthere hok
      exact ⟨n', after', .behind hpresent hcollection hfound, hchanges, hexact⟩
  | .value hpresent hcollection found => by
    intro reads h _ hc c' hahead line' rest' hfront hthere hok
    rcases hfront with ⟨hdashed, -⟩ | ⟨rfl, hrest⟩
    · exact absurd (hcollection.symm.trans (Rewriting.opens hdashed.inner)) (by decide)
    · obtain ⟨n', after', hfound, hchanges, hexact⟩ :=
        found.rewritten reads (hc.pass h) (hahead.pass hrest) hthere hok
      exact ⟨n', after', .value hpresent hcollection hfound, hchanges, hexact⟩

theorem EntriesAt.rewritten {indent : Nat} {c after : Cursor} {list : List (Entry Node)} :
    EntriesAt indent c list after → r.Reads source ok value exact → c.Placed source →
      ∀ {c'}, r.Ahead c c' → (∃ e ∈ list.flatMap Entry.covered, e.position = r.place) →
        (∀ e ∈ list.flatMap Entry.covered, e.position = r.place → ok e.value) →
          ∃ list' after', EntriesAt indent c' list' after' ∧
            r.Changes value (list.flatMap Entry.covered) (list'.flatMap Entry.covered) ∧
            (exact → list' = entriesEdit r.place (r.entry value) list ∧ after' = after)
  | .stop _ => by simp
  | @EntriesAt.entry _ _ mid _ line rest split n list h hindent hkey first more => by
    intro reads hc c' hahead hthere hok
    have hpassed := (first.nests h hc).passes
    have hmid := (first.placed h hkey hc).2
    rw [List.flatMap_cons] at hthere hok ⊢
    simp only [Entry.covered, List.cons_append, List.mem_cons, List.mem_append] at hthere hok
    obtain ⟨e, he, hplace⟩ := hthere
    have hline : e.position.line = r.number := congrArg Position.line hplace
    by_cases hself : (⟨line.number, indent + 1⟩ : Position) = r.place
    · obtain ⟨list', after', hfound, hchanges, hexact⟩ := first.rewritten_here h hindent hkey rfl
        more reads hc hahead hself (hok _ (.inl rfl) hself)
      rw [List.flatMap_cons] at hchanges
      exact ⟨list', after', hfound, hchanges, hexact⟩
    · by_cases hinside : ∃ e ∈ n.allEntries, e.position = r.place
      · obtain ⟨inner, hinner, hinnerPlace⟩ := hinside
        have hwithin := first.entries_within h hc hinner
        rw [hinnerPlace] at hwithin
        obtain ⟨rest', hrest, hlines'⟩ := hahead.cases_passed h (Nat.le_refl _) hwithin.1
        obtain ⟨n', mid', hfound, hchanges, hexact⟩ := first.rewritten reads h hc hahead hrest
          ⟨inner, hinner, hinnerPlace⟩ fun e he => hok e (.inr (.inl he))
        by_cases h : exact
        · obtain ⟨hn', rfl⟩ := hexact h
          refine ⟨_, after, .entry hlines' hindent hkey hfound more, ?_, fun _ => ⟨?_, rfl⟩⟩
          · rw [List.flatMap_cons]
            exact hchanges.mono (fun _ he => List.mem_append_left _ (List.mem_cons_of_mem _ he))
              fun _ he => List.mem_append_left _ (List.mem_cons_of_mem _ he)
          · rw [entriesEdit, entryEdit_off hself, hn',
              entriesEdit_of_forall_ne fun _ => more.position_ne hmid hwithin.2]
        · refine ⟨_, _, .entry hlines' hindent hkey hfound (entries_at indent mid'), ?_,
            fun hex => absurd hex h⟩
          rw [List.flatMap_cons]
          exact hchanges.mono (fun _ he => List.mem_append_left _ (List.mem_cons_of_mem _ he))
            fun _ he => List.mem_append_left _ (List.mem_cons_of_mem _ he)
      · have he : e ∈ list.flatMap Entry.covered := by
          rcases he with rfl | he | he
          · exact absurd hplace hself
          · exact absurd ⟨e, he, hplace⟩ hinside
          · exact he
        have hbefore : mid.lastLine < r.number := hline ▸ (more.entries_within hmid he).1
        obtain ⟨rest', hrest, hlines'⟩ := hahead.cases_passed h hpassed hbefore
        obtain ⟨mid', hfound, hmid'⟩ := first.ahead h hc hahead hrest hbefore
        obtain ⟨list', after', hmore, hchanges, hexact⟩ :=
          more.rewritten reads hmid hmid' ⟨e, he, hplace⟩ fun e he => hok e (.inr (.inr he))
        refine ⟨_, after', .entry hlines' hindent hkey hfound hmore, ?_, fun h => ?_⟩
        · rw [List.flatMap_cons]
          exact hchanges.mono (fun _ => List.mem_append_right _) fun _ => List.mem_append_right _
        · have hsame : n.edit r.place (r.entry value) = n :=
            Node.edit_of_forall_ne fun e he hplace => hinside ⟨e, he, hplace⟩
          rw [entriesEdit, entryEdit_off hself, hsame, (hexact h).1, hmid'.lastLine]
          exact ⟨rfl, (hexact h).2⟩

/-- Below a key that stays the lines behind it may change. -/
theorem EntryAt.rewritten {c after : Cursor} {line : LogicalLine} {rest : List LogicalLine}
    {split : KeySplit} {n : Node} :
    EntryAt c line rest split n after → r.Reads source ok value exact → c.lines = line :: rest →
      c.Placed source → ∀ {c'}, r.Ahead c c' → ∀ {rest'}, Differ r.Line rest rest' →
      (∃ e ∈ n.allEntries, e.position = r.place) →
        (∀ e ∈ n.allEntries, e.position = r.place → ok e.value) →
          ∃ n' after', EntryAt c' line rest' split n' after' ∧
            r.Changes value n.allEntries n'.allEntries ∧
            (exact → n' = n.edit r.place (r.entry value) ∧ after' = after)
  | .deeper habsent hnext hdeeper found => by
    intro reads h hc c' hahead rest' hrest hthere hok
    obtain ⟨next', hhead', front⟩ := hrest.exists_front hnext
    obtain ⟨n', after', hfound, hchanges, hexact⟩ :=
      found.rewritten reads (hc.pass h) (hahead.pass hrest) hthere hok
    exact ⟨n', after', .deeper habsent hhead' (by rwa [front.indent]) hfound, hchanges, hexact⟩
  | .items habsent hnext hindent hitem found => by
    intro reads h hc c' hahead rest' hrest hthere hok
    obtain ⟨next', hhead', front⟩ := hrest.exists_front hnext
    rw [Node.allEntries_sequence] at hthere hok
    obtain ⟨list', after', hfound, hchanges, hexact⟩ :=
      found.rewritten reads (hc.pass h) (hahead.pass hrest) hthere hok
    refine ⟨_, after', .items habsent hhead' (front.indent.trans hindent)
      (front.isItem.trans hitem) hfound, ?_, fun h => ?_⟩
    · rwa [Node.allEntries_sequence, Node.allEntries_sequence]
    · rw [Node.edit, front.number, (hexact h).1]
      exact ⟨rfl, (hexact h).2⟩
  | .empty _ _ => by simp
  | .value hpresent found => by
    intro reads h hc c' hahead rest' hrest hthere hok
    obtain ⟨n', after', hfound, hchanges, hexact⟩ :=
      found.rewritten reads (hc.pass h) (hahead.pass hrest) hthere hok
    exact ⟨n', after', .value hpresent hfound, hchanges, hexact⟩

theorem ValueAt.rewritten {text : List Char} {line column parent : Nat} {c after : Cursor}
    {n : Node} :
    ValueAt text line column parent c n after → r.Reads source ok value exact → c.Placed source →
      ∀ {c'}, r.Ahead c c' → (∃ e ∈ n.allEntries, e.position = r.place) →
        (∀ e ∈ n.allEntries, e.position = r.place → ok e.value) →
          ∃ n' after', ValueAt text line column parent c' n' after' ∧
            r.Changes value n.allEntries n'.allEntries ∧
            (exact → n' = n.edit r.place (r.entry value) ∧ after' = after)
  | .deeper habsent hnext hdeeper found => by
    intro reads hc c' hahead hthere hok
    obtain ⟨next', hhead', front⟩ := hahead.lines.exists_front hnext
    obtain ⟨n', after', hfound, hchanges, hexact⟩ := found.rewritten reads hc hahead hthere hok
    exact ⟨n', after', .deeper habsent hhead' (by rwa [front.indent]) hfound, hchanges, hexact⟩
  | .empty _ _ => by simp
  | .scalar _ _ => by simp [scalarAt]

end

end Reading

end PlaybookStyle.Outline
