/-
Where the rules on blank lines report.

Both rules compare two neighbours in a list: whether both are includes, whether one
has more than one line, and whether blank lines are counted before the second. The
outline tells the first two, and the lines of the content between the neighbours
the third (`SourceLines.Apart`). As a line tells the list and the element that
begins on it, a finding at the place of an element is a finding about that element.

* `Linter.check_separation` — where the rules report.
-/

import PlaybookStyle.Proofs.Outline.Lists
import PlaybookStyle.Proofs.Playbook.Lists
import PlaybookStyle.Proofs.Rule.Findings
import PlaybookStyle.Proofs.Rule.Neighbours
import PlaybookStyle.Proofs.Source.Blanks

namespace PlaybookStyle

open Text Playbook
open Outline (Node Item InnerList)

namespace Playbook

/-! ### Rows of elements -/

/-- An element of a list of blocks or tasks: its item, and whether it is an include. -/
structure Element where
  item : Item Node
  isInclude : Bool

namespace Element

/-- A block without hosts is an include. -/
def ofBlock (block : Yaml.Value × Item Node) : Element :=
  ⟨block.2, (block.1.get? "hosts").isNone⟩

/-- An element of a task list that names an included file is an include. -/
def ofTask (item : Item Node) : Element := ⟨item, namesFile taskIncludes item⟩

/-- The element spans more than one line. -/
def isMultiline (e : Element) : Bool := e.item.position.line < e.item.endLine

/-- What the walk knows of an element. -/
structure Shows (source : SourceLines) (e : Element) (part : Part) : Prop where
  position : part.position = e.item.position
  endLine : part.endLine = e.item.endLine
  form : (e.isInclude = true ∧ ∃ i, part = .inclusion i ∧
      i.blankLinesBefore = source.blankLinesBefore e.item.position.line) ∨
    e.isInclude = false ∧ ((∃ p, part = .play p ∧
        p.blankLinesBefore = source.blankLinesBefore e.item.position.line) ∨
      ∃ t, part = .task t ∧ t.blankLinesBefore = source.blankLinesBefore e.item.position.line)

theorem Shows.isMultiline {source : SourceLines} {e : Element} {part : Part}
    (h : e.Shows source part) : decide (part.position.line < part.endLine) = e.isMultiline := by
  rw [h.position, h.endLine]
  rfl

end Element

/-- The elements of a list that the walk over the playbook in a content goes along:
the blocks, or a task list all of whose items are mappings. -/
inductive Row (content : String) : List Element → Prop
  | blocks {values : List Yaml.Value} {position : Position} {items : List (Item Node)}
      (read : Yaml.Value.read content = .ok (.sequence values))
      (root : (Outline.scan content.toList).root = .sequence position items) :
      Row content ((values.zip items).map Element.ofBlock)
  | tasks {items : List (Item Node)} (list : TaskListOf content items)
      (mappings : ∀ item ∈ items, item.value.entries?.isSome = true) :
      Row content (items.map Element.ofTask)

section Rows

variable {source : SourceLines} {item : Item Node}

theorem Element.shows_inclusion {keywords : List String} {i : Include} {e : Element}
    (hitem : e.item = item) (form : e.isInclude = true)
    (h : Include.ofItem? source keywords item = some i) : e.Shows source (.inclusion i) := by
  subst hitem
  simp only [Include.ofItem?, Option.bind_eq_bind, Option.bind_eq_some_iff, Option.pure_def] at h
  obtain ⟨entries, -, found, -, target, -, hi⟩ := h
  obtain rfl := Option.some.inj hi
  exact ⟨rfl, rfl, .inl ⟨form, _, rfl, rfl⟩⟩

theorem Element.shows_task {found : TaskItem} (h : taskItem? source item = some found) :
    (Element.ofTask item).Shows source found.part := by
  have hform : (Include.ofItem? source taskIncludes item).isSome = _ := isSome_ofItem? _ _
  rcases taskItem?_cases h with ⟨i, hinclude, rfl⟩ | ⟨entries, hinclude, -, rfl⟩
  · rw [hinclude] at hform
    exact shows_inclusion rfl hform.symm hinclude
  · rw [hinclude] at hform
    exact ⟨rfl, rfl, .inr ⟨hform.symm, .inr ⟨_, rfl, rfl⟩⟩⟩

theorem Element.shows_block {value : Yaml.Value} {block : Block}
    (h : Block.ofItem source value item = .ok block) :
    (Element.ofBlock (value, item)).Shows source block.part := by
  obtain ⟨-, ⟨hhosts, rfl⟩ | ⟨hhosts, i, hinclude, rfl⟩⟩ := Block.ofItem_cases h
  · exact ⟨rfl, rfl, .inr ⟨Option.isNone_eq_false_iff.mpr hhosts, .inl ⟨_, rfl, rfl⟩⟩⟩
  · exact shows_inclusion rfl (by simpa [ofBlock] using hhosts) hinclude

/-- In a task list all of whose items are mappings every item is visited. -/
theorem Element.shows_tasks {items : List (Item Node)}
    (mappings : ∀ item ∈ items, item.value.entries?.isSome = true) :
    List.Forall₂ (Element.Shows source) (items.map Element.ofTask)
      ((items.filterMap (taskItem? source)).map TaskItem.part) := by
  induction items with
  | nil => exact .nil
  | cons item rest ih =>
    obtain ⟨hitem, hrest⟩ := List.forall_mem_cons.mp mappings
    cases hfound : taskItem? source item with
    | none =>
      rw [taskItem?_eq] at hfound
      split at hfound
      · cases hfound
      · rw [Option.map_eq_none_iff.mp hfound] at hitem
        cases hitem
    | some found =>
      rw [List.filterMap_cons_some hfound]
      exact .cons (shows_task hfound) (ih hrest)

theorem Element.shows_blocks {values : List Yaml.Value} {items : List (Item Node)}
    {blocks : List Block} (h : blocksOf source values items = .ok blocks) :
    List.Forall₂ (Element.Shows source) ((values.zip items).map Element.ofBlock)
      (blocks.map Block.part) := by
  rw [List.forall₂_map_left_iff, List.forall₂_map_right_iff]
  exact (blocksOf_zip h).imp fun _ _ hmade => shows_block hmade

/-- What is visited in a task list stands at an item of it. -/
theorem exists_item_of_mem_taskRow {items : List (Item Node)} {visit : Visit}
    (h : visit ∈ taskRow source items) : ∃ item ∈ items, visit.part.position = item.position := by
  obtain ⟨found, hfound, hpart⟩ := List.mem_map.mp (part_mem_of_mem_row h)
  obtain ⟨item, hitem, htask⟩ := List.mem_filterMap.mp hfound
  rw [← hpart]
  exact ⟨item, hitem, (Element.shows_task htask).position⟩

theorem exists_item_of_mem_blockRow {values : List Yaml.Value} {items : List (Item Node)}
    {blocks : List Block} (h : blocksOf source values items = .ok blocks) {visit : Visit}
    (hvisit : visit ∈ row none (blocks.map Block.part)) :
    ∃ item ∈ items, visit.part.position = item.position := by
  obtain ⟨block, hblock, hpart⟩ := List.mem_map.mp (part_mem_of_mem_row hvisit)
  obtain ⟨pair, hpair, hmade⟩ := exists_of_mem_right (blocksOf_zip h) hblock
  rw [← hpart]
  exact ⟨pair.2, (List.of_mem_zip hpair).2, (Element.shows_block hmade).position⟩

end Rows

/-! ### The lists of a content -/

theorem TaskList.inner {n : Node} {items : List (Item Node)} (h : TaskList n items) :
    InnerList n items := by
  induction h with
  | here => exact .here
  | nested hitem file hentries answers opens inner ih =>
    refine .under hitem ?_ ih
    rw [hentries]
    exact mem_of_answer? answers

section Contents

variable {path content : String} {playbook : Playbook}

/-- A task list stands under an entry of a block. -/
theorem TaskListOf.exists_under {list : List (Item Node)} (h : TaskListOf content list) :
    ∃ position items, (Outline.scan content.toList).root = .sequence position items ∧
      ∃ item ∈ items, ∃ outer ∈ item.value.entries?.getD [], InnerList outer.value list := by
  obtain ⟨values, position, items, -, root, pair, hpair, -, outer, houter, -, -, hlist⟩ := h
  exact ⟨position, items, root, pair.2, (List.of_mem_zip hpair).2, outer, houter, hlist.inner⟩

theorem TaskListOf.inner {list : List (Item Node)} (h : TaskListOf content list) :
    InnerList (Outline.scan content.toList).root list := by
  obtain ⟨position, items, root, item, hitem, outer, houter, hinner⟩ := h.exists_under
  rw [root]
  exact .under hitem houter hinner

/-- No task begins on the line of a block. -/
theorem TaskListOf.line_ne {position : Position} {items list : List (Item Node)}
    (h : TaskListOf content list)
    (root : (Outline.scan content.toList).root = .sequence position items) :
    ∀ i ∈ items, ∀ j ∈ list, i.position.line ≠ j.position.line := by
  intro i hi j hj
  obtain ⟨position', items', root', item, hitem, outer, houter, hinner⟩ := h.exists_under
  cases root.symm.trans root'
  obtain ⟨⟨range, nested⟩, -⟩ := Outline.scan_nested content.toList
  have read := Outline.scan_read content.toList 0
  rw [root] at nested read
  cases nested with
  | sequence parts values =>
    have reads := read.sequence_values
    exact InnerList.line_ne_under parts hi hitem hinner houter (values _ hitem) (reads _ hitem) hj

/-- The parts that are visited for the elements of a row. What is visited with another
part before it on the line of an element is visited for an element of this row. -/
theorem Row.exists_parts {elements : List Element} (h : Row content elements)
    (parsed : Playbook.parse path content = .ok playbook) :
    InnerList (Outline.scan content.toList).root (elements.map Element.item) ∧
      ∃ parts, List.Forall₂ (Element.Shows (.ofText content.toList)) elements parts ∧
        (∀ visit ∈ neighbours (row none parts), visit ∈ neighbours playbook.visits) ∧
        ∀ visit ∈ neighbours playbook.visits,
          ∀ e ∈ elements, visit.part.position.line = e.item.position.line →
            visit ∈ row none parts := by
  obtain ⟨value, hread, build⟩ := exists_read_of_parse parsed
  have hvisits := mem_neighbours_visits parsed
  cases h with
  | @blocks values position items read root =>
    obtain rfl := Except.ok.inj (hread.symm.trans read)
    obtain ⟨hlength, hblocks, -⟩ := exists_blocksOf_of_build_sequence root build
    have hitems : ((values.zip items).map Element.ofBlock).map Element.item = items := by
      rw [List.map_map]
      exact List.map_snd_zip (Nat.le_of_eq hlength)
    rw [hitems]
    refine ⟨root ▸ .here, playbook.blocks.map Block.part, Element.shows_blocks hblocks,
      fun visit hvisit => (hvisits visit).mpr (.inl hvisit), fun visit hvisit e he same => ?_⟩
    rcases (hvisits visit).mp hvisit with hrow | ⟨list, hlist, hrow⟩
    · exact List.mem_of_mem_filter hrow
    · have hitem : e.item ∈ items := hitems ▸ List.mem_map_of_mem he
      obtain ⟨task, htask, hposition⟩ := exists_item_of_mem_taskRow (List.mem_of_mem_filter hrow)
      rw [hposition] at same
      exact absurd same.symm (hlist.line_ne root _ hitem _ htask)
  | @tasks items list mappings =>
    have hitems : (items.map Element.ofTask).map Element.item = items := by
      rw [List.map_map]
      exact List.map_id items
    rw [hitems]
    refine ⟨list.inner, _, Element.shows_tasks mappings,
      fun visit hvisit => (hvisits visit).mpr (.inr ⟨items, list, hvisit⟩),
      fun visit hvisit e he same => ?_⟩
    have hitem : e.item ∈ items := hitems ▸ List.mem_map_of_mem he
    rcases (hvisits visit).mp hvisit with hrow | ⟨other, hother, hrow⟩
    · obtain ⟨-, blocks, position, root, values, rfl, hblocks⟩ := exists_blocksOf_of_build build
      obtain ⟨block, hblock, hposition⟩ :=
        exists_item_of_mem_blockRow hblocks (List.mem_of_mem_filter hrow)
      rw [hposition] at same
      exact absurd same (list.line_ne root _ hblock _ hitem)
    · obtain ⟨⟨range, nested⟩, -⟩ := Outline.scan_nested content.toList
      obtain ⟨task, htask, hposition⟩ := exists_item_of_mem_taskRow (List.mem_of_mem_filter hrow)
      rw [hposition] at same
      obtain rfl := list.inner.eq_of_line hother.inner nested (Outline.scan_read content.toList 0)
        hitem htask same.symm
      exact List.mem_of_mem_filter hrow

end Contents

end Playbook

/-- The second of two neighbours begins behind the first, and blank lines are counted
before it if it stands apart. -/
theorem Outline.InnerList.apart {source : List Char} {holder last : Nat} {root : Node}
    {list : List (Item Node)} (inner : InnerList root list) (read : root.Read source holder last)
    {i : Nat} {item next : Item Node} (hitem : list[i]? = some item)
    (hnext : list[i + 1]? = some next) :
    item.endLine < next.position.line ∧
      (0 < (SourceLines.ofText source).blankLinesBefore next.position.line ↔
        (SourceLines.ofText source).Apart item.endLine next.position.line) := by
  obtain ⟨-, rfl⟩ := List.getElem?_eq_some_iff.mp hitem
  obtain ⟨hsucc, rfl⟩ := List.getElem?_eq_some_iff.mp hnext
  obtain ⟨carries, carriesNext, hlt, idle⟩ :=
    ((inner.next read).getElem i hsucc).idle
  exact ⟨hlt, SourceLines.blankLinesBefore_pos_iff carries carriesNext hlt idle⟩

/-! ### Remarks -/

namespace Rule

variable {rule : Rule} {conventions : Conventions} {source : SourceLines} {p n : Element}
  {previous part : Part}

/-- A rule on blank lines looks at every part that it speaks of, and at no role. -/
theorem IsSpacing.kinds (h : rule.IsSpacing) {visit : Visit} {remark : Remark}
    (hremark : remark ∈ rule.remarks conventions visit) :
    rule.kinds.contains visit.part.kind = true ∧ visit.part.kind ≠ .role := by
  obtain ⟨part, previous?⟩ := visit
  rcases h with rfl | rfl
  · obtain ⟨previous, -, hremark⟩ := Option.bind_eq_some_iff.mp (Option.mem_toList.mp hremark)
    cases part with
    | play p => exact ⟨rfl, nofun⟩
    | task t => exact ⟨rfl, nofun⟩
    | inclusion i => exact ⟨rfl, nofun⟩
    | _ => cases hremark
  · cases part with
    | inclusion i => exact ⟨rfl, nofun⟩
    | _ => cases hremark

/-- Two elements have to stand apart unless both are includes. -/
theorem separated?_of_shows (hp : p.Shows source previous) (hn : n.Shows source part) :
    (p.isInclude = true ∧ n.isInclude = true ∧ separated? part previous = none) ∨
      ¬(p.isInclude = true ∧ n.isInclude = true) ∧ ∃ what, separated? part previous =
        some (what, source.blankLinesBefore n.item.position.line, part.position) := by
  rcases hn.form with ⟨hni, i, rfl, hblank⟩ | ⟨hni, ⟨q, rfl, hblank⟩ | ⟨t, rfl, hblank⟩⟩
  · rcases hp.form with ⟨hpi, j, rfl, -⟩ | ⟨hpi, ⟨q, rfl, -⟩ | ⟨t, rfl, -⟩⟩
    · exact .inl ⟨hpi, hni, rfl⟩
    · exact .inr ⟨by simp [hpi], "include", by rw [← hblank]; rfl⟩
    · exact .inr ⟨by simp [hpi], "include", by rw [← hblank]; rfl⟩
  · refine .inr ⟨by simp [hni], "host block", ?_⟩
    rw [← hblank]
    rcases hp.form with ⟨-, j, rfl, -⟩ | ⟨-, ⟨q, rfl, -⟩ | ⟨t, rfl, -⟩⟩ <;> rfl
  · refine .inr ⟨by simp [hni], "task", ?_⟩
    rw [← hblank]
    rcases hp.form with ⟨-, j, rfl, -⟩ | ⟨-, ⟨q, rfl, -⟩ | ⟨t, rfl, -⟩⟩ <;> rfl

/-- Elements that have to stand apart are spoken of where no blank line is counted. -/
theorem exists_mem_blockSpacing_iff (hp : p.Shows source previous) (hn : n.Shows source part) :
    (∃ remark, remark ∈ blockSpacing.remarks conventions ⟨part, some previous⟩) ↔
      ¬(p.isInclude = true ∧ n.isInclude = true) ∧
        ¬0 < source.blankLinesBefore n.item.position.line := by
  simp only [blockSpacing, Option.bind_some, Option.mem_toList, blockRemark?]
  rcases separated?_of_shows hp hn with ⟨hpi, hni, hseparated⟩ | ⟨hform, what, hseparated⟩
  · simp [hseparated, hpi, hni]
  · rw [hseparated]
    cases source.blankLinesBefore n.item.position.line with
    | zero => simp [hform]
    | succ count => simp

/-- Of two includes the second is spoken of where blank lines are counted before it
and both have one line, or where none are and one has more lines. -/
theorem exists_mem_includeSpacing_iff (hp : p.Shows source previous) (hn : n.Shows source part) :
    (∃ remark, remark ∈ includeSpacing.remarks conventions ⟨part, some previous⟩) ↔
      (p.isInclude = true ∧ n.isInclude = true) ∧
        ¬((p.isMultiline || n.isMultiline) = true ↔
          0 < source.blankLinesBefore n.item.position.line) := by
  rcases hn.form with ⟨hni, i, rfl, hblank⟩ | ⟨hni, ⟨q, rfl, -⟩ | ⟨t, rfl, -⟩⟩
  · rcases hp.form with ⟨hpi, j, rfl, -⟩ | ⟨hpi, ⟨q, rfl, -⟩ | ⟨t, rfl, -⟩⟩
    · have hpm : j.isMultiline = p.isMultiline := hp.isMultiline
      have hnm : i.isMultiline = n.isMultiline := hn.isMultiline
      simp only [includeSpacing, Option.mem_toList, includeRemark?, hpm, hnm, hblank]
      by_cases hcount : 0 < source.blankLinesBefore n.item.position.line <;>
        cases p.isMultiline <;> cases n.isMultiline <;> simp [hpi, hni, hcount]
    · simp [includeSpacing, hpi]
    · simp [includeSpacing, hpi]
  · simp [includeSpacing, hni]
  · simp [includeSpacing, hni]

end Rule

/-! ### Reports -/

/-- The report has a finding of a rule at a place. -/
def Report.HasAt (report : Report) (rule : Rule) (position : Position) : Prop :=
  ∃ d ∈ report.diagnostics, d.rule = rule.id ∧ d.position = position

section Reports

variable {settings : Settings} {path content : String} {playbook : Playbook} {report : Report}
  {rule : Rule} {elements : List Element} {parts : List Part}

theorem exists_shown {source : SourceLines} (shows : List.Forall₂ (Element.Shows source) elements parts)
    {i : Nat} {e : Element} (he : elements[i]? = some e) :
    ∃ part, parts[i]? = some part ∧ e.Shows source part := by
  obtain ⟨hi, rfl⟩ := List.getElem?_eq_some_iff.mp he
  have hlength : i < parts.length := shows.length_eq ▸ hi
  exact ⟨_, List.getElem?_eq_getElem hlength, shows.get hi hlength⟩

/-- What a rule on blank lines reports at an element of a row it says of that element,
visited with the one before it. -/
theorem Report.hasAt_iff (spacing : rule.IsSpacing)
    (findings : ∀ d, d ∈ report.diagnostics ∧ d.rule = rule.id ↔
      ∃ visit ∈ playbook.visits, rule.kinds.contains visit.part.kind = true ∧
        ∃ remark ∈ rule.remarks settings.conventions visit, d = rule.finding settings path remark)
    (shows : List.Forall₂ (Element.Shows (.ofText content.toList)) elements parts)
    (ordered : (elements.map (·.item.position.line)).Pairwise (· < ·))
    (walked : ∀ visit ∈ neighbours (row none parts), visit ∈ neighbours playbook.visits)
    (only : ∀ visit ∈ neighbours playbook.visits,
      ∀ e ∈ elements, visit.part.position.line = e.item.position.line → visit ∈ row none parts)
    {i : Nat} {e : Element} (he : elements[i]? = some e) :
    report.HasAt rule e.item.position ↔ ∃ visit : Visit, parts[i]? = some visit.part ∧
      visit.previous? = (if i = 0 then none else parts[i - 1]?) ∧
        ∃ remark, remark ∈ rule.remarks settings.conventions visit := by
  have hshows : ∀ {j : Nat} {part : Part}, parts[j]? = some part →
      ∃ other, elements[j]? = some other ∧ other.Shows (.ofText content.toList) part := by
    intro j part hpart
    obtain ⟨hj, rfl⟩ := List.getElem?_eq_some_iff.mp hpart
    have hlength : j < elements.length := shows.length_eq ▸ hj
    exact ⟨_, List.getElem?_eq_getElem hlength, shows.get hlength hj⟩
  have hneighbour : ∀ {visit : Visit} {remark : Remark},
      remark ∈ rule.remarks settings.conventions visit → visit.isNeighbour = true := by
    intro visit remark hremark
    rw [Visit.isNeighbour, Bool.and_eq_true, bne_iff_ne]
    exact ⟨Option.isSome_iff_ne_none.mpr (spacing.remark hremark).2, (spacing.kinds hremark).2⟩
  constructor
  · rintro ⟨d, hd, hrule, hposition⟩
    obtain ⟨visit, hvisit, -, remark, hremark, rfl⟩ := (findings d).mp ⟨hd, hrule⟩
    have hplace : visit.part.position = e.item.position :=
      (spacing.remark hremark).1.symm.trans hposition
    have hrow := only visit (List.mem_filter.mpr ⟨hvisit, hneighbour hremark⟩) e
      (List.mem_of_getElem? he) (congrArg Position.line hplace)
    obtain ⟨j, hpart, hprevious⟩ := mem_row_iff.mp hrow
    obtain ⟨other, hother, hshown⟩ := hshows hpart
    -- The lines of the elements increase, so it is the same element.
    have hsame : (elements.map (·.item.position.line))[j]? =
        (elements.map (·.item.position.line))[i]? := by
      rw [List.getElem?_map, List.getElem?_map, hother, he, Option.map_some, Option.map_some,
        ← hshown.position, hplace]
    have hj : j < (elements.map (·.item.position.line)).length := by
      rw [List.length_map]
      exact (List.getElem?_eq_some_iff.mp hother).1
    obtain rfl := (List.getElem?_inj hj (ordered.imp Nat.ne_of_lt)).mp hsame
    exact ⟨visit, hpart, hprevious, remark, hremark⟩
  · rintro ⟨visit, hpart, hprevious, remark, hremark⟩
    have hvisit : visit ∈ neighbours (row none parts) :=
      List.mem_filter.mpr ⟨mem_row_iff.mpr ⟨i, hpart, hprevious⟩, hneighbour hremark⟩
    obtain ⟨hd, hrule⟩ := (findings _).mpr ⟨visit, List.mem_of_mem_filter (walked visit hvisit),
      (spacing.kinds hremark).1, remark, hremark, rfl⟩
    refine ⟨_, hd, hrule, ?_⟩
    obtain ⟨other, hother, hshown⟩ := hshows hpart
    obtain rfl := Option.some.inj (hother.symm.trans he)
    exact (spacing.remark hremark).1.trans hshown.position

/-- Behind another part, that part is the one a rule sees before. -/
theorem exists_visit_next_iff {previous part : Part} {i : Nat} (hprevious : parts[i]? = some previous)
    (hpart : parts[i + 1]? = some part) :
    (∃ visit : Visit, parts[i + 1]? = some visit.part ∧
        visit.previous? = (if i + 1 = 0 then none else parts[i + 1 - 1]?) ∧
          ∃ remark, remark ∈ rule.remarks settings.conventions visit) ↔
      ∃ remark, remark ∈ rule.remarks settings.conventions ⟨part, some previous⟩ := by
  rw [if_neg (Nat.succ_ne_zero i), Nat.add_sub_cancel, hpart, hprevious]
  constructor
  · rintro ⟨⟨found, previous?⟩, hfound, hbefore, hremark⟩
    obtain rfl := Option.some.inj hfound
    exact hbefore ▸ hremark
  · intro hremark
    exact ⟨⟨part, some previous⟩, rfl, rfl, hremark⟩

end Reports

namespace Linter

/-- **Where the rules on blank lines report.** In every list of an accepted content, at
the second of two neighbours: the rule on blocks unless both are includes or a blank
line stands between the last line of the first and the line on which the second
begins; the rule on includes if both are includes and stand apart when neither has
more than one line, or do not when one has. Neither rule reports the first of a list.
Here two lines stand apart if a blank line is between them with no document marker
behind it, so any blank line will do where no line between is a marker. -/
theorem check_separation {settings : Settings} {linter : Linter} {path content : String}
    {playbook : Playbook} (accepted : ofSettings settings = .ok linter)
    (parsed : Playbook.parse path content = .ok playbook)
    (blocks : settings.Shows Rule.blockSpacing) (includes : settings.Shows Rule.includeSpacing) :
    ∃ report, linter.check path content = .ok report ∧ ∀ elements, Row content elements →
      (∀ e, elements[0]? = some e → ¬report.HasAt Rule.blockSpacing e.item.position ∧
        ¬report.HasAt Rule.includeSpacing e.item.position) ∧
      ∀ (i : Nat) (p n : Element), elements[i]? = some p → elements[i + 1]? = some n →
        let source := SourceLines.ofText content.toList
        let apart := source.Apart p.item.endLine n.item.position.line
        (report.HasAt Rule.blockSpacing n.item.position ↔
          ¬(p.isInclude = true ∧ n.isInclude = true) ∧ ¬apart) ∧
        (report.HasAt Rule.includeSpacing n.item.position ↔
          (p.isInclude = true ∧ n.isInclude = true) ∧
            ¬((p.isMultiline || n.isMultiline) = true ↔ apart)) ∧
        p.item.endLine < n.item.position.line ∧
        ((∀ j, p.item.endLine < j → j < n.item.position.line → ¬source.IsMarkerAt j) →
          (apart ↔ ∃ k, p.item.endLine < k ∧ k < n.item.position.line ∧ source.IsBlankAt k)) := by
  obtain ⟨report, checked, findings⟩ := exists_check accepted parsed
  refine ⟨report, checked, fun elements hrow => ?_⟩
  obtain ⟨inner, parts, shows, walked, only⟩ := hrow.exists_parts parsed
  obtain ⟨⟨range, nested⟩, -⟩ := Outline.scan_nested content.toList
  have ordered : (elements.map (·.item.position.line)).Pairwise (· < ·) := by
    have hlines := inner.lines_pairwise nested
    rwa [List.map_map] at hlines
  have hasAt : ∀ {rule : Rule}, rule.IsSpacing → rule ∈ Rule.builtin → settings.Shows rule →
      ∀ {i : Nat} {e : Element}, elements[i]? = some e → (report.HasAt rule e.item.position ↔
        ∃ visit : Visit, parts[i]? = some visit.part ∧
          visit.previous? = (if i = 0 then none else parts[i - 1]?) ∧
            ∃ remark, remark ∈ rule.remarks settings.conventions visit) :=
    fun spacing builtin shown =>
      Report.hasAt_iff spacing (findings _ builtin shown) shows ordered walked only
  have hblock := @hasAt Rule.blockSpacing (.inl rfl) (by simp [Rule.builtin]) blocks
  have hinclude := @hasAt Rule.includeSpacing (.inr rfl) (by simp [Rule.builtin]) includes
  constructor
  · intro e he
    rw [hblock he, hinclude he]
    constructor
    · rintro ⟨visit, -, hprevious, remark, hremark⟩
      exact (Rule.IsSpacing.remark (.inl rfl) hremark).2 hprevious
    · rintro ⟨visit, -, hprevious, remark, hremark⟩
      exact (Rule.IsSpacing.remark (.inr rfl) hremark).2 hprevious
  · intro i p n hp hn source apart
    have hitem : (elements.map Element.item)[i]? = some p.item := by
      rw [List.getElem?_map, hp]
      rfl
    have hnext : (elements.map Element.item)[i + 1]? = some n.item := by
      rw [List.getElem?_map, hn]
      rfl
    obtain ⟨hlt, hcount⟩ := inner.apart (Outline.scan_read content.toList 0) hitem hnext
    obtain ⟨previous, hprevious, hshowsP⟩ := exists_shown shows hp
    obtain ⟨part, hpart, hshowsN⟩ := exists_shown shows hn
    refine ⟨?_, ?_, hlt, SourceLines.apart_iff⟩
    · rw [hblock hn, exists_visit_next_iff hprevious hpart,
        Rule.exists_mem_blockSpacing_iff hshowsP hshowsN, hcount]
    · rw [hinclude hn, exists_visit_next_iff hprevious hpart,
        Rule.exists_mem_includeSpacing_iff hshowsP hshowsN, hcount]

/-- Of three plays the second begins right behind the first, and is reported; before the
third there is a blank line. -/
theorem check_separation_plays :
    let content := "- hosts: a\n- hosts: b\n\n- hosts: c\n"
    ∃ (linter : Linter) (playbook : Playbook) (report : Report) (elements : List Element),
      ofSettings {} = .ok linter ∧ Playbook.parse "site.yml" content = .ok playbook ∧
      linter.check "site.yml" content = .ok report ∧
      report.diagnostics.map (fun d => (d.rule, d.position)) = [("block-spacing", ⟨2, 1⟩)] ∧
      Row content elements ∧
      elements.map (fun e => (e.item.position, e.item.endLine)) =
        [(⟨1, 1⟩, 1), (⟨2, 1⟩, 2), (⟨4, 1⟩, 4)] ∧
      report.HasAt Rule.blockSpacing ⟨2, 1⟩ ∧ ¬report.HasAt Rule.blockSpacing ⟨4, 1⟩ ∧
      ¬(SourceLines.ofText content.toList).Apart 1 2 := by
  intro content
  let linter : Linter := ⟨{}, .builtin, by decide⟩
  have accepted : ofSettings {} = .ok linter := rfl
  have isParsed : (Playbook.parse "site.yml" content).toOption.isSome = true := by decide +kernel
  cases parsed : Playbook.parse "site.yml" content with
  | error problem =>
    rw [parsed] at isParsed
    cases isParsed
  | ok playbook =>
    obtain ⟨value, read, build⟩ := exists_read_of_parse parsed
    obtain ⟨-, items, position, root, values, rfl, -⟩ := exists_blocksOf_of_build build
    obtain ⟨hlength, -⟩ := exists_blocksOf_of_build_sequence root build
    have outlined : (Outline.scan content.toList).root.items.map
        (fun item => (item.position, item.endLine)) =
          [(⟨1, 1⟩, 1), (⟨2, 1⟩, 2), (⟨4, 1⟩, 4)] := by
      decide +kernel
    rw [root] at outlined
    have places : ((values.zip items).map Element.ofBlock).map
        (fun e => (e.item.position, e.item.endLine)) =
          [(⟨1, 1⟩, 1), (⟨2, 1⟩, 2), (⟨4, 1⟩, 4)] := by
      rw [← outlined, List.map_map]
      conv_rhs => rw [Outline.Node.items, ← List.map_snd_zip (Nat.le_of_eq hlength), List.map_map]
      rfl
    obtain ⟨report, checked, reported⟩ :=
      check_separation accepted parsed ⟨by decide, by decide⟩ ⟨by decide, by decide⟩
    obtain ⟨-, neighbours⟩ := reported _ (.blocks read root)
    have evaluated : (linter.check "site.yml" content).toOption.map
        (·.diagnostics.map fun d => (d.rule, d.position)) = some [("block-spacing", ⟨2, 1⟩)] := by
      decide +kernel
    rw [checked] at evaluated
    have found : report.diagnostics.map (fun d => (d.rule, d.position)) =
        [("block-spacing", ⟨2, 1⟩)] := Option.some.inj evaluated
    have hasAt : ∀ position, report.HasAt Rule.blockSpacing position ↔ position = ⟨2, 1⟩ := by
      intro position
      have hmem : report.HasAt Rule.blockSpacing position ↔
          ("block-spacing", position) ∈ report.diagnostics.map fun d => (d.rule, d.position) := by
        simp [Report.HasAt, Rule.blockSpacing]
      rw [hmem, found]
      simp
    refine ⟨linter, playbook, report, _, accepted, rfl, checked, found, .blocks read root, places,
      (hasAt _).mpr rfl, fun h => absurd ((hasAt _).mp h) (by decide), ?_⟩
    generalize (values.zip items).map Element.ofBlock = elements at places neighbours
    obtain ⟨p, hp, hplace⟩ := Option.map_eq_some_iff.mp
      ((List.getElem?_map ..).symm.trans (congrArg (·[0]?) places))
    obtain ⟨n, hn, hnext⟩ := Option.map_eq_some_iff.mp
      ((List.getElem?_map ..).symm.trans (congrArg (·[1]?) places))
    obtain ⟨hend, hbegin⟩ := And.intro (congrArg Prod.snd hplace) (congrArg Prod.fst hnext)
    dsimp only at hend hbegin
    have hblock := (neighbours 0 p n hp hn).1
    rw [hend, hbegin] at hblock
    exact (hblock.mp ((hasAt _).mpr rfl)).2

end Linter

end PlaybookStyle
