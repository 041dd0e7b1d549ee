/-
The tasks of a playbook, and their places in the outline.

A task is made from an item of a list in the outline, its fields and the parameters
of its module from entries there, so each keeps the place of a key (`places_task`).
A line tells the entry whose key stands on it; so no two tasks share such a place,
and no task has one twice (`eq_of_place`, `places_nodup`). The same goes for plays
and their fields.

A task on the walk is one of the playbook (`Visits.mem_tasks`); where no key comes
twice, all tasks are on the walk (`visits_of_distinct`).
-/

import PlaybookStyle.Proofs.Outline.Owners
import PlaybookStyle.Proofs.Playbook.Lists

namespace PlaybookStyle

open Playbook
open Outline (Node Item InnerList)

/-- The walk comes to a task. -/
def Playbook.Visits (p : Playbook) (t : Task) : Prop := ∃ visit ∈ p.visits, visit.part = .task t

namespace Playbook

/-! ### Tasks on the walk -/

theorem mem_within_nested {item inner : TaskItem} {t : Task} {list : Nested}
    (ht : .task t ∈ item.within) (hlist : list ∈ t.nested) (hinner : inner ∈ list.items) :
    inner ∈ item.within := by
  induction item using TaskItem.induction with
  | inclusion i => simp [TaskItem.within] at ht
  | task outer ih =>
    have hself : inner ∈ inner.within := by cases inner <;> simp [TaskItem.within]
    rw [TaskItem.within, List.mem_cons, withinTask_eq_flatMap] at ht ⊢
    right
    rcases ht with heq | hinside
    · obtain rfl := TaskItem.task.inj heq
      exact List.mem_flatMap.mpr ⟨list, hlist, mem_withinItems.mpr ⟨inner, hinner, hself⟩⟩
    · obtain ⟨between, hbetween, hinside⟩ := List.mem_flatMap.mp hinside
      obtain ⟨item, hitem, hwithin⟩ := mem_withinItems.mp hinside
      refine List.mem_flatMap.mpr ⟨between, hbetween, mem_withinItems.mpr ⟨item, hitem, ?_⟩⟩
      exact ih between hbetween item hitem hwithin

/-- In the rows of a section stand its elements, or roles. -/
theorem allRows_parts (s : SectionItems) :
    s.AllRows fun visit =>
      (∃ item ∈ s.items, visit.part = item.part) ∨ ∃ role, visit.part = .role role := by
  have hrow : ∀ {items : List TaskItem} {visit : Visit},
      visit ∈ row none (items.map TaskItem.part) → ∃ item ∈ items, visit.part = item.part := by
    intro items visit hvisit
    obtain ⟨item, hitem, hpart⟩ := List.mem_map.mp (part_mem_of_mem_row hvisit)
    exact ⟨item, hitem, hpart.symm⟩
  cases s with
  | roles list =>
    intro visit hvisit
    obtain ⟨role, -, hrole⟩ := List.mem_map.mp (part_mem_of_mem_row hvisit)
    exact .inr ⟨role, hrole.symm⟩
  | tasks list =>
    constructor
    · intro visit hvisit
      obtain ⟨item, hitem, hpart⟩ := hrow hvisit
      have hself : item ∈ item.within := by cases item <;> simp [TaskItem.within]
      exact .inl ⟨item, mem_withinItems.mpr ⟨item, hitem, hself⟩, hpart⟩
    · intro item hitem outer houter visit hvisit
      obtain ⟨nested, hnested, hvisit⟩ := List.mem_flatMap.mp hvisit
      obtain ⟨inner, hinner, hpart⟩ := hrow hvisit
      have hwithin := mem_within_nested houter hnested hinner
      exact .inl ⟨inner, mem_withinItems.mpr ⟨item, hitem, hwithin⟩, hpart⟩

/-- On the walk stand the blocks of a playbook, the elements of its task lists, roles
and lone parts, behind the playbook itself. -/
theorem part_of_mem_visits {p : Playbook} {visit : Visit} (hvisit : visit ∈ p.visits) :
    visit.part = .document p ∨ (∃ block ∈ p.blocks, visit.part = block.part) ∨
      (∃ item ∈ p.items, visit.part = item.part) ∨ (∃ role, visit.part = .role role) ∨
        visit.part.isLone = true := by
  have hall : ∀ visit ∈ visitsOfBlocks none p.blocks,
      (∃ block ∈ p.blocks, visit.part = block.part) ∨ (∃ item ∈ p.items, visit.part = item.part) ∨
        (∃ role, visit.part = .role role) ∨ visit.part.isLone = true := by
    refine visitsOfBlocks_forall ?_ fun block hblock => block.visits_forall ?_ ?_ ?_
    · intro visit hvisit
      obtain ⟨block, hblock, hpart⟩ := List.mem_map.mp (part_mem_of_mem_row hvisit)
      exact .inl ⟨block, hblock, hpart.symm⟩
    · exact fun part hplain => .inr (.inr (.inr (Part.isLone_of_isPlain hplain)))
    · intro play hplay s hs
      have hsection : s.items ∈ p.sections := by
        refine List.mem_flatMap.mpr ⟨play, ?_, List.mem_map_of_mem hs⟩
        exact List.mem_filterMap.mpr ⟨block, hblock, hplay⟩
      refine (allRows_parts s.items).imp fun visit h => ?_
      rcases h with ⟨item, hitem, hpart⟩ | hrole
      · exact .inr (.inl ⟨item, List.mem_flatMap.mpr ⟨s.items, hsection, hitem⟩, hpart⟩)
      · exact .inr (.inr (.inl hrole))
    · exact fun _ _ _ _ _ _ _ _ => .inr (.inr (.inr rfl))
  rw [visits, List.mem_cons] at hvisit
  rcases hvisit with rfl | hvisit
  · exact .inl rfl
  · exact .inr (hall visit hvisit)

/-- A task on the walk is one of the playbook. -/
theorem Visits.mem_tasks {p : Playbook} {t : Task} (h : p.Visits t) : t ∈ p.tasks := by
  obtain ⟨visit, hvisit, htask⟩ := h
  have hpart := part_of_mem_visits hvisit
  rw [htask] at hpart
  rcases hpart with hdocument | ⟨block, -, hblock⟩ | ⟨item, hitem, hpart⟩ | ⟨role, hrole⟩ | hlone
  · cases hdocument
  · cases block <;> cases hblock
  · refine List.mem_filterMap.mpr ⟨item, hitem, ?_⟩
    cases item with
    | task other => exact congrArg some (Part.task.inj hpart).symm
    | inclusion i => cases hpart
  · cases hrole
  · cases hlone

/-- A module on the walk is called by a task of the playbook. -/
theorem exists_task_of_call {p : Playbook} {visit : Visit} (hvisit : visit ∈ p.visits)
    {call : ModuleCall} (hpart : visit.part = .module call) :
    ∃ t ∈ p.tasks, t.module? = some call := by
  have hall : ∀ visit ∈ visitsOfBlocks none p.blocks, ∀ call, visit.part = .module call →
      ∃ t ∈ p.tasks, t.module? = some call := by
    refine visitsOfBlocks_forall ?_ fun block hblock => block.visits_forall ?_ ?_ ?_
    · intro visit hvisit call hcall
      obtain ⟨block, -, hblock⟩ := List.mem_map.mp (part_mem_of_mem_row hvisit)
      rw [hcall] at hblock
      cases block <;> cases hblock
    · rintro part hplain call rfl
      cases hplain
    · refine fun play _ s _ => (allRows_parts s.items).imp fun visit h call hcall => ?_
      rw [hcall] at h
      rcases h with ⟨item, -, hitem⟩ | ⟨role, hrole⟩
      · cases item <;> cases hitem
      · cases hrole
    · rintro play hplay s hs t ht made hmade call hcall
      obtain rfl := Part.module.inj hcall
      have hsection : s.items ∈ p.sections := List.mem_flatMap.mpr
        ⟨play, List.mem_filterMap.mpr ⟨block, hblock, hplay⟩, List.mem_map_of_mem hs⟩
      refine ⟨t, List.mem_filterMap.mpr ⟨.task t, ?_, rfl⟩, Option.mem_def.mp hmade⟩
      exact List.mem_flatMap.mpr ⟨s.items, hsection, ht⟩
  rw [visits, List.mem_cons] at hvisit
  rcases hvisit with rfl | hvisit
  · cases hpart
  · exact hall visit hvisit call hpart

/-- The plays on the walk are those of the playbook. -/
theorem mem_plays_iff {p : Playbook} {play : Play} :
    play ∈ p.plays ↔ ∃ visit ∈ p.visits, visit.part = .play play := by
  constructor
  · intro hplay
    obtain ⟨block, hblock, hplay⟩ := List.mem_filterMap.mp hplay
    cases block with
    | inclusion i => cases hplay
    | play q =>
      obtain rfl := Option.some.inj hplay
      obtain ⟨i, hi⟩ := List.mem_iff_getElem?.mp (List.mem_map_of_mem (f := Block.part) hblock)
      have hrow : ⟨Part.play q, if i = 0 then none else (p.blocks.map Block.part)[i - 1]?⟩ ∈
          row none (p.blocks.map Block.part) := mem_row_iff.mpr ⟨i, hi, rfl⟩
      exact ⟨_, List.mem_cons_of_mem _ (mem_visitsOfBlocks.mpr (.inl hrow)), rfl⟩
  · rintro ⟨visit, hvisit, hplay⟩
    have hpart := part_of_mem_visits hvisit
    rw [hplay] at hpart
    rcases hpart with hdocument | ⟨block, hblock, hpart⟩ | ⟨item, -, hpart⟩ | ⟨role, hrole⟩ | hlone
    · cases hdocument
    · refine List.mem_filterMap.mpr ⟨block, hblock, ?_⟩
      cases block with
      | play q => exact congrArg some (Part.play.inj hpart).symm
      | inclusion i => cases hpart
    · cases item <;> cases hpart
    · cases hrole
    · cases hlone

/-- Where no key comes twice, the walk comes to every task. -/
theorem visits_of_distinct {path : String} {text : List Char} {value : Yaml.Value} {p : Playbook}
    (build : Playbook.build path text value = .ok p) (distinct : p.DistinctKeys) {t : Task}
    (ht : t ∈ p.tasks) : p.Visits t := by
  obtain ⟨item, hitem, htask⟩ := List.mem_filterMap.mp ht
  obtain rfl := TaskItem.eq_task_of_task? htask
  have hperm : (p.visits.map Visit.part).Perm p.parts := by
    rw [visits_eq_survey build distinct]
    exact p.survey_perm_parts
  have hpart : Part.task t ∈ p.parts := by
    have hmem : Part.task t ∈ p.items.map TaskItem.part := List.mem_map_of_mem hitem
    simp [parts, hmem]
  obtain ⟨visit, hvisit, hvisitPart⟩ := List.mem_map.mp (hperm.mem_iff.mpr hpart)
  exact ⟨visit, hvisit, hvisitPart⟩

/-! ### Tasks and the items they are made from -/

section Items

variable {source : SourceLines}

/-- What is in the task list of a node, at any depth, is made from an item of a list in the
node. -/
theorem exists_item_of_within {n : Node} {item inner : TaskItem} (hitem : item ∈ taskItems source n)
    (hinner : inner ∈ item.within) :
    ∃ list, InnerList n list ∧ ∃ made ∈ list, taskItem? source made = some inner := by
  suffices h : (∀ item ∈ taskItems source n, inner ∈ item.within →
        ∃ list, InnerList n list ∧ ∃ made ∈ list, taskItem? source made = some inner) ∧
      ∀ entries, n.entries? = some entries → ∀ outer ∈ entries,
        ∀ item ∈ taskItems source outer.value, inner ∈ item.within →
          ∃ list, InnerList outer.value list ∧
            ∃ made ∈ list, taskItem? source made = some inner from h.1 item hitem hinner
  clear hitem hinner
  induction n using Outline.Node.allEntries.induct with
  | case1 position entries ih =>
    refine ⟨by simp [taskItems], ?_⟩
    rintro _ ⟨⟩ outer houter
    exact (ih outer houter).1
  | case2 position items ih =>
    refine ⟨?_, by simp [Outline.Node.entries?]⟩
    intro item hitem hinner
    obtain ⟨made, hmade, hfound⟩ := exists_made_of_mem_taskItems hitem
    cases item with
    | inclusion i =>
      rw [TaskItem.within, List.mem_singleton] at hinner
      exact ⟨items, .here, made, hmade, hinner ▸ hfound⟩
    | task outer =>
      rw [TaskItem.within, List.mem_cons, withinTask_eq_flatMap] at hinner
      rcases hinner with heq | hinside
      · exact ⟨items, .here, made, hmade, heq ▸ hfound⟩
      · -- It stands in a list under an entry of the item.
        obtain ⟨nested, hnested, hinside⟩ := List.mem_flatMap.mp hinside
        obtain ⟨next, hnext, hwithin⟩ := mem_withinItems.mp hinside
        obtain ⟨entries, -, hentries, rfl⟩ := exists_entries_of_task hfound
        obtain ⟨entry, hentry, -, rfl⟩ := exists_entry_of_mem_nested hnested
        obtain ⟨list, hlist, found⟩ :=
          (ih made hmade).2 entries hentries entry hentry next hnext hwithin
        exact ⟨list, .under hmade (hentries ▸ hentry) hlist, found⟩
  | case3 s => exact ⟨by simp [taskItems], by simp [Outline.Node.entries?]⟩
  | case4 => exact ⟨by simp [taskItems], by simp [Outline.Node.entries?]⟩

variable {path content : String} {playbook : Playbook}

/-- A play of a playbook is made from an item of the outline. -/
theorem exists_item_of_mem_plays (parsed : Playbook.parse path content = .ok playbook) {p : Play}
    (hp : p ∈ playbook.plays) :
    ∃ position items, (Outline.scan content.toList).root = .sequence position items ∧
      ∃ item ∈ items, p = .ofItem (.ofText content.toList) item := by
  obtain ⟨value, -, build⟩ := exists_read_of_parse parsed
  obtain ⟨-, items, position, hroot, values, rfl, hblocks⟩ := exists_blocksOf_of_build build
  obtain ⟨block, hblock, hplay⟩ := List.mem_filterMap.mp hp
  cases block with
  | inclusion i => cases hplay
  | play p =>
    obtain rfl := Option.some.inj hplay
    exact ⟨position, items, hroot, play_of_mem_blocksOf hblocks hblock⟩

/-- A section of a playbook is opened by a key of an item of the outline. -/
theorem exists_key_of_mem_sections (parsed : Playbook.parse path content = .ok playbook)
    {s : SectionItems} (hs : s ∈ playbook.sections) :
    ∃ position items, (Outline.scan content.toList).root = .sequence position items ∧
      ∃ item ∈ items, ∃ raw ∈ item.value.entries?.getD [], opensSection raw.key = true ∧
        s = if PlayFieldKind.ofKey raw.key = .roles
          then .roles (rolesOf (.ofText content.toList) raw.value)
          else .tasks (taskItems (.ofText content.toList) raw.value) := by
  obtain ⟨play, hplay, hs⟩ := List.mem_flatMap.mp hs
  obtain ⟨found, hfound, rfl⟩ := List.mem_map.mp hs
  obtain ⟨position, items, hroot, item, hitem, rfl⟩ := exists_item_of_mem_plays parsed hplay
  obtain ⟨raw, hraw, hsection⟩ := List.mem_filterMap.mp hfound
  obtain ⟨opens, rfl⟩ := opens_of_playSection? hsection
  exact ⟨position, items, hroot, item, hitem, raw, hraw, opens, rfl⟩

/-- A task or include in the sections of a playbook is made from an item of a list in the
outline. -/
theorem exists_item_of_mem_items (parsed : Playbook.parse path content = .ok playbook)
    {item : TaskItem} (hitem : item ∈ playbook.items) :
    ∃ list, InnerList (Outline.scan content.toList).root list ∧
      ∃ made ∈ list, taskItem? (.ofText content.toList) made = some item := by
  obtain ⟨s, hs, hwithin⟩ := List.mem_flatMap.mp hitem
  obtain ⟨position, items, hroot, top, htop, raw, hraw, -, rfl⟩ :=
    exists_key_of_mem_sections parsed hs
  split at hwithin
  · cases hwithin
  · obtain ⟨outer, houter, hinside⟩ := mem_withinItems.mp hwithin
    obtain ⟨list, inner, hmade⟩ := exists_item_of_within houter hinside
    rw [hroot]
    exact ⟨list, .under htop hraw inner, hmade⟩

/-- A task of a playbook is made from an item of a list in the outline. -/
theorem exists_item_of_mem_tasks (parsed : Playbook.parse path content = .ok playbook) {t : Task}
    (ht : t ∈ playbook.tasks) :
    ∃ list, InnerList (Outline.scan content.toList).root list ∧
      ∃ item ∈ list, taskItem? (.ofText content.toList) item = some (.task t) := by
  obtain ⟨item, hitem, htask⟩ := List.mem_filterMap.mp ht
  obtain rfl := TaskItem.eq_task_of_task? htask
  exact exists_item_of_mem_items parsed hitem

end Items

/-! ### Places of fields and parameters -/

/-- The parameters of a task's module, if they are a mapping. -/
def TaskOf.params {α : Type} (t : TaskOf α) : List Entry :=
  (t.module?.bind ModuleCall.params?).getD []

/-- The places of the fields of a task and of the parameters of its module. -/
def TaskOf.places {α : Type} (t : TaskOf α) : List Position :=
  t.fields.map Field.position ++ t.params.map EntryOf.position

theorem params?_ofEntry (entry : Outline.Entry Node) :
    (((ModuleCall.ofEntry entry).params?).getD []).map EntryOf.position =
      (entry.value.entries?.getD []).map Outline.Entry.position := by
  obtain ⟨key, position, spacing, value, endLine⟩ := entry
  cases value with
  | mapping place entries =>
    simp [ModuleCall.params?, ModuleCall.ofEntry, Value.ofNode, Value.mapping?,
      Outline.Node.entries?, entriesOf_eq_map, entryOf_eq]
  | sequence => simp [ModuleCall.params?, ModuleCall.ofEntry, Value.ofNode, Value.mapping?,
      Outline.Node.entries?]
  | scalar => simp [ModuleCall.params?, ModuleCall.ofEntry, Value.mapping?, Outline.Node.entries?]
  | empty => simp [ModuleCall.params?, ModuleCall.ofEntry, Value.ofNode, Value.mapping?,
      Outline.Node.entries?]

theorem map_position_taskParts (source : SourceLines) (found : Bool)
    (entries : List (Outline.Entry Node)) :
    (taskParts source found entries).map (·.1.position) =
      entries.map Outline.Entry.position := by
  induction entries generalizing found with
  | nil => rw [taskParts, List.map_nil, List.map_nil]
  | cons entry rest ih =>
    rw [taskParts, List.map_cons, ih, (taskPart_eq found entry).2.1, List.map_cons]

section Places

variable {source : SourceLines} {item : Item Node} {t : Task}

/-- The places of a task are those of the entries of its item, and of the entries
under the one that calls the module. -/
theorem places_task (h : taskItem? source item = some (.task t)) :
    t.fields.map Field.position =
        (item.value.entries?.getD []).map Outline.Entry.position ∧
      ((∃ entry ∈ item.value.entries?.getD [], t.module? = some (.ofEntry entry) ∧
          t.params.map EntryOf.position =
            (entry.value.entries?.getD []).map Outline.Entry.position) ∨
        t.params = []) := by
  obtain ⟨entries, -, hentries, rfl⟩ := exists_entries_of_task h
  rw [hentries, Option.getD_some]
  have hmodule : (TaskOf.ofParts source item.position item.endLine
      (taskParts source false entries)).module? =
        (entries.find? namesModule).map ModuleCall.ofEntry := module_taskParts entries
  constructor
  · rw [TaskOf.ofParts, List.map_map]
    exact map_position_taskParts source false entries
  · unfold TaskOf.params
    rw [hmodule]
    cases hfind : entries.find? namesModule with
    | none => exact .inr rfl
    | some entry =>
      exact .inl ⟨entry, List.mem_of_find?_eq_some hfind, rfl, params?_ofEntry entry⟩

/-- A place of a task is on a line that an entry of its item owns. -/
theorem exists_owner (h : taskItem? source item = some (.task t)) {place : Position}
    (hplace : place ∈ t.places) :
    ∃ entry ∈ item.value.entries?.getD [], entry.Owns place.line := by
  obtain ⟨hfields, hparams⟩ := places_task h
  rcases List.mem_append.mp hplace with hplace | hplace
  · rw [hfields] at hplace
    obtain ⟨entry, hentry, rfl⟩ := List.mem_map.mp hplace
    exact ⟨entry, hentry, .inl rfl⟩
  · rcases hparams with ⟨entry, hentry, -, hplaces⟩ | hnone
    · rw [hplaces] at hplace
      obtain ⟨inner, hinner, rfl⟩ := List.mem_map.mp hplace
      exact ⟨entry, hentry, .inr ⟨inner, hinner, rfl⟩⟩
    · rw [hnone] at hplace
      cases hplace

end Places

section Owners

variable {path content : String} {playbook : Playbook}

theorem nodup_positions {entries : List (Outline.Entry Node)}
    (lines : (entries.map (·.position.line)).Pairwise (· < ·)) :
    (entries.map Outline.Entry.position).Nodup := by
  have hnodup : (entries.map (·.position.line)).Nodup := lines.imp fun h => Nat.ne_of_lt h
  refine List.Nodup.of_map Position.line ?_
  rwa [List.map_map]

/-- **A place tells its task.** -/
theorem eq_of_place (parsed : Playbook.parse path content = .ok playbook) {t other : Task}
    (ht : t ∈ playbook.tasks) (hother : other ∈ playbook.tasks) {place : Position}
    (hplace : place ∈ t.places) (hotherPlace : place ∈ other.places) : t = other := by
  obtain ⟨list, inner, item, hitem, made⟩ := exists_item_of_mem_tasks parsed ht
  obtain ⟨list', inner', item', hitem', made'⟩ := exists_item_of_mem_tasks parsed hother
  obtain ⟨entry, hentry, owns⟩ := exists_owner made hplace
  obtain ⟨entry', hentry', owns'⟩ := exists_owner made' hotherPlace
  obtain ⟨⟨range, nested⟩, -⟩ := Outline.scan_nested content.toList
  obtain ⟨rfl, -⟩ := inner.eq_of_owns inner' nested (Outline.scan_read content.toList 0)
    hitem hitem' hentry hentry' owns owns'
  exact TaskItem.task.inj (Option.some.inj (made.symm.trans made'))

/-- No task has a place twice. -/
theorem places_nodup (parsed : Playbook.parse path content = .ok playbook) {t : Task}
    (ht : t ∈ playbook.tasks) : t.places.Nodup := by
  obtain ⟨list, inner, item, hitem, made⟩ := exists_item_of_mem_tasks parsed ht
  obtain ⟨⟨range, nested⟩, -⟩ := Outline.scan_nested content.toList
  obtain ⟨-, -, hvalue⟩ := inner.items_nested nested item hitem
  have descends := inner.descends (Outline.scan_descends content.toList) item hitem
  obtain ⟨hentries, hvalues⟩ := hvalue.consecutive_entries
  have hfields := nodup_positions (Outline.entries_lines_pairwise hentries)
  obtain ⟨fields, params⟩ := places_task made
  rw [TaskOf.places, fields]
  rcases params with ⟨entry, hentry, -, params⟩ | none
  · have hparams := nodup_positions
      (Outline.entries_lines_pairwise (hvalues entry hentry).consecutive_entries.1)
    rw [params, List.nodup_append]
    refine ⟨hfields, hparams, ?_⟩
    intro place hplace other hother same
    obtain ⟨field, hfield, rfl⟩ := List.mem_map.mp hplace
    obtain ⟨below, hbelow, rfl⟩ := List.mem_map.mp hother
    exact Outline.line_ne_below hvalue descends hentry hfield hbelow (congrArg Position.line same)
  · rw [none, List.map_nil, List.append_nil]
    exact hfields

/-- A place tells its play. -/
theorem eq_of_play_place (parsed : Playbook.parse path content = .ok playbook) {p other : Play}
    (hp : p ∈ playbook.plays) (hother : other ∈ playbook.plays) {place : Position}
    (hplace : place ∈ p.fields.map Field.position)
    (hotherPlace : place ∈ other.fields.map Field.position) : p = other := by
  obtain ⟨position, items, root, item, hitem, rfl⟩ := exists_item_of_mem_plays parsed hp
  obtain ⟨position', items', root', item', hitem', rfl⟩ := exists_item_of_mem_plays parsed hother
  cases root.symm.trans root'
  obtain ⟨⟨range, nested⟩, -⟩ := Outline.scan_nested content.toList
  have read := Outline.scan_read content.toList 0
  rw [root] at nested read
  have owner : ∀ {item : Item Node},
      place ∈ (Play.ofItem (.ofText content.toList) item).fields.map Field.position →
        ∃ entry ∈ item.value.entries?.getD [], entry.Owns place.line := by
    intro item h
    rw [Play.ofItem, List.map_map] at h
    obtain ⟨entry, hentry, rfl⟩ := List.mem_map.mp h
    exact ⟨entry, hentry, .inl rfl⟩
  obtain ⟨entry, hentry, owns⟩ := owner hplace
  obtain ⟨entry', hentry', owns'⟩ := owner hotherPlace
  obtain ⟨rfl, -⟩ := InnerList.here.eq_of_owns .here nested read hitem hitem' hentry hentry' owns owns'
  rfl

/-- No play has a field twice. -/
theorem play_places_nodup (parsed : Playbook.parse path content = .ok playbook) {p : Play}
    (hp : p ∈ playbook.plays) : (p.fields.map Field.position).Nodup := by
  obtain ⟨position, items, root, item, hitem, rfl⟩ := exists_item_of_mem_plays parsed hp
  obtain ⟨⟨range, nested⟩, -⟩ := Outline.scan_nested content.toList
  rw [root] at nested
  obtain ⟨-, -, hvalue⟩ := InnerList.here.items_nested nested item hitem
  rw [Play.ofItem, List.map_map]
  exact nodup_positions (Outline.entries_lines_pairwise hvalue.consecutive_entries.1)

end Owners

end Playbook

end PlaybookStyle
