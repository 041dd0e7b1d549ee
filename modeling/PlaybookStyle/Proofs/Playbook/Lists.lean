/-
The lists that the walk goes along.

Only the elements of a list are visited with another part before them, its
neighbour. The walk goes along the blocks of a playbook, along the task lists of
its plays, and in a task along the nested lists that are the first under their key
(`TaskList`). So the neighbours on the walk are those in these lists, and no
others.

* `mem_neighbours_visits` — where the neighbours on a walk stand.
-/

import PlaybookStyle.Proofs.Playbook.Reached
import PlaybookStyle.Proofs.Playbook.Rows

namespace PlaybookStyle.Playbook

open Outline (Node Item)

/-! ### Neighbours -/

/-- A block, task or include with another before it in its list. -/
def Visit.isNeighbour (visit : Visit) : Bool := visit.previous?.isSome && visit.part.kind != .role

def neighbours (visits : List Visit) : List Visit := visits.filter Visit.isNeighbour

theorem neighbours_eq_nil_iff {visits : List Visit} :
    neighbours visits = [] ↔ ∀ visit ∈ visits, visit.isNeighbour = false := by
  simp [neighbours, List.filter_eq_nil_iff]

theorem neighbours_flatMap {α : Type} (list : List α) (f : α → List Visit) :
    neighbours (list.flatMap f) = list.flatMap fun a => neighbours (f a) :=
  List.filter_flatMap ..

theorem neighbours_visitsOfEntry (entry : Entry) : neighbours (visitsOfEntry entry) = [] :=
  neighbours_eq_nil_iff.mpr (visitsOfEntry_forall (fun _ _ => rfl) entry)

theorem neighbours_module (m : ModuleCall) : neighbours m.visits = [] :=
  neighbours_eq_nil_iff.mpr (m.visits_forall (fun _ _ => rfl) rfl)

theorem neighbours_include (i : Include) : neighbours i.visits = [] :=
  neighbours_eq_nil_iff.mpr (i.visits_forall fun _ _ => rfl)

/-- No role counts as a neighbour, and nothing inside one has another before it. -/
theorem neighbours_visitsOfRoles (roles : List Role) : neighbours (visitsOfRoles none roles) = [] := by
  refine neighbours_eq_nil_iff.mpr (visitsOfRoles_forall ?_ fun role _ => ?_)
  · intro visit hvisit
    obtain ⟨role, -, hpart⟩ := List.mem_map.mp (part_mem_of_mem_row hvisit)
    rw [Visit.isNeighbour, ← hpart]
    exact Bool.and_false _
  · exact role.visits_forall fun _ _ => rfl

/-- The elements of a row, each behind the one before it. -/
theorem mem_row_iff {parts : List Part} {previous? : Option Part} {visit : Visit} :
    visit ∈ row previous? parts ↔ ∃ i : Nat, parts[i]? = some visit.part ∧
      visit.previous? = if i = 0 then previous? else parts[i - 1]? := by
  induction parts generalizing previous? with
  | nil => simp [row]
  | cons part rest ih =>
    rw [row, List.mem_cons, ih]
    constructor
    · rintro (rfl | ⟨i, hpart, hprevious⟩)
      · exact ⟨0, rfl, rfl⟩
      · refine ⟨i + 1, hpart, ?_⟩
        rw [hprevious]
        cases i <;> rfl
    · rintro ⟨i, hpart, hprevious⟩
      cases i with
      | zero =>
        obtain ⟨found, before?⟩ := visit
        obtain rfl := Option.some.inj hpart
        exact .inl (congrArg (Visit.mk part) hprevious)
      | succ i =>
        refine .inr ⟨i, hpart, ?_⟩
        rw [hprevious]
        cases i <;> rfl

theorem mem_visitsOfItems {items : List TaskItem} {previous? : Option Part} {visit : Visit} :
    visit ∈ visitsOfItems previous? items ↔
      visit ∈ row previous? (items.map TaskItem.part) ∨ ∃ item ∈ items, visit ∈ visitsOfItem item := by
  induction items generalizing previous? with
  | nil => simp [visitsOfItems, row]
  | cons item rest ih =>
    rw [visitsOfItems, List.map_cons, row, List.mem_cons, List.mem_cons, List.mem_append, ih,
      List.exists_mem_cons_iff]
    constructor
    · rintro (h | h | h | h)
      exacts [.inl (.inl h), .inr (.inl h), .inl (.inr h), .inr (.inr h)]
    · rintro ((h | h) | h | h)
      exacts [.inl h, .inr (.inr (.inl h)), .inr (.inl h), .inr (.inr (.inr h))]

theorem mem_visitsOfBlocks {blocks : List Block} {previous? : Option Part} {visit : Visit} :
    visit ∈ visitsOfBlocks previous? blocks ↔
      visit ∈ row previous? (blocks.map Block.part) ∨ ∃ block ∈ blocks, visit ∈ block.visits := by
  induction blocks generalizing previous? with
  | nil => simp [visitsOfBlocks, row]
  | cons block rest ih =>
    rw [visitsOfBlocks, List.map_cons, row, List.mem_cons, List.mem_cons, List.mem_append, ih,
      List.exists_mem_cons_iff]
    constructor
    · rintro (h | h | h | h)
      exacts [.inl (.inl h), .inr (.inl h), .inl (.inr h), .inr (.inr h)]
    · rintro ((h | h) | h | h)
      exacts [.inl h, .inr (.inr (.inl h)), .inr (.inl h), .inr (.inr (.inr h))]

/-! ### Task lists -/

/-- The task lists that the walk over the task list of a node goes along: the list
itself, and those under the keys of its tasks. -/
inductive TaskList : Node → List (Item Node) → Prop
  | here {position : Position} {items : List (Item Node)} : TaskList (.sequence position items) items
  | nested {position : Position} {items list : List (Item Node)} {item : Item Node}
      {entries : List (Outline.Entry Node)} {outer : Outline.Entry Node} (hitem : item ∈ items)
      (file : namesFile taskIncludes item = false) (hentries : item.value.entries? = some entries)
      (answers : answer? entries outer.key = some outer) (opens : opensList outer.key = true)
      (inner : TaskList outer.value list) : TaskList (.sequence position items) list

section Lists

variable {source : SourceLines}

/-- The elements of a task list, each with the one before it. -/
def taskRow (source : SourceLines) (items : List (Item Node)) : List Visit :=
  row none ((items.filterMap (taskItem? source)).map TaskItem.part)

/-- Under a key without a nested list nothing has a neighbour. -/
theorem neighbours_visitsOfField_plain {position : Position} {endLine : Nat}
    {entries : List (Outline.Entry Node)} {key : String} (plain : opensList key = false)
    (kind : TaskFieldKind) (place : Position) :
    let t := TaskOf.ofParts source position endLine (taskParts source false entries)
    neighbours (t.visitsOfField (visitsOfNested t.nested) ⟨kind, key, place⟩) = [] := by
  intro t
  have hnone : (entries.filter fun entry => opensList entry.key).find? (·.key == key) = none :=
    find?_filter_eq_none fun entry hkey => by rw [beq_iff_eq.mp hkey, plain]
  unfold TaskOf.visitsOfField
  split
  · exact neighbours_visitsOfEntry _
  · rw [lookup_taskParts, hnone]
    dsimp only [Option.map_none]
    rw [neighbours_flatMap, List.flatMap_eq_nil_iff]
    exact fun m _ => neighbours_module m

/-- The neighbours in a task are those in its nested lists. -/
theorem mem_neighbours_task {position : Position} {endLine : Nat}
    {entries : List (Outline.Entry Node)} {visit : Visit} :
    visit ∈ neighbours (visitsOfItem
        (.task (TaskOf.ofParts source position endLine (taskParts source false entries)))) ↔
      ∃ outer, answer? entries outer.key = some outer ∧ opensList outer.key = true ∧
        visit ∈ neighbours (visitsOfItems none (taskItems source outer.value)) := by
  have hfield : ∀ part ∈ taskParts source false entries,
      visit ∈ neighbours ((TaskOf.ofParts source position endLine
          (taskParts source false entries)).visitsOfField
        (visitsOfNested (TaskOf.ofParts source position endLine
          (taskParts source false entries)).nested) part.1) ↔
        ∃ outer, answer? entries part.1.key = some outer ∧ opensList outer.key = true ∧
          visit ∈ neighbours (visitsOfItems none (taskItems source outer.value)) := by
    rintro ⟨⟨kind, key, place⟩, part⟩ -
    dsimp only
    cases hopens : opensList key with
    | true =>
      rw [visitsOfField_list _ _ hopens]
      cases hanswer : answer? entries key with
      | none => simp [neighbours]
      | some outer => simp [key_of_answer? hanswer, hopens]
    | false =>
      rw [neighbours_visitsOfField_plain hopens]
      cases hanswer : answer? entries key with
      | none => simp
      | some outer => simp [key_of_answer? hanswer, hopens]
  rw [visitsOfItem, visitsOfTask_eq, neighbours_flatMap, List.mem_flatMap]
  constructor
  · rintro ⟨field, hmem, hvisit⟩
    obtain ⟨part, hpart, rfl⟩ := List.mem_map.mp hmem
    obtain ⟨outer, hanswer, hinner⟩ := (hfield part hpart).mp hvisit
    exact ⟨outer, by rwa [key_of_answer? hanswer], hinner⟩
  · rintro ⟨outer, hanswer, hinner⟩
    obtain ⟨part, hpart, hkey⟩ := exists_part_of_answer? hanswer
    exact ⟨part.1, List.mem_map_of_mem hpart, (hfield part hpart).mpr ⟨outer, by rwa [hkey], hinner⟩⟩

/-- Only a task has lists inside. -/
theorem mem_neighbours_taskItem? {item : Item Node} {visit : Visit} :
    (∃ found, taskItem? source item = some found ∧ visit ∈ neighbours (visitsOfItem found)) ↔
      namesFile taskIncludes item = false ∧ ∃ entries outer, item.value.entries? = some entries ∧
        answer? entries outer.key = some outer ∧ opensList outer.key = true ∧
          visit ∈ neighbours (visitsOfItems none (taskItems source outer.value)) := by
  have hfile : namesFile taskIncludes item = (Include.ofItem? source taskIncludes item).isSome :=
    (isSome_ofItem? ..).symm
  rw [taskItem?_eq, hfile]
  cases hinclude : Include.ofItem? source taskIncludes item with
  | some i => simp [visitsOfItem, neighbours_include]
  | none =>
    cases hentries : item.value.entries? with
    | none => simp
    | some entries => simp [mem_neighbours_task]

/-- **In a task list** the neighbours are those in the lists that the walk goes along. -/
theorem mem_neighbours_taskItems (n : Node) (visit : Visit) :
    visit ∈ neighbours (visitsOfItems none (taskItems source n)) ↔
      ∃ items, TaskList n items ∧ visit ∈ neighbours (taskRow source items) := by
  suffices h : (visit ∈ neighbours (visitsOfItems none (taskItems source n)) ↔
      ∃ items, TaskList n items ∧ visit ∈ neighbours (taskRow source items)) ∧
        ∀ entries, n.entries? = some entries → ∀ outer ∈ entries,
          (visit ∈ neighbours (visitsOfItems none (taskItems source outer.value)) ↔
            ∃ items, TaskList outer.value items ∧ visit ∈ neighbours (taskRow source items)) from h.1
  induction n using Outline.Node.allEntries.induct with
  | case1 position entries ih =>
    refine ⟨iff_of_false (by simp [taskItems, visitsOfItems, neighbours]) ?_, ?_⟩
    · rintro ⟨items, hlist, -⟩
      cases hlist
    · rintro _ ⟨⟩ outer houter
      exact (ih outer houter).1
  | case2 position items ih =>
    refine ⟨?_, by simp [Outline.Node.entries?]⟩
    have hsplit : visit ∈ neighbours (visitsOfItems none (taskItems source (.sequence position items))) ↔
        visit ∈ neighbours (taskRow source items) ∨ ∃ item ∈ items, ∃ found,
          taskItem? source item = some found ∧ visit ∈ neighbours (visitsOfItem found) := by
      rw [taskItems, taskItemsOf_eq_filterMap]
      simp only [neighbours, List.mem_filter, mem_visitsOfItems, List.mem_filterMap, taskRow,
        or_and_right]
      refine or_congr_right ⟨?_, ?_⟩
      · rintro ⟨⟨found, ⟨item, hitem, hfound⟩, hvisit⟩, hneighbour⟩
        exact ⟨item, hitem, found, hfound, hvisit, hneighbour⟩
      · rintro ⟨item, hitem, found, hfound, hvisit, hneighbour⟩
        exact ⟨⟨found, ⟨item, hitem, hfound⟩, hvisit⟩, hneighbour⟩
    rw [hsplit]
    simp only [mem_neighbours_taskItem?]
    constructor
    · rintro (hrow | ⟨item, hitem, file, entries, outer, hentries, answers, opens, hvisit⟩)
      · exact ⟨items, .here, hrow⟩
      · obtain ⟨list, hlist, hrow⟩ :=
          ((ih item hitem).2 entries hentries outer (mem_of_answer? answers)).mp hvisit
        exact ⟨list, .nested hitem file hentries answers opens hlist, hrow⟩
    · rintro ⟨list, hlist, hrow⟩
      cases hlist with
      | here => exact .inl hrow
      | nested hitem file hentries answers opens inner =>
        have hvisit := ((ih _ hitem).2 _ hentries _ (mem_of_answer? answers)).mpr ⟨list, inner, hrow⟩
        exact .inr ⟨_, hitem, file, _, _, hentries, answers, opens, hvisit⟩
  | case3 s =>
    refine ⟨iff_of_false (by simp [taskItems, visitsOfItems, neighbours]) ?_,
      by simp [Outline.Node.entries?]⟩
    rintro ⟨items, hlist, -⟩
    cases hlist
  | case4 =>
    refine ⟨iff_of_false (by simp [taskItems, visitsOfItems, neighbours]) ?_,
      by simp [Outline.Node.entries?]⟩
    rintro ⟨items, hlist, -⟩
    cases hlist

/-! ### Plays and playbooks -/

/-- The task lists of a play's entries that the walk goes along. -/
def TaskListIn (entries : List (Outline.Entry Node)) (items : List (Item Node)) : Prop :=
  ∃ outer ∈ entries, opensSection outer.key = true ∧ PlayFieldKind.ofKey outer.key ≠ .roles ∧
    TaskList outer.value items

theorem mem_neighbours_section {raw : Outline.Entry Node} {s : PlaySection} {visit : Visit}
    (h : playSection? source raw = some s) :
    visit ∈ neighbours s.items.visits ↔ PlayFieldKind.ofKey raw.key ≠ .roles ∧
      ∃ items, TaskList raw.value items ∧ visit ∈ neighbours (taskRow source items) := by
  obtain ⟨-, rfl⟩ := opens_of_playSection? h
  dsimp only
  by_cases hroles : PlayFieldKind.ofKey raw.key = .roles
  · rw [if_pos hroles, SectionItems.visits, neighbours_visitsOfRoles]
    simp [hroles]
  · rw [if_neg hroles, SectionItems.visits, mem_neighbours_taskItems]
    simp [hroles]

/-- Under a key that opens no section nothing has a neighbour. -/
theorem neighbours_playField_plain {item : Item Node} {raw : Outline.Entry Node}
    (hraw : raw ∈ item.value.entries?.getD []) (plain : opensSection raw.key = false) :
    neighbours ((Play.ofItem source item).visitsOfField
      ⟨PlayFieldKind.ofKey raw.key, raw.key, raw.position⟩) = [] := by
  have hsome : ((item.value.entries?.getD []).find? (·.key == raw.key)).isSome = true :=
    List.find?_isSome.mpr ⟨raw, hraw, beq_self_eq_true _⟩
  obtain ⟨outer, houter⟩ := Option.isSome_iff_exists.mp hsome
  unfold Play.visitsOfField
  dsimp only
  rw [entryOf?_play, plain, if_neg Bool.false_ne_true, houter]
  exact neighbours_visitsOfEntry _

/-- In a play the neighbours are those in its task lists. -/
theorem mem_neighbours_play {item : Item Node} (ordered : item.value.Ordered) {visit : Visit} :
    visit ∈ neighbours (Play.ofItem source item).visits ↔
      ∃ items, TaskListIn (item.value.entries?.getD []) items ∧
        visit ∈ neighbours (taskRow source items) := by
  rw [Play.visits, neighbours_flatMap, List.mem_flatMap]
  constructor
  · rintro ⟨field, hfield, hvisit⟩
    obtain ⟨raw, hraw, rfl⟩ := List.mem_map.mp hfield
    cases hopens : opensSection raw.key with
    | true =>
      obtain ⟨s, hs, hvisits⟩ := exists_visitsOfField_section ordered hraw hopens
      rw [hvisits, mem_neighbours_section hs] at hvisit
      obtain ⟨kind, items, hlist, hrow⟩ := hvisit
      exact ⟨items, ⟨raw, hraw, hopens, kind, hlist⟩, hrow⟩
    | false =>
      rw [neighbours_playField_plain hraw hopens] at hvisit
      cases hvisit
  · rintro ⟨items, ⟨raw, hraw, hopens, kind, hlist⟩, hrow⟩
    obtain ⟨s, hs, hvisits⟩ := exists_visitsOfField_section ordered hraw hopens
    refine ⟨_, List.mem_map.mpr ⟨raw, hraw, rfl⟩, ?_⟩
    rw [hvisits, mem_neighbours_section hs]
    exact ⟨kind, items, hlist, hrow⟩

/-- In a block the neighbours are those in the task lists of a play. -/
theorem mem_neighbours_block {value : Yaml.Value} {item : Item Node} {block : Block}
    (ordered : item.value.Ordered) (h : Block.ofItem source value item = .ok block) {visit : Visit} :
    visit ∈ neighbours block.visits ↔ (value.get? "hosts").isSome = true ∧
      ∃ items, TaskListIn (item.value.entries?.getD []) items ∧
        visit ∈ neighbours (taskRow source items) := by
  obtain ⟨-, ⟨hhosts, rfl⟩ | ⟨hhosts, i, -, rfl⟩⟩ := Block.ofItem_cases h
  · rw [Block.visits, mem_neighbours_play ordered]
    simp [hhosts]
  · rw [Block.visits, neighbours_include]
    simp [hhosts]

theorem mem_neighbours_blocksOf {values : List Yaml.Value} {items : List (Item Node)}
    {blocks : List Block} (ordered : ∀ item ∈ items, item.value.Ordered)
    (h : blocksOf source values items = .ok blocks) {visit : Visit} :
    (∃ block ∈ blocks, visit ∈ neighbours block.visits) ↔
      ∃ pair ∈ values.zip items, (pair.1.get? "hosts").isSome = true ∧
        ∃ list, TaskListIn (pair.2.value.entries?.getD []) list ∧
          visit ∈ neighbours (taskRow source list) := by
  have hordered : ∀ pair ∈ values.zip items, pair.2.value.Ordered :=
    fun pair hpair => ordered _ (List.of_mem_zip hpair).2
  rw [exists_mem_blocksOf_iff h]
  constructor
  · rintro ⟨pair, hpair, block, hmade, hvisit⟩
    exact ⟨pair, hpair, (mem_neighbours_block (hordered pair hpair) hmade).mp hvisit⟩
  · rintro ⟨pair, hpair, hlists⟩
    obtain ⟨block, -, hmade⟩ := exists_of_mem_right (blocksOf_zip h).flip hpair
    exact ⟨pair, hpair, block, hmade, (mem_neighbours_block (hordered pair hpair) hmade).mpr hlists⟩

end Lists

/-- The task lists that the walk over the playbook in a content goes along. -/
def TaskListOf (content : String) (items : List (Item Node)) : Prop :=
  ∃ values position blocks, Yaml.Value.read content = .ok (.sequence values) ∧
    (Outline.scan content.toList).root = .sequence position blocks ∧
    ∃ pair ∈ values.zip blocks, (pair.1.get? "hosts").isSome = true ∧
      TaskListIn (pair.2.value.entries?.getD []) items

/-- **On the walk** over a playbook that was parsed the neighbours are those among the
blocks and in the task lists that it goes along. -/
theorem mem_neighbours_visits {path content : String} {playbook : Playbook}
    (parsed : Playbook.parse path content = .ok playbook) (visit : Visit) :
    visit ∈ neighbours playbook.visits ↔
      visit ∈ neighbours (row none (playbook.blocks.map Block.part)) ∨
        ∃ items, TaskListOf content items ∧
          visit ∈ neighbours (taskRow (.ofText content.toList) items) := by
  obtain ⟨value, hread, build⟩ := exists_read_of_parse parsed
  obtain ⟨-, items, position, hroot, values, rfl, hblocks⟩ := exists_blocksOf_of_build build
  have hordered := Outline.ordered_of_scan hroot
  have hlists : (∃ list, TaskListOf content list ∧
      visit ∈ neighbours (taskRow (.ofText content.toList) list)) ↔
        ∃ block ∈ playbook.blocks, visit ∈ neighbours block.visits := by
    rw [mem_neighbours_blocksOf hordered hblocks]
    constructor
    · rintro ⟨list, ⟨values', position', items', hread', hroot', pair, hpair, hosts, hlist⟩, hvisit⟩
      cases hread.symm.trans hread'
      cases hroot.symm.trans hroot'
      exact ⟨pair, hpair, hosts, list, hlist, hvisit⟩
    · rintro ⟨pair, hpair, hosts, list, hlist, hvisit⟩
      exact ⟨list, ⟨values, position, items, hread, hroot, pair, hpair, hosts, hlist⟩, hvisit⟩
  rw [hlists, Playbook.visits]
  simp only [neighbours, List.mem_filter, List.mem_cons, mem_visitsOfBlocks]
  constructor
  · rintro ⟨rfl | hrow | ⟨block, hblock, hvisit⟩, hneighbour⟩
    · cases hneighbour
    · exact .inl ⟨hrow, hneighbour⟩
    · exact .inr ⟨block, hblock, hvisit, hneighbour⟩
  · rintro (⟨hrow, hneighbour⟩ | ⟨block, hblock, hvisit, hneighbour⟩)
    · exact ⟨.inr (.inl hrow), hneighbour⟩
    · exact ⟨.inr (.inr ⟨block, hblock, hvisit⟩), hneighbour⟩

end PlaybookStyle.Playbook
