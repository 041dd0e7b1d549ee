/-
The rows of a playbook: its lists of tasks, roles and blocks.

On the walk only the elements of a list have a part before them; everything else
is visited alone. So what holds of lone parts and of the elements of all lists
holds of every visit (`visitsOfBlocks_forall`). Two properties of visits are found
so: no visit inside a playbook is to a document (`visitsOfBlocks_inner`), and an
element that has another before it begins behind the line on which the list
begins, because the items of an outline stand on lines of their own
(`Block.visits_behind`).
-/

import PlaybookStyle.Proofs.Outline.Nesting
import PlaybookStyle.Proofs.Playbook.Visits

namespace PlaybookStyle.Playbook

open Outline LineRange

/-! ### Rows -/

/-- The elements of a list, each with the one before it. -/
def row (previous? : Option Part) : List Part → List Visit
  | [] => []
  | part :: rest => ⟨part, previous?⟩ :: row (some part) rest

theorem part_mem_of_mem_row {visit : Visit} {parts : List Part} {previous? : Option Part}
    (h : visit ∈ row previous? parts) : visit.part ∈ parts := by
  induction parts generalizing previous? with
  | nil => cases h
  | cons part rest ih =>
    rcases List.mem_cons.mp h with rfl | h
    · exact List.mem_cons_self
    · exact List.mem_cons_of_mem _ (ih h)

/-- The rows of the nested lists of a task. -/
def TaskOf.rows (t : Task) : List Visit :=
  t.nested.flatMap fun list => row none (list.items.map TaskItem.part)

/-- The row of a task list and the rows of all tasks in it have a property. -/
structure AllRows (Q : Visit → Prop) (items : List TaskItem) : Prop where
  row : ∀ visit ∈ row none (items.map TaskItem.part), Q visit
  inside : ∀ item ∈ items, item.AllTasks fun t => ∀ visit ∈ t.rows, Q visit

/-- The rows of a section have a property. -/
def SectionItems.AllRows (Q : Visit → Prop) : SectionItems → Prop
  | .tasks list => Playbook.AllRows Q list
  | .roles list => ∀ visit ∈ row none (list.map .role), Q visit

section Walk

variable {Q R : Visit → Prop}

theorem AllRows.imp (h : ∀ visit, Q visit → R visit) {items : List TaskItem}
    (rows : AllRows Q items) : AllRows R items where
  row visit hvisit := h visit (rows.row visit hvisit)
  inside item hitem t ht visit hvisit := h visit (rows.inside item hitem t ht visit hvisit)

theorem allTasks_rows_of_nested {t : Task} (rows : ∀ list ∈ t.nested, AllRows Q list.items) :
    (TaskItem.task t).AllTasks fun t => ∀ visit ∈ t.rows, Q visit := by
  refine allTasks_task_iff.mpr ⟨?_, fun list hlist => (rows list hlist).inside⟩
  rw [TaskOf.rows, List.forall_mem_flatMap]
  exact fun list hlist => (rows list hlist).row

theorem visitsOfRoles_forall {previous? : Option Part} {roles : List Role}
    (row : ∀ visit ∈ row previous? (roles.map .role), Q visit)
    (inside : ∀ role ∈ roles, ∀ visit ∈ role.visits, Q visit) :
    ∀ visit ∈ visitsOfRoles previous? roles, Q visit := by
  induction roles generalizing previous? with
  | nil => simp [visitsOfRoles]
  | cons role rest ih =>
    obtain ⟨hfirst, hrow⟩ := List.forall_mem_cons.mp row
    obtain ⟨hrole, hinside⟩ := List.forall_mem_cons.mp inside
    rw [visitsOfRoles, List.forall_mem_cons, List.forall_mem_append]
    exact ⟨hfirst, hrole, ih hrow hinside⟩

theorem visitsOfItems_forall {previous? : Option Part} {items : List TaskItem}
    (row : ∀ visit ∈ row previous? (items.map TaskItem.part), Q visit)
    (inside : ∀ item ∈ items, ∀ visit ∈ visitsOfItem item, Q visit) :
    ∀ visit ∈ visitsOfItems previous? items, Q visit := by
  induction items generalizing previous? with
  | nil => simp [visitsOfItems]
  | cons item rest ih =>
    obtain ⟨hfirst, hrow⟩ := List.forall_mem_cons.mp row
    obtain ⟨hitem, hinside⟩ := List.forall_mem_cons.mp inside
    rw [visitsOfItems, List.forall_mem_cons, List.forall_mem_append]
    exact ⟨hfirst, hitem, ih hrow hinside⟩

theorem visitsOfBlocks_forall {previous? : Option Part} {blocks : List Block}
    (row : ∀ visit ∈ row previous? (blocks.map Block.part), Q visit)
    (inside : ∀ block ∈ blocks, ∀ visit ∈ block.visits, Q visit) :
    ∀ visit ∈ visitsOfBlocks previous? blocks, Q visit := by
  induction blocks generalizing previous? with
  | nil => simp [visitsOfBlocks]
  | cons block rest ih =>
    obtain ⟨hfirst, hrow⟩ := List.forall_mem_cons.mp row
    obtain ⟨hblock, hinside⟩ := List.forall_mem_cons.mp inside
    rw [visitsOfBlocks, List.forall_mem_cons, List.forall_mem_append]
    exact ⟨hfirst, hblock, ih hrow hinside⟩

/-! ### What holds of lone parts and of rows -/

/-- An entry, the call of a module, or a scalar: what is visited alone. -/
def Part.isLone : Part → Bool
  | .entry _ | .module _ | .scalar _ => true
  | .document _ | .play _ | .task _ | .role _ | .inclusion _ => false

theorem Part.kind_ne_document_of_isLone {part : Part} (h : part.isLone = true) :
    part.kind ≠ .document := by
  cases part with
  | entry | module => simp [Part.kind]
  | scalar s =>
    rw [Part.kind]
    split <;> decide
  | document | play | task | role | inclusion => cases h

/-- An entry or a scalar. -/
def Part.isPlain : Part → Bool
  | .entry _ | .scalar _ => true
  | .document _ | .play _ | .task _ | .module _ | .role _ | .inclusion _ => false

theorem Part.isLone_of_isPlain {part : Part} (h : part.isPlain = true) : part.isLone = true := by
  cases part with
  | entry | scalar => rfl
  | document | play | task | module | role | inclusion => cases h

variable (plain : ∀ part : Part, part.isPlain = true → Q (.alone part))

include plain

theorem Value.visits_forall (v : Value) : ∀ visit ∈ v.visits, Q visit := by
  rw [v.visits_eq_survey]
  induction v using Value.survey.induct with
  | case1 s =>
    rw [Value.survey, List.forall_mem_singleton]
    exact plain _ rfl
  | case2 entries ih =>
    rw [Value.survey, List.forall_mem_flatMap]
    intro entry hentry
    exact List.forall_mem_cons.mpr ⟨plain (.entry entry) rfl, ih entry hentry⟩
  | case3 items ih =>
    rw [Value.survey, List.forall_mem_flatMap]
    exact ih
  | case4 => simp [Value.survey]

theorem visitsOfEntry_forall (entry : Entry) : ∀ visit ∈ visitsOfEntry entry, Q visit := by
  rw [visitsOfEntry_eq, List.forall_mem_cons]
  exact ⟨plain _ rfl, entry.value.visits_forall plain⟩

theorem visitsOfEntries_forall (entries : List Entry) :
    ∀ visit ∈ visitsOfEntries entries, Q visit := by
  rw [visitsOfEntries_eq_flatMap, List.forall_mem_flatMap]
  exact fun entry _ => visitsOfEntry_forall plain entry

theorem Include.visits_forall (i : Include) : ∀ visit ∈ i.visits, Q visit := by
  rw [Include.visits, List.forall_mem_cons]
  exact ⟨plain _ rfl, visitsOfEntries_forall plain i.entries⟩

theorem ModuleCall.visits_forall {m : ModuleCall} (call : Q (.alone (.module m))) :
    ∀ visit ∈ m.visits, Q visit := by
  rw [ModuleCall.visits, List.forall_mem_cons]
  exact ⟨call, m.args.visits_forall plain⟩

theorem Role.visits_forall (role : Role) : ∀ visit ∈ role.visits, Q visit := by
  rw [Role.visits]
  split
  · exact List.forall_mem_map.mpr fun s _ => plain _ rfl
  · exact List.forall_mem_map.mpr fun s _ => plain _ rfl
  · exact visitsOfEntries_forall plain role.entries

theorem TaskOf.visitsOfField_forall (t : Task) {nested : List (String × List Visit)}
    (calls : ∀ m ∈ t.module?, Q (.alone (.module m)))
    (h : ∀ list ∈ nested, ∀ visit ∈ list.2, Q visit) (field : Field TaskFieldKind) :
    ∀ visit ∈ t.visitsOfField nested field, Q visit := by
  unfold TaskOf.visitsOfField
  split
  · exact visitsOfEntry_forall plain _
  · split
    · rename_i visits hvisits
      obtain ⟨before, after, rfl, -⟩ := List.lookup_eq_some_iff.mp hvisits
      exact h _ (List.mem_append_right _ List.mem_cons_self)
    · rw [List.forall_mem_flatMap]
      intro m hm
      obtain ⟨hm, -⟩ := Option.filter_eq_some_iff.mp (Option.mem_toList.mp hm)
      exact m.visits_forall plain (calls m hm)

theorem visitsOfItem_forall (item : TaskItem)
    (rows : item.AllTasks fun t => ∀ visit ∈ t.rows, Q visit)
    (calls : item.AllTasks fun t => ∀ m ∈ t.module?, Q (.alone (.module m))) :
    ∀ visit ∈ visitsOfItem item, Q visit := by
  induction item using TaskItem.induction with
  | inclusion i =>
    rw [visitsOfItem]
    exact i.visits_forall plain
  | task t ih =>
    obtain ⟨hrows, hnested⟩ := allTasks_task_iff.mp rows
    obtain ⟨hcalls, hinside⟩ := allTasks_task_iff.mp calls
    have hlists : ∀ list ∈ visitsOfNested t.nested, ∀ visit ∈ list.2, Q visit := by
      rw [visitsOfNested_eq_map, List.forall_mem_map]
      intro list hlist
      refine visitsOfItems_forall ?_ fun item hitem => ih list hlist item hitem
        (hnested list hlist item hitem) (hinside list hlist item hitem)
      exact fun visit hvisit => hrows visit (List.mem_flatMap.mpr ⟨list, hlist, hvisit⟩)
    rw [visitsOfItem, visitsOfTask_eq, List.forall_mem_flatMap]
    exact fun field _ => t.visitsOfField_forall plain hcalls hlists field

theorem SectionItems.visits_forall (s : SectionItems) (rows : s.AllRows Q)
    (calls : ∀ t, .task t ∈ s.items → ∀ m ∈ t.module?, Q (.alone (.module m))) :
    ∀ visit ∈ s.visits, Q visit := by
  cases s with
  | tasks list =>
    exact visitsOfItems_forall rows.row fun item hitem =>
      visitsOfItem_forall plain item (rows.inside item hitem) fun t ht =>
        calls t (mem_withinItems.mpr ⟨item, hitem, ht⟩)
  | roles list => exact visitsOfRoles_forall rows fun role _ => role.visits_forall plain

/-- **The visits of a block** have a property that entries and scalars, the rows in the
block and the calls of its tasks have. -/
theorem Block.visits_forall (block : Block)
    (rows : ∀ play ∈ block.play?, ∀ s ∈ play.sections, s.items.AllRows Q)
    (calls : ∀ play ∈ block.play?, ∀ s ∈ play.sections, ∀ t, .task t ∈ s.items.items →
      ∀ m ∈ t.module?, Q (.alone (.module m))) :
    ∀ visit ∈ block.visits, Q visit := by
  cases block with
  | inclusion i => exact i.visits_forall plain
  | play p =>
    rw [Block.visits, Play.visits, List.forall_mem_flatMap]
    intro field _
    unfold Play.visitsOfField
    split
    · exact visitsOfEntry_forall plain _
    · rw [List.forall_mem_flatMap]
      intro s hs
      have hmem := List.mem_of_find?_eq_some (Option.mem_toList.mp hs)
      exact s.items.visits_forall plain (rows p rfl s hmem) (calls p rfl s hmem)

end Walk

/-! ### The parts of a document -/

/-- A visit to a part inside a document, where no list has a document for an element. -/
def Visit.Inner (visit : Visit) : Prop :=
  visit.part.kind ≠ .document ∧ ∀ previous ∈ visit.previous?, previous.kind ≠ .document

theorem row_inner {previous? : Option Part} {parts : List Part}
    (hprevious : ∀ previous ∈ previous?, previous.kind ≠ .document)
    (hparts : ∀ part ∈ parts, part.kind ≠ .document) : ∀ visit ∈ row previous? parts, visit.Inner := by
  induction parts generalizing previous? with
  | nil => simp [row]
  | cons part rest ih =>
    obtain ⟨hpart, hrest⟩ := List.forall_mem_cons.mp hparts
    rw [row, List.forall_mem_cons]
    refine ⟨⟨hpart, hprevious⟩, ih ?_ hrest⟩
    rintro _ ⟨⟩
    exact hpart

theorem row_items_inner (list : List TaskItem) :
    ∀ visit ∈ row none (list.map TaskItem.part), visit.Inner := by
  refine row_inner (by simp) (List.forall_mem_map.mpr fun item _ => ?_)
  cases item <;> simp [TaskItem.part, Part.kind]

theorem SectionItems.allRows_inner (s : SectionItems) : s.AllRows Visit.Inner := by
  cases s with
  | tasks list =>
    refine ⟨row_items_inner list, fun item _ t _ visit hvisit => ?_⟩
    obtain ⟨nested, -, hvisit⟩ := List.mem_flatMap.mp hvisit
    exact row_items_inner nested.items visit hvisit
  | roles list =>
    refine row_inner (by simp) (List.forall_mem_map.mpr fun role _ => ?_)
    simp [Part.kind]

theorem Block.part_kind_ne_document (block : Block) : block.part.kind ≠ .document := by
  cases block <;> simp [Block.part, Part.kind]

/-- The walk over blocks never comes to a document. -/
theorem visitsOfBlocks_inner {previous? : Option Part} (blocks : List Block)
    (h : ∀ previous ∈ previous?, previous.kind ≠ .document) :
    ∀ visit ∈ visitsOfBlocks previous? blocks, visit.Inner := by
  have hlone : ∀ part : Part, part.isLone = true → (Visit.alone part).Inner := fun part hpart =>
    ⟨part.kind_ne_document_of_isLone hpart, by simp [Visit.alone]⟩
  refine visitsOfBlocks_forall (row_inner h ?_) fun block _ => block.visits_forall ?_ ?_ ?_
  · exact List.forall_mem_map.mpr fun block _ => block.part_kind_ne_document
  · exact fun part hpart => hlone part (Part.isLone_of_isPlain hpart)
  · exact fun _ _ s _ => s.items.allRows_inner
  · exact fun _ _ _ _ _ _ m _ => hlone (.module m) rfl

/-! ### Rows on lines of their own -/

/-- A part with another before it begins behind a line. -/
def Visit.Behind (line : Nat) (visit : Visit) : Prop :=
  visit.previous? ≠ none → line < visit.part.position.line

theorem Visit.Behind.of_le {low line : Nat} (h : low ≤ line) {visit : Visit}
    (behind : visit.Behind line) : visit.Behind low :=
  fun hprevious => Nat.lt_of_le_of_lt h (behind hprevious)

section Behind

variable {source : SourceLines} {range : LineRange}

/-- Places on later and later lines, from a line on. -/
def Downwards (low : Nat) (places : List Position) : Prop :=
  places.Pairwise fun a b => low ≤ a.line ∧ a.line < b.line

/-- Parts at such places make a row behind that line. -/
theorem row_behind {low : Nat} {parts : List Part} (places : Downwards low (parts.map Part.position)) :
    ∀ visit ∈ row none parts, visit.Behind low := by
  have hlines := List.pairwise_map.mp places
  cases parts with
  | nil => simp [row]
  | cons first rest =>
    rw [row, List.forall_mem_cons]
    refine ⟨fun h => absurd rfl h, fun visit hvisit _ => ?_⟩
    obtain ⟨hlow, hlt⟩ := List.rel_of_pairwise_cons hlines (part_mem_of_mem_row hvisit)
    exact Nat.lt_of_le_of_lt hlow hlt

theorem downwards_of_consecutive {items : List (Item Node)}
    (parts : Consecutive range (items.map Item.lines)) :
    Downwards range.first (items.map Item.position) := by
  refine List.pairwise_map.mpr ((List.pairwise_map.mp parts.order).imp_of_mem ?_)
  intro item _ hitem _ hbefore
  exact ⟨(parts.within _ (List.mem_map_of_mem hitem)).1,
    Nat.lt_of_le_of_lt (parts.nonempty _ (List.mem_map_of_mem hitem)) hbefore⟩

/-- What is made from items, in their order and at their places, makes a row behind
the line of the first. -/
theorem row_filterMap_behind {α : Type} {items : List (Item Node)}
    (parts : Consecutive range (items.map Item.lines)) {find : Item Node → Option α}
    {part : α → Part}
    (places : ∀ item a, find item = some a → (part a).position = item.position) :
    ∀ visit ∈ row none ((items.filterMap find).map part), visit.Behind range.first := by
  refine row_behind ?_
  unfold Downwards
  rw [List.pairwise_map, List.pairwise_map, List.pairwise_filterMap]
  refine (List.pairwise_map.mp (downwards_of_consecutive parts)).imp fun hlines a ha b hb => ?_
  rw [places _ a ha, places _ b hb]
  exact hlines

theorem position_of_includeItem? {keywords : List String} {item : Item Node} {i : Include}
    (h : Include.ofItem? source keywords item = some i) : i.position = item.position := by
  simp only [Include.ofItem?, Option.bind_eq_bind, Option.bind_eq_some_iff, Option.pure_def] at h
  obtain ⟨entries, -, target, -, scalar, -, h⟩ := h
  obtain rfl := Option.some.inj h
  rfl

theorem position_of_taskItem? {item : Item Node} {found : TaskItem}
    (h : taskItem? source item = some found) : found.part.position = item.position := by
  rcases taskItem?_cases h with ⟨i, hinclude, rfl⟩ | ⟨entries, -, -, rfl⟩
  · exact position_of_includeItem? hinclude
  · rfl

theorem position_of_roleItem? {item : Item Node} {role : Role}
    (h : Role.ofItem? source item = some role) : role.position = item.position := by
  unfold Role.ofItem? at h
  dsimp only at h
  repeat' split at h
  all_goals cases h
  all_goals rfl

/-- The rows of the tasks of a node are behind the line where it begins. The nested
lists that the node's entries would make go along in the induction, for the tasks
of a list are made from the entries of its items. -/
theorem taskItems_behind {n : Node} (h : n.Nested range) :
    AllRows (Visit.Behind range.first) (taskItems source n) ∧
      ∀ entries, n.entries? = some entries →
        ∀ list ∈ (taskParts source false entries).filterMap (·.2.nested?),
          AllRows (Visit.Behind range.first) list.items := by
  induction h with
  | empty => exact ⟨⟨by simp [taskItems, row], by simp [taskItems]⟩, by simp [Node.entries?]⟩
  | scalar => exact ⟨⟨by simp [taskItems, row], by simp [taskItems]⟩, by simp [Node.entries?]⟩
  | mapping parts values ih =>
    refine ⟨⟨by simp [taskItems, row], by simp [taskItems]⟩, ?_⟩
    rintro _ ⟨⟩ list hlist
    obtain ⟨part, hpart, hnested⟩ := List.mem_filterMap.mp hlist
    obtain ⟨entry, hentry, found, rfl⟩ := exists_entry_of_mem_taskParts hpart
    rw [taskPart_nested hnested]
    have hfirst := (parts.within _ (List.mem_map_of_mem hentry)).1
    exact (ih entry hentry).1.imp fun _ => Visit.Behind.of_le hfirst
  | sequence parts values ih =>
    refine ⟨?_, by simp [Node.entries?]⟩
    rw [taskItems, taskItemsOf_eq_filterMap]
    refine ⟨row_filterMap_behind parts fun _ _ => position_of_taskItem?, fun item hitem => ?_⟩
    obtain ⟨raw, hraw, hitem⟩ := List.mem_filterMap.mp hitem
    have hfirst := (parts.within _ (List.mem_map_of_mem hraw)).1
    rcases taskItem?_cases hitem with ⟨i, -, rfl⟩ | ⟨entries, -, hentries, rfl⟩
    · exact allTasks_inclusion _ _
    · exact allTasks_rows_of_nested fun list hlist =>
        ((ih raw hraw).2 entries hentries list hlist).imp fun _ => Visit.Behind.of_le hfirst

theorem rolesOf_behind {n : Node} (h : n.Nested range) :
    ∀ visit ∈ row none ((rolesOf source n).map .role), visit.Behind range.first := by
  cases h with
  | sequence parts values => exact row_filterMap_behind parts fun _ _ => position_of_roleItem?
  | empty => simp [rolesOf, row]
  | scalar => simp [rolesOf, row]
  | mapping => simp [rolesOf, row]

theorem playSection?_behind {raw : Outline.Entry Node} {s : PlaySection}
    (nested : raw.value.Nested range) (h : playSection? source raw = some s) :
    s.items.AllRows (Visit.Behind range.first) := by
  rcases items_of_playSection? h with hitems | hitems
  · rw [hitems]
    exact rolesOf_behind nested
  · rw [hitems]
    exact (taskItems_behind nested).1

theorem SectionItems.AllRows.imp {Q R : Visit → Prop} (h : ∀ visit, Q visit → R visit)
    {s : SectionItems} (rows : s.AllRows Q) : s.AllRows R := by
  cases s with
  | tasks list => exact Playbook.AllRows.imp h rows
  | roles list => exact fun visit hvisit => h visit (rows visit hvisit)

/-- **Inside a block**, what has a part before it begins behind the first line of the
block. -/
theorem Block.visits_behind {value : Yaml.Value} {item : Item Node} {block : Block}
    (nested : item.value.Nested range) (h : Block.ofItem source value item = .ok block) :
    ∀ visit ∈ block.visits, visit.Behind range.first := by
  have halone : ∀ part, (Visit.alone part).Behind range.first := fun _ hprevious =>
    absurd rfl hprevious
  refine block.visits_forall (fun part _ => halone part) ?_ fun _ _ _ _ _ _ m _ => halone (.module m)
  intro play hplay s hs
  cases block with
  | inclusion i => cases hplay
  | play p =>
    obtain rfl := Option.some.inj hplay
    rw [play_of_ofItem h] at hs
    obtain ⟨raw, hraw, hs⟩ := List.mem_filterMap.mp hs
    obtain ⟨hfirst, hvalue⟩ := nested.of_entries?_getD raw hraw
    exact (playSection?_behind hvalue hs).imp fun _ => Visit.Behind.of_le hfirst

theorem position_of_block {value : Yaml.Value} {item : Item Node} {block : Block}
    (h : Block.ofItem source value item = .ok block) : block.part.position = item.position := by
  obtain ⟨-, ⟨-, rfl⟩ | ⟨-, i, hinclude, rfl⟩⟩ := Block.ofItem_cases h
  · rfl
  · exact position_of_includeItem? hinclude

/-- Every item makes a block, and the blocks stand in the order of the items. -/
theorem blocksOf_forall₂ {values : List Yaml.Value} {items : List (Item Node)}
    {blocks : List Block} (length : items.length = values.length)
    (h : blocksOf source values items = .ok blocks) :
    List.Forall₂ (fun item block => ∃ value, Block.ofItem source value item = .ok block)
      items blocks := by
  have hitems : (values.zip items).map Prod.snd = items := List.map_snd_zip length.le
  rw [← hitems, List.forall₂_map_left_iff]
  exact (blocksOf_zip h).imp fun pair block hmade => ⟨pair.1, hmade⟩

/-- **In a playbook**, what has a part before it begins behind the line of the first
block. -/
theorem visitsOfBlocks_behind {values : List Yaml.Value} {position : Position}
    {items : List (Item Node)} {blocks : List Block}
    (nested : (Node.sequence position items).Nested range) (length : items.length = values.length)
    (h : blocksOf source values items = .ok blocks) :
    ∀ visit ∈ visitsOfBlocks none blocks, visit.Behind range.first := by
  have hbuilt := blocksOf_forall₂ length h
  have hpositions : (blocks.map Block.part).map Part.position = items.map Item.position := by
    rw [List.map_map, eq_comm, ← List.forall₂_eq_eq_eq, List.forall₂_map_left_iff,
      List.forall₂_map_right_iff]
    exact hbuilt.imp fun _ _ ⟨_, hblock⟩ => (position_of_block hblock).symm
  have hsnd : (items.zip blocks).map Prod.snd = blocks := List.map_snd_zip hbuilt.length_eq.ge
  cases nested with
  | sequence parts hvalues =>
    refine visitsOfBlocks_forall (row_behind ?_) fun block hblock => ?_
    · rw [hpositions]
      exact downwards_of_consecutive parts
    · rw [← hsnd] at hblock
      obtain ⟨⟨item, block⟩, hpair, rfl⟩ := List.mem_map.mp hblock
      have hitem := (List.of_mem_zip hpair).1
      obtain ⟨value, hblock⟩ := (List.forall₂_iff_zip.mp hbuilt).2 hpair
      have hfirst := (parts.within _ (List.mem_map_of_mem hitem)).1
      exact fun visit hvisit =>
        (Block.visits_behind (hvalues item hitem) hblock visit hvisit).of_le hfirst

end Behind

end PlaybookStyle.Playbook
