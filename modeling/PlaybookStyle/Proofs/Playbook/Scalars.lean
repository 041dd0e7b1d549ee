/-
Where the scalars on the walk come from.

Every scalar on the walk over a playbook, and the target of every include on it,
is made from a scalar of the outline, under some key and in some scope
(`visits_made`). The kind of a scalar is therefore the one its style, its text,
its key and its scope give it (`Scalar.Typed`), wherever the walk meets it.
-/

import PlaybookStyle.Proofs.Outline.Following
import PlaybookStyle.Proofs.Playbook.Reached

namespace PlaybookStyle

/-- A property holds of every scalar in a node. -/
inductive Outline.Node.Scalars (A : Outline.Scalar → Prop) : Outline.Node → Prop
  | empty : Scalars A .empty
  | scalar {s : Outline.Scalar} (h : A s) : Scalars A (.scalar s)
  | sequence {position : Position} {items : List (Outline.Item Outline.Node)}
      (values : ∀ item ∈ items, Scalars A item.value) : Scalars A (.sequence position items)
  | mapping {position : Position} {entries : List (Outline.Entry Outline.Node)}
      (values : ∀ entry ∈ entries, Scalars A entry.value) : Scalars A (.mapping position entries)

namespace Outline.Node.Scalars

variable {A : Outline.Scalar → Prop} {n : Outline.Node}

theorem of_entries? {entries : List (Outline.Entry Outline.Node)} (h : n.Scalars A)
    (hentries : n.entries? = some entries) : ∀ entry ∈ entries, entry.value.Scalars A := by
  cases h with
  | mapping values =>
    obtain rfl := Option.some.inj hentries
    exact values
  | empty => cases hentries
  | scalar => cases hentries
  | sequence => cases hentries

theorem of_scalar? {s : Outline.Scalar} (h : n.Scalars A) (hscalar : n.scalar? = some s) : A s := by
  cases h with
  | scalar h =>
    obtain rfl := Option.some.inj hscalar
    exact h
  | empty => cases hscalar
  | mapping => cases hscalar
  | sequence => cases hscalar

/-- The scalars in a collection are the values of its keys and dashes. -/
theorem of_holds (collection : n.scalar? = none)
    (h : ∀ holder last s, n.Holds holder last s → A s) : n.Scalars A := by
  induction n using Outline.Node.allEntries.induct with
  | case1 position entries ih =>
    refine .mapping fun entry hentry => ?_
    cases hvalue : entry.value with
    | scalar s => exact .scalar (h _ _ s (.entry hentry hvalue))
    | empty => exact .empty
    | mapping | sequence =>
      rw [← hvalue]
      exact ih entry hentry (by rw [hvalue]; rfl) fun holder last s hs =>
        h holder last s (.inEntry hentry hs)
  | case2 position items ih =>
    refine .sequence fun item hitem => ?_
    cases hvalue : item.value with
    | scalar s => exact .scalar (h _ _ s (.item hitem hvalue))
    | empty => exact .empty
    | mapping | sequence =>
      rw [← hvalue]
      exact ih item hitem (by rw [hvalue]; rfl) fun holder last s hs =>
        h holder last s (.inItem hitem hs)
  | case3 => cases collection
  | case4 => exact .empty

end Outline.Node.Scalars

namespace Playbook

/-! ### Scalars of the outline in a playbook -/

variable {A : Outline.Scalar → Prop}

/-- A scalar made from one of the outline that has a property. -/
def Scalar.MadeOf (A : Outline.Scalar → Prop) (s : Scalar) : Prop :=
  ∃ origin key? scope, A origin ∧ s = Scalar.ofOutline origin key? scope

/-- The scalar that a part is. -/
def Part.scalar? : Part → Option Scalar
  | .scalar s => some s
  | _ => none

theorem Part.eq_scalar_of_scalar? {part : Part} {s : Scalar} (h : part.scalar? = some s) :
    part = .scalar s := by
  cases part with
  | scalar found => exact congrArg Part.scalar (Option.some.inj h)
  | _ => cases h

/-- The scalar that a part is, or whose file it includes, is so made. -/
def Part.MadeOf (A : Outline.Scalar → Prop) : Part → Prop
  | .scalar s => s.MadeOf A
  | .inclusion i => i.target.MadeOf A
  | _ => True

/-- And all scalars on a walk are. -/
def AllMadeOf (A : Outline.Scalar → Prop) (visits : List Visit) : Prop :=
  ∀ visit ∈ visits, visit.part.MadeOf A

@[simp] theorem allMadeOf_nil : AllMadeOf A [] := by simp [AllMadeOf]

@[simp] theorem allMadeOf_cons {visit : Visit} {rest : List Visit} :
    AllMadeOf A (visit :: rest) ↔ visit.part.MadeOf A ∧ AllMadeOf A rest := by
  simp [AllMadeOf]

@[simp] theorem allMadeOf_append {a b : List Visit} :
    AllMadeOf A (a ++ b) ↔ AllMadeOf A a ∧ AllMadeOf A b := by
  simp [AllMadeOf, or_imp, forall_and]

theorem allMadeOf_flatMap {α : Type} {list : List α} {f : α → List Visit} :
    AllMadeOf A (list.flatMap f) ↔ ∀ a ∈ list, AllMadeOf A (f a) := by
  simp only [AllMadeOf, List.mem_flatMap]
  exact ⟨fun h a ha visit hvisit => h visit ⟨a, ha, hvisit⟩,
    fun h visit ⟨a, ha, hvisit⟩ => h a ha visit hvisit⟩

theorem madeOf_ofOutline {origin : Outline.Scalar} (h : A origin) (key? : Option String)
    (scope : Scope) : (Scalar.ofOutline origin key? scope).MadeOf A :=
  ⟨origin, key?, scope, h, rfl⟩

/-! ### Values, entries and calls -/

theorem ofNode_madeOf {n : Outline.Node} (h : n.Scalars A) (key? : Option String) (scope : Scope) :
    AllMadeOf A (Value.ofNode key? scope n).visits := by
  induction h generalizing key? scope with
  | empty => simp [Value.ofNode, Value.visits]
  | scalar hs =>
    rw [Value.ofNode, Value.visits]
    exact allMadeOf_cons.mpr ⟨madeOf_ofOutline hs key? scope, allMadeOf_nil⟩
  | sequence _ ih =>
    rw [Value.ofNode, Value.visits, visitsOfValues_eq_flatMap, itemsOf_eq_map, List.flatMap_map,
      allMadeOf_flatMap]
    exact fun item hitem => ih item hitem key? _
  | mapping _ ih =>
    rw [Value.ofNode, Value.visits, visitsOfEntries_eq_flatMap, entriesOf_eq_map, List.flatMap_map,
      allMadeOf_flatMap]
    intro entry hentry
    rw [entryOf_eq, visitsOfEntry_eq, allMadeOf_cons]
    exact ⟨trivial, ih entry hentry _ _⟩

theorem entryOf_madeOf {entry : Outline.Entry Outline.Node} (value : entry.value.Scalars A)
    (scope : Scope) (assigns : Bool) : AllMadeOf A (visitsOfEntry (entryOf scope assigns entry)) := by
  rw [entryOf_eq, visitsOfEntry_eq, allMadeOf_cons]
  exact ⟨trivial, ofNode_madeOf value _ _⟩

theorem ModuleCall.ofEntry_madeOf {entry : Outline.Entry Outline.Node}
    (value : entry.value.Scalars A) : AllMadeOf A (ModuleCall.ofEntry entry).visits := by
  refine allMadeOf_cons.mpr ⟨trivial, ?_⟩
  rw [ModuleCall.ofEntry]
  dsimp only
  split
  · rename_i s hs
    rw [hs] at value
    rw [Value.visits]
    exact allMadeOf_cons.mpr ⟨madeOf_ofOutline (value.of_scalar? rfl) _ _, allMadeOf_nil⟩
  · exact ofNode_madeOf value _ _

/-! ### Includes and tasks -/

variable {source : SourceLines}

/-- The include of an item, and all inside it. -/
theorem Include.ofItem?_madeOf {keywords : List String} {item : Outline.Item Outline.Node}
    {i : Include} (value : item.value.Scalars A)
    (h : Include.ofItem? source keywords item = some i) :
    (Part.inclusion i).MadeOf A ∧ AllMadeOf A i.visits := by
  simp only [Include.ofItem?, Option.bind_eq_bind, Option.bind_eq_some_iff, Option.pure_def] at h
  obtain ⟨entries, hentries, found, hfound, target, htarget, hi⟩ := h
  obtain rfl := Option.some.inj hi
  have hvalues := value.of_entries? hentries
  have hmade := madeOf_ofOutline
    ((hvalues found (List.mem_of_find?_eq_some hfound)).of_scalar? htarget) (some found.key)
    (.of .includeTarget)
  refine ⟨hmade, ?_⟩
  rw [Include.visits, allMadeOf_cons, visitsOfEntries_eq_flatMap, List.flatMap_map,
    allMadeOf_flatMap]
  exact ⟨hmade, fun entry hentry => entryOf_madeOf (hvalues entry (List.mem_of_mem_eraseP hentry)) _ _⟩

/-- An element of a task list, and all inside it. -/
def TaskItem.MadeOf (A : Outline.Scalar → Prop) (item : TaskItem) : Prop :=
  item.part.MadeOf A ∧ AllMadeOf A (visitsOfItem item)

theorem visitsOfItems_madeOf {list : List TaskItem} (h : ∀ item ∈ list, item.MadeOf A)
    (previous? : Option Part) : AllMadeOf A (visitsOfItems previous? list) := by
  induction list generalizing previous? with
  | nil => simp [visitsOfItems]
  | cons item rest ih =>
    rw [visitsOfItems, allMadeOf_cons, allMadeOf_append]
    obtain ⟨hitem, hrest⟩ := List.forall_mem_cons.mp h
    exact ⟨hitem.1, hitem.2, ih hrest _⟩

/-- What the walk meets under the key of a task's entry is an option, the elements
of a nested list, or the module, each made from some entry of the task. -/
theorem TaskOf.ofParts_madeOf {position : Position} {endLine : Nat}
    {entries : List (Outline.Entry Outline.Node)}
    (values : ∀ entry ∈ entries, entry.value.Scalars A)
    (lists : ∀ entry ∈ entries, ∀ item ∈ taskItems source entry.value, item.MadeOf A) :
    (TaskItem.task (TaskOf.ofParts source position endLine
      (taskParts source false entries))).MadeOf A := by
  refine ⟨trivial, ?_⟩
  rw [visitsOfItem, visitsOfTask_eq, allMadeOf_flatMap]
  intro field _
  unfold TaskOf.visitsOfField
  split
  · rename_i option hoption
    rw [entryOf?_taskParts] at hoption
    obtain ⟨entry, hentry, rfl⟩ := Option.map_eq_some_iff.mp hoption
    have hmem := (List.mem_filter.mp (List.mem_of_find?_eq_some hentry)).1
    exact entryOf_madeOf (values entry (List.mem_of_mem_eraseP hmem)) _ _
  · split
    · rename_i visits hvisits
      rw [lookup_taskParts] at hvisits
      obtain ⟨entry, hentry, rfl⟩ := Option.map_eq_some_iff.mp hvisits
      have hmem := (List.mem_filter.mp (List.mem_of_find?_eq_some hentry)).1
      exact visitsOfItems_madeOf (lists entry hmem) none
    · rw [allMadeOf_flatMap]
      intro call hcall
      have hmodule := (Option.mem_filter_iff.mp (Option.mem_toList.mp hcall)).1
      rw [TaskOf.ofParts, module_taskParts] at hmodule
      obtain ⟨entry, hentry, rfl⟩ := Option.map_eq_some_iff.mp hmodule
      exact ModuleCall.ofEntry_madeOf (values entry (List.mem_of_find?_eq_some hentry))

/-- The task lists of a node. The lists below its entries go along in the induction,
for the tasks of a list are made from the entries of its items. -/
theorem taskItems_madeOf {n : Outline.Node} (h : n.Scalars A) :
    (∀ item ∈ taskItems source n, item.MadeOf A) ∧
      ∀ entries, n.entries? = some entries → ∀ entry ∈ entries,
        ∀ item ∈ taskItems source entry.value, item.MadeOf A := by
  induction h with
  | empty => exact ⟨by simp [taskItems], by simp [Outline.Node.entries?]⟩
  | scalar _ => exact ⟨by simp [taskItems], by simp [Outline.Node.entries?]⟩
  | mapping _ ih =>
    refine ⟨by simp [taskItems], ?_⟩
    rintro _ ⟨⟩ entry hentry
    exact (ih entry hentry).1
  | sequence values ih =>
    refine ⟨?_, by simp [Outline.Node.entries?]⟩
    intro item hitem
    obtain ⟨raw, hraw, hitem⟩ := exists_made_of_mem_taskItems hitem
    rcases taskItem?_cases hitem with ⟨i, hinclude, rfl⟩ | ⟨entries, -, hentries, rfl⟩
    · exact Include.ofItem?_madeOf (values raw hraw) hinclude
    · exact TaskOf.ofParts_madeOf ((values raw hraw).of_entries? hentries)
        ((ih raw hraw).2 entries hentries)

/-! ### Roles and plays -/

theorem roleEntry_madeOf {entry : Outline.Entry Outline.Node} (value : entry.value.Scalars A) :
    AllMadeOf A (visitsOfEntry (roleEntry entry)) := by
  unfold roleEntry
  dsimp only
  split_ifs <;> exact entryOf_madeOf value _ _

theorem Role.ofItem?_madeOf {item : Outline.Item Outline.Node} {role : Role}
    (value : item.value.Scalars A) (h : Role.ofItem? source item = some role) :
    AllMadeOf A role.visits := by
  unfold Role.ofItem? at h
  dsimp only at h
  split at h
  · rename_i s hs
    have hscalar : A s := value.of_scalar? (by rw [hs]; rfl)
    split at h
    all_goals
      obtain rfl := Option.some.inj h
      exact allMadeOf_cons.mpr ⟨madeOf_ofOutline hscalar _ _, allMadeOf_nil⟩
  · rename_i entries hentries
    obtain rfl := Option.some.inj h
    have hvalues := value.of_entries? (by rw [hentries]; rfl)
    rw [Role.visits]
    dsimp only
    rw [visitsOfEntries_eq_flatMap, List.flatMap_map, allMadeOf_flatMap]
    exact fun entry hentry => roleEntry_madeOf (hvalues entry hentry)
  all_goals cases h

theorem visitsOfRoles_madeOf {roles : List Role} (h : ∀ role ∈ roles, AllMadeOf A role.visits)
    (previous? : Option Part) : AllMadeOf A (visitsOfRoles previous? roles) := by
  induction roles generalizing previous? with
  | nil => simp [visitsOfRoles]
  | cons role rest ih =>
    rw [visitsOfRoles, allMadeOf_cons, allMadeOf_append]
    obtain ⟨hrole, hrest⟩ := List.forall_mem_cons.mp h
    exact ⟨trivial, hrole, ih hrest _⟩

theorem rolesOf_madeOf {n : Outline.Node} (h : n.Scalars A) :
    AllMadeOf A (visitsOfRoles none (rolesOf source n)) := by
  refine visitsOfRoles_madeOf ?_ none
  cases h with
  | sequence values =>
    intro role hrole
    obtain ⟨item, hitem, hrole⟩ := List.mem_filterMap.mp hrole
    exact Role.ofItem?_madeOf (values item hitem) hrole
  | empty => simp [rolesOf]
  | scalar => simp [rolesOf]
  | mapping => simp [rolesOf]

theorem playSection?_madeOf {entry : Outline.Entry Outline.Node} {s : PlaySection}
    (value : entry.value.Scalars A) (h : playSection? source entry = some s) :
    AllMadeOf A s.items.visits := by
  rcases items_of_playSection? h with hitems | hitems
  · rw [hitems]
    exact rolesOf_madeOf value
  · rw [hitems]
    exact visitsOfItems_madeOf (taskItems_madeOf value).1 none

theorem Play.ofItem_madeOf {item : Outline.Item Outline.Node} (value : item.value.Scalars A) :
    AllMadeOf A (Play.ofItem source item).visits := by
  have hraw : ∀ entry ∈ item.value.entries?.getD [], entry.value.Scalars A := by
    cases hentries : item.value.entries? with
    | none => simp
    | some entries => exact value.of_entries? hentries
  rw [Play.visits, allMadeOf_flatMap]
  intro field _
  unfold Play.visitsOfField
  split
  · rename_i option hoption
    obtain ⟨raw, hmem, hmade⟩ := List.mem_filterMap.mp (List.mem_of_find?_eq_some hoption)
    rw [playEntry?_eq] at hmade
    split at hmade
    · cases hmade
    · obtain rfl := Option.some.inj hmade
      exact entryOf_madeOf (hraw raw hmem) _ _
  · rw [allMadeOf_flatMap]
    intro s hs
    obtain ⟨raw, hmem, hmade⟩ :=
      List.mem_filterMap.mp (List.mem_of_find?_eq_some (Option.mem_toList.mp hs))
    exact playSection?_madeOf (hraw raw hmem) hmade

/-! ### Playbooks -/

theorem Block.ofItem_madeOf {value : Yaml.Value} {item : Outline.Item Outline.Node}
    {block : Block} (hvalue : item.value.Scalars A)
    (h : Block.ofItem source value item = .ok block) :
    block.part.MadeOf A ∧ AllMadeOf A block.visits := by
  obtain ⟨-, ⟨-, rfl⟩ | ⟨-, i, hinclude, rfl⟩⟩ := Block.ofItem_cases h
  · exact ⟨trivial, Play.ofItem_madeOf hvalue⟩
  · exact Include.ofItem?_madeOf hvalue hinclude

theorem visitsOfBlocks_madeOf {blocks : List Block}
    (h : ∀ block ∈ blocks, block.part.MadeOf A ∧ AllMadeOf A block.visits)
    (previous? : Option Part) : AllMadeOf A (visitsOfBlocks previous? blocks) := by
  induction blocks generalizing previous? with
  | nil => simp [visitsOfBlocks]
  | cons block rest ih =>
    rw [visitsOfBlocks, allMadeOf_cons, allMadeOf_append]
    obtain ⟨hblock, hrest⟩ := List.forall_mem_cons.mp h
    exact ⟨hblock.1, hblock.2, ih hrest _⟩

/-- **Every scalar on the walk is one of the outline**, the value of a key or of a
dash, and so is the target of every include. -/
theorem visits_made {path content : String} {playbook : Playbook}
    (parsed : Playbook.parse path content = .ok playbook) :
    AllMadeOf (fun s => ∃ holder last, (Outline.scan content.toList).root.Holds holder last s)
      playbook.visits := by
  obtain ⟨value, build⟩ := exists_build_of_parse parsed
  obtain ⟨-, items, position, hroot, values, -, hblocks⟩ := exists_blocksOf_of_build build
  have hscalars : (Outline.scan content.toList).root.Scalars fun s =>
      ∃ holder last, (Outline.scan content.toList).root.Holds holder last s :=
    .of_holds (by rw [hroot]; rfl) fun holder last s hs => ⟨holder, last, hs⟩
  refine allMadeOf_cons.mpr ⟨trivial, visitsOfBlocks_madeOf ?_ none⟩
  intro block hblock
  obtain ⟨pair, hpair, hmade⟩ := exists_of_mem_right (blocksOf_zip hblocks) hblock
  generalize hroot' : (Outline.scan content.toList).root = root at hscalars
  rw [hroot] at hroot'
  subst hroot'
  cases hscalars with
  | sequence hvalues => exact Block.ofItem_madeOf (hvalues _ (List.of_mem_zip hpair).2) hmade

/-- The kind of a scalar is what its style, text, key and scope say. -/
def Scalar.Typed (s : Scalar) : Prop :=
  s.kind = kindOf s.style s.text s.key? s.context s.module?

theorem Scalar.MadeOf.typed {s : Scalar} (h : s.MadeOf A) : s.Typed := by
  obtain ⟨origin, key?, scope, -, rfl⟩ := h
  rfl

end Playbook

end PlaybookStyle
