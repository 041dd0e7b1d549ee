/-
The entries that the walk reaches, and their colons.

An entry of an outline becomes an entry, the call of a module, or the keyword of an
include; each keeps the blanks around its colon (`Colon`). The key of a section or
of a nested list becomes none of them. The walk finds what a play or a task holds
by its keys, so of entries with one key it reaches one only. `Reached` says of an
entry of the outline whether the walk comes to it.

* `mem_colons_visits` — the colons on the walk are those of the entries reached.
-/

import PlaybookStyle.Proofs.Playbook.Accepted
import PlaybookStyle.Proofs.Playbook.Visits

namespace PlaybookStyle

/-- A key with the blanks around its colon. -/
structure Colon where
  key : String
  position : Position
  spacing : KeySpacing
deriving DecidableEq, Repr

def Outline.Entry.colon {α : Type} (e : Entry α) : Colon := ⟨e.key, e.position, e.spacing⟩

namespace Playbook

open Outline (Node Item)

/-! ### What the walk reaches -/

/-- A nested task list stands under the key. -/
def opensList (key : String) : Bool := nestedKeys.contains key

/-- The entry is taken for the module of a task unless another one was. -/
def namesModule (entry : Outline.Entry Node) : Bool :=
  taskFieldKind false entry.key == .module && !opensList entry.key

/-- The entry of a task that the walk finds under a key: the first that has it, the
module after all others. -/
def answer? (entries : List (Outline.Entry Node)) (key : String) : Option (Outline.Entry Node) :=
  (entries.eraseP namesModule ++ (entries.find? namesModule).toList).find? (·.key == key)

/-- The item names an included file. -/
def namesFile (keywords : List String) (item : Item Node) : Bool :=
  (item.value.entries?.getD []).any (isTarget keywords)

/-- The walk over the task list of a node comes to the entry `e`: it goes through all
of an include, and through a task key by key. The key of a nested list is left out. -/
inductive ReachedInTasks (e : Outline.Entry Node) : Node → Prop
  | inclusion {position : Position} {items : List (Item Node)} {item : Item Node}
      (hitem : item ∈ items) (file : namesFile taskIncludes item = true)
      (within : e ∈ item.value.allEntries) : ReachedInTasks e (.sequence position items)
  | entry {position : Position} {items : List (Item Node)} {item : Item Node}
      {entries : List (Outline.Entry Node)} {outer : Outline.Entry Node}
      (hitem : item ∈ items) (file : namesFile taskIncludes item = false)
      (hentries : item.value.entries? = some entries)
      (answers : answer? entries outer.key = some outer)
      (plain : opensList outer.key = false)
      (covered : e ∈ outer.covered) : ReachedInTasks e (.sequence position items)
  | nested {position : Position} {items : List (Item Node)} {item : Item Node}
      {entries : List (Outline.Entry Node)} {outer : Outline.Entry Node}
      (hitem : item ∈ items) (file : namesFile taskIncludes item = false)
      (hentries : item.value.entries? = some entries)
      (answers : answer? entries outer.key = some outer)
      (nested : opensList outer.key = true)
      (inner : ReachedInTasks e outer.value) : ReachedInTasks e (.sequence position items)

/-- A section of a play stands under the key. -/
def opensSection (key : String) : Bool :=
  PlayFieldKind.ofKey key != .declaration && PlayFieldKind.ofKey key != .option

/-- The walk over a play comes to the entry `e`. The keys of sections are left out. -/
inductive ReachedInPlay (e : Outline.Entry Node) (entries : List (Outline.Entry Node)) : Prop
  | entry {outer : Outline.Entry Node}
      (first : entries.find? (·.key == outer.key) = some outer)
      (plain : opensSection outer.key = false)
      (covered : e ∈ outer.covered)
  | roles {outer : Outline.Entry Node} {position : Position} {items : List (Item Node)}
      {item : Item Node} (houter : outer ∈ entries) (kind : PlayFieldKind.ofKey outer.key = .roles)
      (hvalue : outer.value = .sequence position items) (hitem : item ∈ items)
      (mapping : item.value.entries?.isSome = true) (within : e ∈ item.value.allEntries)
  | tasks {outer : Outline.Entry Node} (houter : outer ∈ entries)
      (opens : opensSection outer.key = true) (kind : PlayFieldKind.ofKey outer.key ≠ .roles)
      (inner : ReachedInTasks e outer.value)

/-- The walk over the block of a top-level item with its value comes to the entry
`e`: it goes through all of an include. -/
def ReachedInBlock (e : Outline.Entry Node) (value : Yaml.Value) (item : Item Node) : Prop :=
  if (value.get? "hosts").isSome then ReachedInPlay e (item.value.entries?.getD [])
  else e ∈ item.value.allEntries

/-- The walk over the playbook in a content comes to the entry `e`. -/
def Reached (content : String) (e : Outline.Entry Node) : Prop :=
  ∃ values position items, Yaml.Value.read content = .ok (.sequence values) ∧
    (Outline.scan content.toList).root = .sequence position items ∧
    ∃ block ∈ values.zip items, ReachedInBlock e block.1 block.2

/-! ### Colons on a walk -/

/-- The colon that a part knows. -/
def Part.colon? : Part → Option Colon
  | .entry e => some ⟨e.key, e.position, e.spacing⟩
  | .module m => some ⟨m.name, m.position, m.spacing⟩
  | .inclusion i => some ⟨i.keyword, i.keywordPosition, i.spacing⟩
  | .document _ | .play _ | .task _ | .role _ | .scalar _ => none

def colons (visits : List Visit) : List Colon := visits.filterMap (·.part.colon?)

@[simp] theorem colons_nil : colons [] = [] := rfl

@[simp] theorem colons_cons (visit : Visit) (rest : List Visit) :
    colons (visit :: rest) = visit.part.colon?.toList ++ colons rest := by
  rw [colons, List.filterMap_cons]
  cases visit.part.colon? <;> rfl

@[simp] theorem colons_append (a b : List Visit) : colons (a ++ b) = colons a ++ colons b :=
  List.filterMap_append ..

@[simp] theorem colons_flatMap {α : Type} (list : List α) (f : α → List Visit) :
    colons (list.flatMap f) = list.flatMap fun a => colons (f a) :=
  List.filterMap_flatMap ..

/-! ### Values and entries -/

theorem colons_ofNode (n : Node) (key? : Option String) (scope : Scope) :
    colons (Value.ofNode key? scope n).visits = n.allEntries.map Outline.Entry.colon := by
  induction n using Outline.Node.allEntries.induct generalizing key? scope with
  | case1 position entries ih =>
    rw [Value.ofNode, Value.visits, visitsOfEntries_eq_flatMap, entriesOf_eq_map, List.flatMap_map,
      colons_flatMap, Node.allEntries_mapping, List.map_flatMap]
    refine List.flatMap_congr fun entry hentry => ?_
    rw [entryOf_eq, visitsOfEntry_eq, colons_cons, ih entry hentry]
    rfl
  | case2 position items ih =>
    rw [Value.ofNode, Value.visits, visitsOfValues_eq_flatMap, itemsOf_eq_map, List.flatMap_map,
      colons_flatMap, Node.allEntries_sequence, List.map_flatMap]
    exact List.flatMap_congr fun item hitem => ih item hitem _ _
  | case3 s => simp [Value.ofNode, Value.visits, Visit.alone, Part.colon?]
  | case4 => simp [Value.ofNode, Value.visits]

theorem colons_entryOf (scope : Scope) (assigns : Bool) (entry : Outline.Entry Node) :
    colons (visitsOfEntry (entryOf scope assigns entry)) =
      entry.covered.map Outline.Entry.colon := by
  rw [entryOf_eq, visitsOfEntry_eq, colons_cons, colons_ofNode]
  rfl

theorem colons_optionEntry (entry : Outline.Entry Node) :
    colons (visitsOfEntry (optionEntry entry)) = entry.covered.map Outline.Entry.colon :=
  colons_entryOf ..

theorem colons_roleEntry (entry : Outline.Entry Node) :
    colons (visitsOfEntry (roleEntry entry)) = entry.covered.map Outline.Entry.colon := by
  unfold roleEntry
  dsimp only
  split_ifs <;> exact colons_entryOf ..

theorem colons_visitsOfEntries {entries : List (Outline.Entry Node)}
    {make : Outline.Entry Node → Entry}
    (h : ∀ entry, colons (visitsOfEntry (make entry)) = entry.covered.map Outline.Entry.colon) :
    colons (visitsOfEntries (entries.map make)) =
      (entries.flatMap Outline.Entry.covered).map Outline.Entry.colon := by
  rw [visitsOfEntries_eq_flatMap, List.flatMap_map, colons_flatMap, List.map_flatMap]
  exact List.flatMap_congr fun entry _ => h entry

/-- The call of a module has the colons of its entry. -/
theorem colons_ofEntry (entry : Outline.Entry Node) :
    colons (ModuleCall.ofEntry entry).visits = entry.covered.map Outline.Entry.colon := by
  have hargs : colons (ModuleCall.ofEntry entry).args.visits =
      entry.value.allEntries.map Outline.Entry.colon := by
    rw [ModuleCall.ofEntry]
    dsimp only
    split
    · rename_i s hs
      simp [hs, Value.visits, Visit.alone, Part.colon?]
    · exact colons_ofNode ..
  rw [ModuleCall.visits, colons_cons, hargs]
  rfl

/-! ### Includes -/

section Items

variable {source : SourceLines}

theorem isSome_ofItem? (keywords : List String) (item : Item Node) :
    (Include.ofItem? source keywords item).isSome = namesFile keywords item := by
  rw [namesFile, Include.ofItem?]
  cases item.value.entries? with
  | none => rfl
  | some entries =>
    have hany : entries.any (isTarget keywords) = (entries.find? (isTarget keywords)).isSome := by
      rw [Bool.eq_iff_iff, List.any_eq_true, List.find?_isSome]
    rw [Option.bind_eq_bind, Option.bind_some, Option.getD_some, hany]
    cases hfound : entries.find? (isTarget keywords) with
    | none => rfl
    | some found =>
      have htarget := List.find?_some hfound
      rw [isTarget, Bool.and_eq_true] at htarget
      obtain ⟨target, htarget⟩ := Option.isSome_iff_exists.mp htarget.2
      simp [htarget]

/-- The first element that has a property, put before the others. -/
theorem perm_cons_eraseP {α : Type} {p : α → Bool} {list : List α} {a : α}
    (h : list.find? p = some a) : list.Perm (a :: list.eraseP p) := by
  obtain ⟨ha, before, after, rfl, hbefore⟩ := List.find?_eq_some_iff_append.mp h
  have hnone : ∀ b ∈ before, ¬p b = true := by simpa using hbefore
  rw [List.eraseP_append_right _ hnone, List.eraseP_cons_of_pos ha]
  exact List.perm_middle

/-- An include has the colons of all entries of its item. -/
theorem mem_colons_ofItem? {keywords : List String} {item : Item Node} {i : Include}
    (h : Include.ofItem? source keywords item = some i) (c : Colon) :
    c ∈ (Part.inclusion i).colon?.toList ++ colons i.visits ↔
      ∃ e ∈ item.value.allEntries, e.colon = c := by
  simp only [Include.ofItem?, Option.bind_eq_bind, Option.bind_eq_some_iff, Option.pure_def] at h
  obtain ⟨entries, hentries, found, hfound, target, htarget, hi⟩ := h
  obtain ⟨hkeyword, hothers⟩ : (Part.inclusion i).colon? = some found.colon ∧
      i.entries = (entries.eraseP (isTarget keywords)).map optionEntry := by
    cases hi
    exact ⟨rfl, rfl⟩
  have hscalar : found.value.allEntries = [] :=
    Node.allEntries_of_scalar? (Option.isSome_of_mem htarget)
  have hcovered : found.covered = [found] := by rw [Outline.Entry.covered, hscalar]
  have hperm : item.value.allEntries.Perm
      (found :: (entries.eraseP (isTarget keywords)).flatMap Outline.Entry.covered) := by
    rw [Node.allEntries_of_entries? hentries]
    refine ((perm_cons_eraseP hfound).flatMap_right Outline.Entry.covered).trans ?_
    rw [List.flatMap_cons, hcovered]
    rfl
  have hcolons : (Part.inclusion i).colon?.toList ++ colons i.visits =
      (found :: (entries.eraseP (isTarget keywords)).flatMap Outline.Entry.covered).map
        Outline.Entry.colon := by
    rw [hkeyword, Include.visits, hothers, colons_cons,
      colons_visitsOfEntries colons_optionEntry]
    rfl
  rw [hcolons, List.mem_map]
  simp only [hperm.mem_iff]

/-! ### Tasks -/

theorem taskFieldKind_of_nested {key : String} (h : opensList key = true)
    (found : Bool) : taskFieldKind found key = .module := by
  have hkey : key ∈ nestedKeys := List.contains_iff_mem.mp h
  simp only [nestedKeys, List.mem_cons, List.not_mem_nil, or_false] at hkey
  rcases hkey with rfl | rfl | rfl <;> cases found <;> decide

theorem plain_of_namesModule {entry : Outline.Entry Node} (h : namesModule entry = true) :
    opensList entry.key = false := by
  rw [namesModule, Bool.and_eq_true] at h
  simpa using h.2

/-- What an entry contributes to a task, told by its key. -/
theorem snd_taskPart (found : Bool) (entry : Outline.Entry Node) :
    (taskPart source found entry).2 =
      if opensList entry.key then
        .nested ⟨entry.key, entry.position, taskItems source entry.value⟩
      else if namesModule entry && !found then .module (.ofEntry entry)
      else .entry (optionEntry entry) := by
  obtain ⟨key, position, spacing, value, endLine⟩ := entry
  rw [taskPart]
  dsimp only
  cases hnested : opensList key with
  | true =>
    rw [if_pos (taskFieldKind_of_nested hnested found)]
    exact if_pos hnested
  | false =>
    rw [if_neg (show ¬nestedKeys.contains key = true from Bool.eq_false_iff.mp hnested),
      if_neg Bool.false_ne_true]
    have hmodule : (taskFieldKind found key = .module) ↔
        (namesModule ⟨key, position, spacing, value, endLine⟩ && !found) = true := by
      cases found with
      | false => simp [namesModule, hnested]
      | true =>
        refine iff_of_false (fun h => ?_) (by simp)
        exact absurd (contains_nestedKeys_of_taskFieldKind h) (Bool.eq_false_iff.mp hnested)
    exact if_congr hmodule rfl rfl

/-- The entries of a task that are made from its options, the module left out. -/
theorem entries_taskParts (found : Bool) (entries : List (Outline.Entry Node)) :
    (taskParts source found entries).filterMap (·.2.entryOf?) =
      ((if found then entries else entries.eraseP namesModule).filter fun entry =>
        !opensList entry.key).map optionEntry := by
  induction entries generalizing found with
  | nil => cases found <;> rfl
  | cons entry rest ih =>
    rw [taskParts, List.filterMap_cons, ih, snd_taskPart]
    cases hnested : opensList entry.key with
    | true =>
      have hmodule : namesModule entry = false := by simp [namesModule, hnested]
      cases found <;> simp [hnested, hmodule, TaskPart.entryOf?, TaskPart.module?]
    | false =>
      cases hmodule : namesModule entry <;> cases found <;>
        simp [hnested, hmodule, TaskPart.entryOf?, TaskPart.module?]

theorem nested_taskParts (found : Bool) (entries : List (Outline.Entry Node)) :
    (taskParts source found entries).filterMap (·.2.nested?) =
      (entries.filter fun entry => opensList entry.key).map fun entry =>
        ⟨entry.key, entry.position, taskItems source entry.value⟩ := by
  induction entries generalizing found with
  | nil => rfl
  | cons entry rest ih =>
    rw [taskParts, List.filterMap_cons, ih, snd_taskPart]
    cases hnested : opensList entry.key with
    | true => simp [hnested, TaskPart.nested?]
    | false =>
      cases hmodule : namesModule entry <;> cases found <;>
        simp [hnested, TaskPart.nested?]

/-- A list in a task is that of an entry with a key that opens lists. -/
theorem exists_entry_of_mem_nested {found : Bool} {entries : List (Outline.Entry Node)}
    {nested : Nested} (h : nested ∈ (taskParts source found entries).filterMap (·.2.nested?)) :
    ∃ entry ∈ entries, opensList entry.key = true ∧
      nested = ⟨entry.key, entry.position, taskItems source entry.value⟩ := by
  rw [nested_taskParts] at h
  obtain ⟨entry, hentry, rfl⟩ := List.mem_map.mp h
  obtain ⟨hentry, hopens⟩ := List.mem_filter.mp hentry
  exact ⟨entry, hentry, hopens, rfl⟩

theorem module_taskParts (entries : List (Outline.Entry Node)) :
    (taskParts source false entries).findSome? (·.2.module?) =
      (entries.find? namesModule).map ModuleCall.ofEntry := by
  induction entries with
  | nil => rfl
  | cons entry rest ih =>
    rw [taskParts, List.findSome?_cons, snd_taskPart, List.find?_cons]
    cases hnested : opensList entry.key with
    | true =>
      have hmodule : namesModule entry = false := by simp [namesModule, hnested]
      rw [hmodule]
      exact ih
    | false =>
      cases hmodule : namesModule entry with
      | true => rfl
      | false => exact ih

section Finding

variable {α β : Type} {list : List α} {p q : α → Bool}

theorem find?_filter_of_imp (h : ∀ a, q a = true → p a = true) :
    (list.filter p).find? q = list.find? q := by
  rw [List.find?_filter]
  congr 1
  funext a
  cases hq : q a with
  | false => simp
  | true => simp [h a hq]

theorem find?_filter_eq_none (h : ∀ a, q a = true → p a = false) :
    (list.filter p).find? q = none := by
  rw [List.find?_eq_none]
  intro a ha hq
  rw [List.mem_filter, h a hq] at ha
  cases ha.2

theorem find?_eraseP_of_imp (h : ∀ a, q a = true → p a = false) :
    (list.eraseP p).find? q = list.find? q := by
  induction list with
  | nil => rfl
  | cons a rest ih =>
    cases hp : p a with
    | true =>
      have hq : q a = false := Bool.eq_false_iff.mpr fun hq => by simp [h a hq] at hp
      rw [List.eraseP_cons_of_pos hp, List.find?_cons_of_neg (by simp [hq])]
    | false =>
      rw [List.eraseP_cons_of_neg (by simp [hp]), List.find?_cons, List.find?_cons, ih]

theorem lookup_map_pair (list : List α) (key : α → String) (value : α → β) (name : String) :
    (list.map fun a => (key a, value a)).lookup name =
      (list.find? (key · == name)).map value := by
  induction list with
  | nil => rfl
  | cons a rest ih =>
    rw [List.map_cons, List.lookup_cons, List.find?_cons, ih, Bool.beq_comm]
    cases key a == name <;> rfl

end Finding

theorem answer?_of_opensList {entries : List (Outline.Entry Node)} {key : String}
    (h : opensList key = true) : answer? entries key = entries.find? (·.key == key) := by
  have hplain : ∀ entry : Outline.Entry Node, (entry.key == key) = true →
      namesModule entry = false := by
    intro entry hkey
    obtain rfl := beq_iff_eq.mp hkey
    exact Bool.eq_false_iff.mpr fun hmodule => by simp [plain_of_namesModule hmodule] at h
  have hmodule : (entries.find? namesModule).toList.find? (·.key == key) = none := by
    rw [List.find?_eq_none]
    intro entry hentry hkey
    have := List.find?_some (Option.mem_toList.mp hentry)
    rw [hplain entry hkey] at this
    cases this
  rw [answer?, List.find?_append, find?_eraseP_of_imp hplain, hmodule, Option.or_none]

section Lookups

variable (position : Position) (endLine : Nat) (entries : List (Outline.Entry Node)) (key : String)

/-- The entry that is found is made from the first option that has the key. -/
theorem entryOf?_taskParts :
    (TaskOf.ofParts source position endLine (taskParts source false entries)).entryOf? key =
      (((entries.eraseP namesModule).filter fun entry => !opensList entry.key).find?
        (·.key == key)).map optionEntry := by
  have hkey : ((·.key == key) ∘ optionEntry) = fun entry => entry.key == key := by
    funext entry
    rw [Function.comp_apply, optionEntry, entryOf_eq]
  rw [TaskOf.entryOf?, TaskOf.ofParts]
  dsimp only
  rw [entries_taskParts, List.find?_map, hkey]
  rfl

/-- The nested list that is found is made from the first entry that has the key. -/
theorem lookup_taskParts :
    (visitsOfNested
      (TaskOf.ofParts source position endLine (taskParts source false entries)).nested).lookup key =
      ((entries.filter fun entry => opensList entry.key).find? (·.key == key)).map
        fun entry => visitsOfItems none (taskItems source entry.value) := by
  rw [visitsOfNested_eq_map, TaskOf.ofParts]
  dsimp only
  rw [nested_taskParts, List.map_map]
  exact lookup_map_pair _ _ _ _

theorem name_ofEntry (entry : Outline.Entry Node) : (ModuleCall.ofEntry entry).name = entry.key :=
  rfl

variable {entries} {key}

/-- Under a key without a nested list the walk meets the colons of an option, or of
the module. -/
theorem colons_visitsOfField_plain (plain : opensList key = false) (kind : TaskFieldKind)
    (place : Position) :
    let t := TaskOf.ofParts source position endLine (taskParts source false entries)
    colons (t.visitsOfField (visitsOfNested t.nested) ⟨kind, key, place⟩) =
      ((answer? entries key).map fun outer => outer.covered.map Outline.Entry.colon).getD [] := by
  intro t
  have hfirst : ((entries.eraseP namesModule).filter fun entry => !opensList entry.key).find?
      (·.key == key) = (entries.eraseP namesModule).find? (·.key == key) :=
    find?_filter_of_imp fun entry hkey => by rw [beq_iff_eq.mp hkey, plain]; rfl
  have hnone : (entries.filter fun entry => opensList entry.key).find? (·.key == key) = none :=
    find?_filter_eq_none fun entry hkey => by rw [beq_iff_eq.mp hkey, plain]
  have hmodule : t.module? = (entries.find? namesModule).map ModuleCall.ofEntry :=
    module_taskParts entries
  unfold TaskOf.visitsOfField
  rw [entryOf?_taskParts, lookup_taskParts, hmodule, hfirst, hnone, answer?, List.find?_append]
  cases (entries.eraseP namesModule).find? (·.key == key) with
  | some outer => exact colons_optionEntry outer
  | none =>
    cases entries.find? namesModule with
    | none => rfl
    | some call =>
      cases hkey : call.key == key with
      | true => simp [Option.filter_some, name_ofEntry, hkey, colons_ofEntry]
      | false => simp [Option.filter_some, name_ofEntry, hkey]

/-- Under the key of a nested list the walk goes through the first list that has it. -/
theorem visitsOfField_list (opens : opensList key = true) (kind : TaskFieldKind)
    (place : Position) :
    let t := TaskOf.ofParts source position endLine (taskParts source false entries)
    t.visitsOfField (visitsOfNested t.nested) ⟨kind, key, place⟩ =
      ((answer? entries key).map fun outer =>
        visitsOfItems none (taskItems source outer.value)).getD [] := by
  intro t
  have hnone : ((entries.eraseP namesModule).filter fun entry => !opensList entry.key).find?
      (·.key == key) = none :=
    find?_filter_eq_none fun entry hkey => by rw [beq_iff_eq.mp hkey, opens]; rfl
  have hfirst : (entries.filter fun entry => opensList entry.key).find? (·.key == key) =
      entries.find? (·.key == key) :=
    find?_filter_of_imp fun entry hkey => by rw [beq_iff_eq.mp hkey, opens]
  have hmodule : t.module? = (entries.find? namesModule).map ModuleCall.ofEntry :=
    module_taskParts entries
  unfold TaskOf.visitsOfField
  rw [entryOf?_taskParts, lookup_taskParts, hmodule, hnone, hfirst, answer?_of_opensList opens]
  cases entries.find? (·.key == key) with
  | some outer => rfl
  | none =>
    cases hcall : entries.find? namesModule with
    | none => rfl
    | some call =>
      have hkey : (call.key == key) = false := by
        refine beq_eq_false_iff_ne.mpr fun hkey => ?_
        have hplain := plain_of_namesModule (List.find?_some hcall)
        rw [hkey, opens] at hplain
        cases hplain
      simp [Option.filter_some, name_ofEntry, hkey]

/-- Under the key of a nested list the walk meets the colons of its elements. -/
theorem colons_visitsOfField_list (opens : opensList key = true) (kind : TaskFieldKind)
    (place : Position) :
    let t := TaskOf.ofParts source position endLine (taskParts source false entries)
    colons (t.visitsOfField (visitsOfNested t.nested) ⟨kind, key, place⟩) =
      ((answer? entries key).map fun outer =>
        colons (visitsOfItems none (taskItems source outer.value))).getD [] := by
  intro t
  rw [visitsOfField_list _ _ opens]
  cases answer? entries key <;> rfl

end Lookups

theorem colons_visitsOfItems (list : List TaskItem) (previous? : Option Part) :
    colons (visitsOfItems previous? list) =
      list.flatMap fun item => item.part.colon?.toList ++ colons (visitsOfItem item) := by
  induction list generalizing previous? with
  | nil => rw [visitsOfItems, colons_nil, List.flatMap_nil]
  | cons item rest ih =>
    rw [visitsOfItems, colons_cons, colons_append, ih, List.flatMap_cons, List.append_assoc]

theorem mem_flatMap_filterMap {α β γ : Type} {list : List α} {f : α → Option β} {g : β → List γ}
    {c : γ} : c ∈ (list.filterMap f).flatMap g ↔ ∃ a ∈ list, ∃ b, f a = some b ∧ c ∈ g b := by
  simp only [List.mem_flatMap, List.mem_filterMap]
  exact ⟨fun ⟨b, ⟨a, ha, hb⟩, hc⟩ => ⟨a, ha, b, hb, hc⟩,
    fun ⟨a, ha, b, hb, hc⟩ => ⟨b, ⟨a, ha, hb⟩, hc⟩⟩

theorem map_key_taskParts (found : Bool) (entries : List (Outline.Entry Node)) :
    (taskParts source found entries).map (·.1.key) = entries.map (·.key) := by
  induction entries generalizing found with
  | nil => rw [taskParts, List.map_nil, List.map_nil]
  | cons entry rest ih =>
    rw [taskParts, List.map_cons, ih, (taskPart_eq found entry).1, List.map_cons]

theorem key_of_answer? {entries : List (Outline.Entry Node)} {key : String}
    {outer : Outline.Entry Node} (h : answer? entries key = some outer) : outer.key = key := by
  rw [answer?] at h
  simpa using List.find?_some h

theorem mem_of_answer? {entries : List (Outline.Entry Node)} {key : String}
    {outer : Outline.Entry Node} (h : answer? entries key = some outer) : outer ∈ entries := by
  rw [answer?] at h
  rcases List.mem_append.mp (List.mem_of_find?_eq_some h) with houter | houter
  · exact List.mem_of_mem_eraseP houter
  · exact List.mem_of_find?_eq_some (Option.mem_toList.mp houter)

/-- The task has a part under every key that is answered. -/
theorem exists_part_of_answer? {entries : List (Outline.Entry Node)} {outer : Outline.Entry Node}
    {key : String} (h : answer? entries key = some outer) :
    ∃ part ∈ taskParts source false entries, part.1.key = outer.key := by
  have hkey : outer.key ∈ (taskParts source false entries).map (·.1.key) := by
    rw [map_key_taskParts]
    exact List.mem_map_of_mem (mem_of_answer? h)
  exact List.mem_map.mp hkey

/-- The colons under the entry `outer` of a task. -/
def UnderKey (source : SourceLines) (c : Colon) (outer : Outline.Entry Node) : Prop :=
  opensList outer.key = false ∧ c ∈ outer.covered.map Outline.Entry.colon ∨
    opensList outer.key = true ∧ c ∈ colons (visitsOfItems none (taskItems source outer.value))

/-- The walk over a task meets the colons under the entries that answer. -/
theorem mem_colons_task {position : Position} {endLine : Nat}
    {entries : List (Outline.Entry Node)} {c : Colon} :
    c ∈ colons (visitsOfItem
        (.task (TaskOf.ofParts source position endLine (taskParts source false entries)))) ↔
      ∃ outer, answer? entries outer.key = some outer ∧ UnderKey source c outer := by
  have hfield : ∀ part ∈ taskParts source false entries,
      c ∈ colons ((TaskOf.ofParts source position endLine
          (taskParts source false entries)).visitsOfField
        (visitsOfNested (TaskOf.ofParts source position endLine
          (taskParts source false entries)).nested) part.1) ↔
        ∃ outer, answer? entries part.1.key = some outer ∧ UnderKey source c outer := by
    rintro ⟨⟨kind, key, place⟩, part⟩ -
    dsimp only
    cases hopens : opensList key with
    | true =>
      rw [colons_visitsOfField_list _ _ hopens]
      cases hanswer : answer? entries key with
      | none => simp
      | some outer => simp [UnderKey, key_of_answer? hanswer, hopens]
    | false =>
      rw [colons_visitsOfField_plain _ _ hopens]
      cases hanswer : answer? entries key with
      | none => simp
      | some outer => simp [UnderKey, key_of_answer? hanswer, hopens]
  rw [visitsOfItem, visitsOfTask_eq, colons_flatMap, List.mem_flatMap]
  constructor
  · rintro ⟨field, hmem, hc⟩
    obtain ⟨part, hpart, rfl⟩ := List.mem_map.mp hmem
    obtain ⟨outer, hanswer, hunder⟩ := (hfield part hpart).mp hc
    exact ⟨outer, by rwa [key_of_answer? hanswer], hunder⟩
  · rintro ⟨outer, hanswer, hunder⟩
    obtain ⟨part, hpart, hkey⟩ := exists_part_of_answer? hanswer
    exact ⟨part.1, List.mem_map_of_mem hpart, (hfield part hpart).mpr ⟨outer, by rwa [hkey], hunder⟩⟩

/-- The colons of a list item, as an include or as a task. -/
theorem mem_colons_taskItem? {item : Item Node} {c : Colon} :
    (∃ found, taskItem? source item = some found ∧
        c ∈ found.part.colon?.toList ++ colons (visitsOfItem found)) ↔
      namesFile taskIncludes item = true ∧ (∃ e ∈ item.value.allEntries, e.colon = c) ∨
        namesFile taskIncludes item = false ∧ ∃ entries outer, item.value.entries? = some entries ∧
          answer? entries outer.key = some outer ∧ UnderKey source c outer := by
  have hfile : namesFile taskIncludes item = (Include.ofItem? source taskIncludes item).isSome :=
    (isSome_ofItem? ..).symm
  rw [taskItem?_eq, hfile]
  cases hinclude : Include.ofItem? source taskIncludes item with
  | some i => simp [visitsOfItem, TaskItem.part, ← mem_colons_ofItem? hinclude]
  | none =>
    cases hentries : item.value.entries? with
    | none => simp
    | some entries => simp [TaskItem.part, Part.colon?, mem_colons_task]

/-- **In a task list** the walk meets the colons of the entries that it reaches. -/
theorem mem_colons_taskItems (n : Node) (c : Colon) :
    c ∈ colons (visitsOfItems none (taskItems source n)) ↔
      ∃ e, ReachedInTasks e n ∧ e.colon = c := by
  suffices h : (c ∈ colons (visitsOfItems none (taskItems source n)) ↔
      ∃ e, ReachedInTasks e n ∧ e.colon = c) ∧
        ∀ entries, n.entries? = some entries → ∀ outer ∈ entries,
          (c ∈ colons (visitsOfItems none (taskItems source outer.value)) ↔
            ∃ e, ReachedInTasks e outer.value ∧ e.colon = c) from h.1
  induction n using Outline.Node.allEntries.induct with
  | case1 position entries ih =>
    refine ⟨iff_of_false (by simp [taskItems, visitsOfItems]) ?_, ?_⟩
    · rintro ⟨e, he, -⟩
      cases he
    · rintro _ ⟨⟩ outer houter
      exact (ih outer houter).1
  | case2 position items ih =>
    refine ⟨?_, by simp [Outline.Node.entries?]⟩
    rw [taskItems, taskItemsOf_eq_filterMap, colons_visitsOfItems, mem_flatMap_filterMap]
    simp only [mem_colons_taskItem?]
    constructor
    · rintro ⟨item, hitem, ⟨file, e, within, rfl⟩ |
        ⟨file, entries, outer, hentries, answers, ⟨plain, hc⟩ | ⟨opens, hc⟩⟩⟩
      · exact ⟨e, .inclusion hitem file within, rfl⟩
      · obtain ⟨e, covered, rfl⟩ := List.mem_map.mp hc
        exact ⟨e, .entry hitem file hentries answers plain covered, rfl⟩
      · obtain ⟨e, inner, rfl⟩ :=
          ((ih item hitem).2 entries hentries outer (mem_of_answer? answers)).mp hc
        exact ⟨e, .nested hitem file hentries answers opens inner, rfl⟩
    · rintro ⟨e, he, rfl⟩
      cases he with
      | inclusion hitem file within => exact ⟨_, hitem, .inl ⟨file, e, within, rfl⟩⟩
      | entry hitem file hentries answers plain covered =>
        exact ⟨_, hitem, .inr ⟨file, _, _, hentries, answers,
          .inl ⟨plain, List.mem_map_of_mem covered⟩⟩⟩
      | nested hitem file hentries answers opens inner =>
        have hc := ((ih _ hitem).2 _ hentries _ (mem_of_answer? answers)).mpr ⟨e, inner, rfl⟩
        exact ⟨_, hitem, .inr ⟨file, _, _, hentries, answers, .inr ⟨opens, hc⟩⟩⟩
  | case3 s =>
    refine ⟨iff_of_false (by simp [taskItems, visitsOfItems]) ?_, by simp [Outline.Node.entries?]⟩
    rintro ⟨e, he, -⟩
    cases he
  | case4 =>
    refine ⟨iff_of_false (by simp [taskItems, visitsOfItems]) ?_, by simp [Outline.Node.entries?]⟩
    rintro ⟨e, he, -⟩
    cases he

/-! ### Roles -/

theorem colons_visitsOfRoles (roles : List Role) (previous? : Option Part) :
    colons (visitsOfRoles previous? roles) = roles.flatMap fun role => colons role.visits := by
  induction roles generalizing previous? with
  | nil => rw [visitsOfRoles, colons_nil, List.flatMap_nil]
  | cons role rest ih =>
    rw [visitsOfRoles, colons_cons, colons_append, ih, List.flatMap_cons]
    rfl

/-- The walk over a role goes through the entries of a block mapping. -/
theorem mem_colons_role {item : Item Node} {c : Colon} :
    (∃ role, Role.ofItem? source item = some role ∧ c ∈ colons role.visits) ↔
      item.value.entries?.isSome = true ∧ ∃ e ∈ item.value.allEntries, e.colon = c := by
  obtain ⟨position, value, endLine⟩ := item
  cases value with
  | scalar s =>
    refine iff_of_false ?_ (by simp [Outline.Node.entries?])
    rintro ⟨role, hrole, hc⟩
    rw [Role.ofItem?] at hrole
    dsimp only at hrole
    split_ifs at hrole <;> cases hrole <;> simp [Role.visits, Visit.alone, Part.colon?] at hc
  | mapping place entries =>
    have hcolons : colons (visitsOfEntries (entries.map roleEntry)) =
        (Outline.Node.mapping place entries).allEntries.map Outline.Entry.colon := by
      rw [colons_visitsOfEntries colons_roleEntry, Node.allEntries_mapping]
    simp [Role.ofItem?, Role.visits, hcolons, Outline.Node.entries?]
  | sequence => exact iff_of_false (by simp [Role.ofItem?]) (by simp [Outline.Node.entries?])
  | empty => exact iff_of_false (by simp [Role.ofItem?]) (by simp [Outline.Node.entries?])

/-! ### Plays -/

theorem playEntry?_eq (raw : Outline.Entry Node) :
    playEntry? raw =
      if opensSection raw.key then none else some (entryOf (playScope raw.key) false raw) := by
  unfold playEntry? opensSection
  cases PlayFieldKind.ofKey raw.key <;> rfl

theorem playSection?_eq (raw : Outline.Entry Node) :
    playSection? source raw =
      if opensSection raw.key then
        some ⟨PlayFieldKind.ofKey raw.key, raw.position,
          if PlayFieldKind.ofKey raw.key = .roles then .roles (rolesOf source raw.value)
          else .tasks (taskItems source raw.value)⟩
      else none := by
  unfold playSection? opensSection
  cases PlayFieldKind.ofKey raw.key <;> rfl

theorem opens_of_playSection? {raw : Outline.Entry Node} {s : PlaySection}
    (h : playSection? source raw = some s) :
    opensSection raw.key = true ∧
      s = ⟨PlayFieldKind.ofKey raw.key, raw.position,
        if PlayFieldKind.ofKey raw.key = .roles then .roles (rolesOf source raw.value)
        else .tasks (taskItems source raw.value)⟩ := by
  rw [playSection?_eq] at h
  split at h
  · rename_i opens
    exact ⟨opens, (Option.some.inj h).symm⟩
  · cases h

/-- The entry that is found under a key of a play is made from the first that has it. -/
theorem entryOf?_play (item : Item Node) (key : String) :
    (Play.ofItem source item).entryOf? key =
      if opensSection key then none
      else ((item.value.entries?.getD []).find? (·.key == key)).map fun outer =>
        entryOf (playScope outer.key) false outer := by
  have hkey : ∀ raw, ( playEntry? raw).any (·.key == key) =
      (!opensSection key && raw.key == key) := by
    intro raw
    rw [playEntry?_eq]
    by_cases h : raw.key = key
    · subst h
      cases opensSection raw.key <;> simp [entryOf_eq]
    · cases opensSection raw.key <;> simp [entryOf_eq, h]
  rw [Play.entryOf?, Play.ofItem, List.find?_filterMap]
  simp only [hkey]
  cases hopens : opensSection key with
  | true =>
    have hnone : (item.value.entries?.getD []).find? (fun raw => !true && raw.key == key) = none :=
      List.find?_eq_none.mpr (by simp)
    rw [hnone]
    rfl
  | false =>
    simp only [Bool.not_false, Bool.true_and, Bool.false_eq_true, if_false]
    cases hfind : (item.value.entries?.getD []).find? (·.key == key) with
    | none => rfl
    | some outer =>
      have houter : outer.key = key := by simpa using List.find?_some hfind
      rw [Option.bind_some, Option.map_some, playEntry?_eq, houter, hopens,
        if_neg Bool.false_ne_true]

/-- The walk over the items of a section meets the colons of the entries it reaches. -/
theorem mem_colons_section {raw : Outline.Entry Node} {s : PlaySection} {c : Colon}
    (h : playSection? source raw = some s) :
    c ∈ colons s.items.visits ↔
      (PlayFieldKind.ofKey raw.key = .roles ∧ ∃ position items,
        raw.value = .sequence position items ∧ ∃ item ∈ items,
          item.value.entries?.isSome = true ∧ ∃ e ∈ item.value.allEntries, e.colon = c) ∨
        (PlayFieldKind.ofKey raw.key ≠ .roles ∧ ∃ e, ReachedInTasks e raw.value ∧ e.colon = c) := by
  obtain ⟨-, rfl⟩ := opens_of_playSection? h
  dsimp only
  by_cases hroles : PlayFieldKind.ofKey raw.key = .roles
  · rw [if_pos hroles, SectionItems.visits, colons_visitsOfRoles]
    cases hvalue : raw.value with
    | sequence place list =>
      rw [rolesOf, mem_flatMap_filterMap]
      simp [hroles, mem_colons_role]
    | mapping => simp [rolesOf, hroles]
    | scalar => simp [rolesOf, hroles]
    | empty => simp [rolesOf, hroles]
  · rw [if_neg hroles, SectionItems.visits, mem_colons_taskItems]
    simp [hroles]

/-- Under a key that opens no section the walk over a play meets the colons of the
first entry that has it. -/
theorem exists_colons_playField {item : Item Node} {raw : Outline.Entry Node}
    (hraw : raw ∈ item.value.entries?.getD []) (plain : opensSection raw.key = false) :
    ∃ outer, (item.value.entries?.getD []).find? (·.key == raw.key) = some outer ∧
      colons ((Play.ofItem source item).visitsOfField
        ⟨PlayFieldKind.ofKey raw.key, raw.key, raw.position⟩) =
          outer.covered.map Outline.Entry.colon := by
  have hsome : ((item.value.entries?.getD []).find? (·.key == raw.key)).isSome = true :=
    List.find?_isSome.mpr ⟨raw, hraw, beq_self_eq_true _⟩
  obtain ⟨outer, houter⟩ := Option.isSome_iff_exists.mp hsome
  refine ⟨outer, houter, ?_⟩
  unfold Play.visitsOfField
  dsimp only
  rw [entryOf?_play, plain, if_neg Bool.false_ne_true, houter]
  exact colons_entryOf ..

/-- Under the key of a section the walk over a play goes through the section. -/
theorem exists_visitsOfField_section {item : Item Node} (ordered : item.value.Ordered)
    {raw : Outline.Entry Node} (hraw : raw ∈ item.value.entries?.getD [])
    (opens : opensSection raw.key = true) :
    ∃ s, playSection? source raw = some s ∧
      (Play.ofItem source item).visitsOfField
        ⟨PlayFieldKind.ofKey raw.key, raw.key, raw.position⟩ = s.items.visits := by
  have hsome : (playSection? source raw).isSome = true := by
    rw [playSection?_eq, if_pos opens]
    rfl
  obtain ⟨s, hs⟩ := Option.isSome_iff_exists.mp hsome
  refine ⟨s, hs, ?_⟩
  unfold Play.visitsOfField
  dsimp only
  rw [entryOf?_play, if_pos opens, find?_section rfl ordered.of_entries?_getD.1 hraw hs]
  exact List.flatMap_singleton ..

/-- **In a play** the walk meets the colons of the entries that it reaches. -/
theorem mem_colons_play {item : Item Node} (ordered : item.value.Ordered) {c : Colon} :
    c ∈ colons (Play.ofItem source item).visits ↔
      ∃ e, ReachedInPlay e (item.value.entries?.getD []) ∧ e.colon = c := by
  rw [Play.visits, colons_flatMap, List.mem_flatMap]
  constructor
  · rintro ⟨field, hfield, hc⟩
    obtain ⟨raw, hraw, rfl⟩ := List.mem_map.mp hfield
    cases hopens : opensSection raw.key with
    | true =>
      obtain ⟨s, hs, hvisits⟩ := exists_visitsOfField_section ordered hraw hopens
      rw [hvisits, mem_colons_section hs] at hc
      rcases hc with ⟨kind, position, items, hvalue, inner, hinner, mapping, e, within, rfl⟩ |
        ⟨kind, e, inner, rfl⟩
      · exact ⟨e, .roles hraw kind hvalue hinner mapping within, rfl⟩
      · exact ⟨e, .tasks hraw hopens kind inner, rfl⟩
    | false =>
      obtain ⟨outer, first, hcolons⟩ := exists_colons_playField hraw hopens
      rw [hcolons] at hc
      obtain ⟨e, covered, rfl⟩ := List.mem_map.mp hc
      have hkey : outer.key = raw.key := by simpa using List.find?_some first
      exact ⟨e, .entry (by rwa [hkey]) (by rwa [hkey]) covered, rfl⟩
  · have hfield : ∀ raw ∈ item.value.entries?.getD [],
        ⟨PlayFieldKind.ofKey raw.key, raw.key, raw.position⟩ ∈ (Play.ofItem source item).fields :=
      fun raw hraw => List.mem_map.mpr ⟨raw, hraw, rfl⟩
    rintro ⟨e, he, rfl⟩
    cases he with
    | entry first plain covered =>
      have houter := List.mem_of_find?_eq_some first
      obtain ⟨other, hother, hcolons⟩ := exists_colons_playField houter plain
      obtain rfl := Option.some.inj (first.symm.trans hother)
      exact ⟨_, hfield _ houter, by rw [hcolons]; exact List.mem_map_of_mem covered⟩
    | roles houter kind hvalue hitem mapping within =>
      obtain ⟨s, hs, hvisits⟩ :=
        exists_visitsOfField_section ordered houter (by rw [opensSection, kind]; rfl)
      refine ⟨_, hfield _ houter, ?_⟩
      rw [hvisits, mem_colons_section hs]
      exact .inl ⟨kind, _, _, hvalue, _, hitem, mapping, e, within, rfl⟩
    | tasks houter opens kind inner =>
      obtain ⟨s, hs, hvisits⟩ := exists_visitsOfField_section ordered houter opens
      refine ⟨_, hfield _ houter, ?_⟩
      rw [hvisits, mem_colons_section hs]
      exact .inr ⟨kind, e, inner, rfl⟩

/-! ### Playbooks -/

theorem colons_visitsOfBlocks (blocks : List Block) (previous? : Option Part) :
    colons (visitsOfBlocks previous? blocks) =
      blocks.flatMap fun block => block.part.colon?.toList ++ colons block.visits := by
  induction blocks generalizing previous? with
  | nil => rw [visitsOfBlocks, colons_nil, List.flatMap_nil]
  | cons block rest ih =>
    rw [visitsOfBlocks, colons_cons, colons_append, ih, List.flatMap_cons, List.append_assoc]

/-- In a block the walk meets the colons of the entries that it reaches. -/
theorem mem_colons_block {value : Yaml.Value} {item : Item Node} {block : Block}
    (ordered : item.value.Ordered) (h : Block.ofItem source value item = .ok block) {c : Colon} :
    c ∈ block.part.colon?.toList ++ colons block.visits ↔
      ∃ e, ReachedInBlock e value item ∧ e.colon = c := by
  unfold ReachedInBlock
  obtain ⟨-, ⟨hhosts, rfl⟩ | ⟨hhosts, i, hinclude, rfl⟩⟩ := Block.ofItem_cases h
  · simp only [if_pos hhosts]
    exact mem_colons_play ordered
  · simp only [if_neg (Bool.eq_false_iff.mp hhosts)]
    exact mem_colons_ofItem? hinclude c

/-- The colons in the blocks are those of the entries that the walk reaches in them. -/
theorem mem_colons_blocksOf {values : List Yaml.Value} {items : List (Item Node)}
    {blocks : List Block} (ordered : ∀ item ∈ items, item.value.Ordered)
    (h : blocksOf source values items = .ok blocks) {c : Colon} :
    (∃ block ∈ blocks, c ∈ block.part.colon?.toList ++ colons block.visits) ↔
      ∃ e, (∃ pair ∈ values.zip items, ReachedInBlock e pair.1 pair.2) ∧ e.colon = c := by
  have hordered : ∀ pair ∈ values.zip items, pair.2.value.Ordered :=
    fun pair hpair => ordered _ (List.of_mem_zip hpair).2
  rw [exists_mem_blocksOf_iff h]
  constructor
  · rintro ⟨pair, hpair, block, hmade, hc⟩
    obtain ⟨e, he, rfl⟩ := (mem_colons_block (hordered pair hpair) hmade).mp hc
    exact ⟨e, ⟨pair, hpair, he⟩, rfl⟩
  · rintro ⟨e, ⟨pair, hpair, he⟩, rfl⟩
    obtain ⟨block, -, hmade⟩ := exists_of_mem_right (blocksOf_zip h).flip hpair
    exact ⟨pair, hpair, block, hmade, (mem_colons_block (hordered pair hpair) hmade).mpr ⟨e, he, rfl⟩⟩

end Items

/-- **On the walk** over a playbook that was parsed are the colons of the entries that
it reaches, and no others. -/
theorem mem_colons_visits {path content : String} {playbook : Playbook}
    (parsed : Playbook.parse path content = .ok playbook) {c : Colon} :
    c ∈ colons playbook.visits ↔ ∃ e, Reached content e ∧ e.colon = c := by
  obtain ⟨value, hread, build⟩ := exists_read_of_parse parsed
  obtain ⟨-, items, position, hroot, values, rfl, hblocks⟩ := exists_blocksOf_of_build build
  have hordered := Outline.ordered_of_scan hroot
  have hreached : ∀ e, Reached content e ↔
      ∃ pair ∈ values.zip items, ReachedInBlock e pair.1 pair.2 := by
    intro e
    constructor
    · rintro ⟨values', position', items', hread', hroot', h⟩
      cases hread.symm.trans hread'
      cases hroot.symm.trans hroot'
      exact h
    · exact fun h => ⟨values, position, items, hread, hroot, h⟩
  simp only [hreached]
  rw [Playbook.visits, colons_cons, colons_visitsOfBlocks]
  exact List.mem_flatMap.trans (mem_colons_blocksOf hordered hblocks)

/-! ### Entries reached are entries of the outline -/

theorem ReachedInTasks.mem_allEntries {e : Outline.Entry Node} {n : Node}
    (h : ReachedInTasks e n) : e ∈ n.allEntries := by
  induction h with
  | inclusion hitem file within =>
    rw [Node.allEntries_sequence]
    exact List.mem_flatMap_of_mem hitem within
  | entry hitem file hentries answers plain covered =>
    rw [Node.allEntries_sequence]
    refine List.mem_flatMap_of_mem hitem ?_
    rw [Node.allEntries_of_entries? hentries]
    exact List.mem_flatMap_of_mem (mem_of_answer? answers) covered
  | nested hitem file hentries answers opens inner ih =>
    rw [Node.allEntries_sequence]
    refine List.mem_flatMap_of_mem hitem ?_
    rw [Node.allEntries_of_entries? hentries]
    exact List.mem_flatMap_of_mem (mem_of_answer? answers) (List.mem_cons_of_mem _ ih)

theorem ReachedInPlay.mem_flatMap_covered {e : Outline.Entry Node}
    {entries : List (Outline.Entry Node)} (h : ReachedInPlay e entries) :
    e ∈ entries.flatMap Outline.Entry.covered := by
  cases h with
  | entry first plain covered =>
    exact List.mem_flatMap_of_mem (List.mem_of_find?_eq_some first) covered
  | roles houter kind hvalue hitem mapping within =>
    refine List.mem_flatMap_of_mem houter (List.mem_cons_of_mem _ ?_)
    rw [hvalue, Node.allEntries_sequence]
    exact List.mem_flatMap_of_mem hitem within
  | tasks houter opens kind inner =>
    exact List.mem_flatMap_of_mem houter (List.mem_cons_of_mem _ inner.mem_allEntries)

theorem Reached.mem_allEntries {content : String} {e : Outline.Entry Node}
    (h : Reached content e) : e ∈ (Outline.scan content.toList).root.allEntries := by
  obtain ⟨values, position, items, -, hroot, ⟨value, item⟩, hpair, hblock⟩ := h
  rw [hroot, Node.allEntries_sequence]
  refine List.mem_flatMap_of_mem (List.of_mem_zip hpair).2 ?_
  unfold ReachedInBlock at hblock
  split at hblock
  · have hcovered := hblock.mem_flatMap_covered
    cases hentries : item.value.entries? with
    | none =>
      rw [hentries] at hcovered
      cases hcovered
    | some entries =>
      rw [hentries] at hcovered
      rwa [Node.allEntries_of_entries? hentries]
  · exact hblock

end Playbook

end PlaybookStyle
