/-
Task lists of an outline with the key of one call edited.

If the outline has another key in the place of the one that calls the module of a task,
one that calls a module of the same kind, then the task calls it so (`taskItem?_calling`).
Everything else in the list of the task stays, and so does everything in the lists around
it: the walks over them match (`CallEdit.items_match`).
-/

import PlaybookStyle.Proofs.Outline.Edited
import PlaybookStyle.Proofs.Playbook.Renaming

namespace PlaybookStyle

open Playbook
open Outline (Node Item entryEdit itemEdit)

namespace Playbook

/-! ### Tasks of an outline with one entry edited -/

variable {source : SourceLines}

theorem isSome_module?_taskPart (found : Bool) (entry : Outline.Entry Node) :
    (taskPart source found entry).2.module?.isSome = (namesModule entry && !found) := by
  rw [snd_taskPart]
  cases hopens : opensList entry.key with
  | true =>
    have hplain : namesModule entry = false := by simp [namesModule, hopens]
    rw [hplain]
    rfl
  | false => cases namesModule entry && !found <;> rfl

theorem taskParts_append (found : Bool) (entries more : List (Outline.Entry Node)) :
    taskParts source found (entries ++ more) =
      taskParts source found entries ++ taskParts source (found || entries.any namesModule) more := by
  induction entries generalizing found with
  | nil => rw [List.nil_append, taskParts, List.nil_append, List.any_nil, Bool.or_false]
  | cons entry rest ih =>
    have hfound : (found || (namesModule entry && !found)) = (found || namesModule entry) := by
      cases found <;> cases namesModule entry <;> rfl
    rw [List.cons_append, taskParts, taskParts, isSome_module?_taskPart, ih, List.cons_append, hfound,
      List.any_cons, Bool.or_assoc]

section Call

variable {t : Task} {call : ModuleCall} {item : Item Node} {e : Outline.Entry Node}
  {f : Outline.Entry Node → Outline.Entry Node}

/-- A task with a module is made from entries, the first of which that calls a module is
the call. -/
theorem exists_call_of_task (made : taskItem? source item = some (.task t))
    (module : t.module? = some call) :
    ∃ before e after, item.value.entries? = some (before ++ e :: after) ∧
      (∀ entry ∈ before, namesModule entry = false) ∧ namesModule e = true ∧
      call = .ofEntry e ∧ Include.ofItem? source taskIncludes item = none ∧
      t = .ofParts source item.position item.endLine
        (taskParts source false (before ++ e :: after)) := by
  obtain ⟨entries, hinclude, hentries, rfl⟩ := exists_entries_of_task made
  rw [TaskOf.ofParts, module_taskParts, Option.map_eq_some_iff] at module
  obtain ⟨e, hfind, rfl⟩ := module
  obtain ⟨hnames, before, after, rfl, hbefore⟩ := List.find?_eq_some_iff_append.mp hfind
  exact ⟨before, e, after, hentries, by simpa using hbefore, hnames, rfl, hinclude, rfl⟩

theorem taskPart_of_namesModule {e : Outline.Entry Node} (names : namesModule e = true) :
    taskPart source false e = (⟨.module, e.key, e.position⟩, .module (.ofEntry e)) := by
  obtain ⟨key, position, spacing, value, endLine⟩ := e
  obtain ⟨hkind, hplain⟩ := Bool.and_eq_true_iff.mp names
  have hkind : taskFieldKind false key = .module := beq_iff_eq.mp hkind
  have hplain : nestedKeys.contains key = false := by simpa [opensList] using hplain
  rw [taskPart, hkind, hplain]
  rfl

/-- The parts of a task before its call, the call, and what is behind it. -/
theorem taskParts_at_call {before after : List (Outline.Entry Node)} {e : Outline.Entry Node}
    (plain : ∀ entry ∈ before, namesModule entry = false) (names : namesModule e = true) :
    taskParts source false (before ++ e :: after) = taskParts source false before ++
      (⟨.module, e.key, e.position⟩, .module (.ofEntry e)) :: taskParts source true after := by
  have hnone : before.any namesModule = false :=
    List.any_eq_false.mpr fun entry hentry => by simp [plain entry hentry]
  rw [taskParts_append, hnone, Bool.or_false, taskParts, taskPart_of_namesModule names]
  rfl

/-- The field of a part is that of the call, or it has the key and the place of one of the
other entries. -/
theorem fst_of_mem_taskParts_at_call {before after : List (Outline.Entry Node)}
    {e : Outline.Entry Node} (plain : ∀ entry ∈ before, namesModule entry = false)
    (names : namesModule e = true) {part : Field TaskFieldKind × TaskPart}
    (h : part ∈ taskParts source false (before ++ e :: after)) :
    part.1 = ⟨.module, e.key, e.position⟩ ∨ ∃ entry ∈ before ++ after,
      part.1.key = entry.key ∧ part.1.position = entry.position := by
  have hmade : ∀ {found entries}, part ∈ taskParts source found entries →
      ∃ entry ∈ entries, part.1.key = entry.key ∧ part.1.position = entry.position := by
    intro found entries hpart
    obtain ⟨entry, hentry, other, rfl⟩ := exists_entry_of_mem_taskParts hpart
    obtain ⟨hkey, hposition, -⟩ := @taskPart_eq source other entry
    exact ⟨entry, hentry, hkey, hposition⟩
  rw [taskParts_at_call plain names] at h
  rcases List.mem_append.mp h with hpart | hpart
  · obtain ⟨entry, hentry, hsame⟩ := hmade hpart
    exact .inr ⟨entry, List.mem_append_left _ hentry, hsame⟩
  rcases List.mem_cons.mp hpart with rfl | hpart
  · exact .inl rfl
  · obtain ⟨entry, hentry, hsame⟩ := hmade hpart
    exact .inr ⟨entry, List.mem_append_right _ hentry, hsame⟩

/-- With another call in its place, a task is made with that. -/
theorem ofParts_calling (position : Position) (endLine : Nat) {before after : List (Outline.Entry Node)}
    {e e' : Outline.Entry Node} (plain : ∀ entry ∈ before, namesModule entry = false)
    (names : namesModule e = true) (names' : namesModule e' = true)
    (same : e'.position = e.position) (off : ∀ entry ∈ before ++ after, entry.position ≠ e.position) :
    TaskOf.ofParts source position endLine (taskParts source false (before ++ e' :: after)) =
      (TaskOf.ofParts source position endLine
        (taskParts source false (before ++ e :: after))).calling (.ofEntry e') := by
  have hmodule : (taskParts source false (before ++ e' :: after)).findSome? (·.2.module?) =
      some (.ofEntry e') := by
    rw [module_taskParts, List.find?_eq_some_iff_append.mpr
      ⟨names', before, after, rfl, by simpa using plain⟩, Option.map_some]
  have hfields : ∀ found, ∀ entries : List (Outline.Entry Node), (∀ entry ∈ entries, entry.position ≠ e.position) →
      ((taskParts source found entries).map Prod.fst).map (Field.calling (.ofEntry e')) =
        (taskParts source found entries).map Prod.fst := by
    intro found entries hoff
    rw [List.map_map]
    refine List.map_congr_left fun part hpart => if_neg fun hplace => ?_
    have hmem : part.1.position ∈ entries.map Outline.Entry.position :=
      map_position_taskParts source found entries ▸ List.mem_map_of_mem hpart
    obtain ⟨entry, hentry, hposition⟩ := List.mem_map.mp hmem
    exact hoff entry hentry (hposition.trans (hplace.trans same))
  have hcall : Field.calling (.ofEntry e') ⟨.module, e.key, e.position⟩ =
      ⟨.module, e'.key, e'.position⟩ := by
    refine (if_pos same.symm).trans ?_
    rw [same]
    rfl
  rw [TaskOf.ofParts, hmodule, TaskOf.ofParts, TaskOf.calling, taskParts_at_call plain names,
    taskParts_at_call plain names']
  simp only [List.map_append, List.map_cons, List.filterMap_append, List.filterMap_cons,
    TaskPart.entryOf?, TaskPart.nested?,
    hfields _ _ fun entry hentry => off entry (List.mem_append_left _ hentry),
    hfields _ _ fun entry hentry => off entry (List.mem_append_right _ hentry), hcall]

/-- What the edit of an entry has to keep: its place, and that it calls a module. -/
structure Calls (f : Outline.Entry Node → Outline.Entry Node) (e : Outline.Entry Node) : Prop where
  position : (f e).position = e.position
  names : namesModule (f e) = true
  noInclude : (f e).key ∉ taskIncludes

/-- The entries of the item that a task is made from, cut at the call at a place. -/
theorem exists_cut_at_call (made : taskItem? source item = some (.task t))
    (module : t.module? = some call) (place : call.position = e.position)
    (alone : e.Alone item.value.allEntries) :
    ∃ before after, item.value.entries? = some (before ++ e :: after) ∧
      (∀ entry ∈ before, namesModule entry = false) ∧ namesModule e = true ∧
      (∀ entry ∈ before ++ after, entryEdit e.position f entry = entry ∧
        entry.position ≠ e.position) ∧
      call = .ofEntry e ∧ Include.ofItem? source taskIncludes item = none ∧
      t = .ofParts source item.position item.endLine
        (taskParts source false (before ++ e :: after)) := by
  obtain ⟨before, found, after, hentries, plain, names, rfl, hinclude, rfl⟩ :=
    exists_call_of_task made module
  have hcovered : item.value.allEntries = (before ++ found :: after).flatMap Outline.Entry.covered :=
    Node.allEntries_of_entries? hentries
  rw [hcovered] at alone
  have hfound : found ∈ before ++ found :: after := by simp
  have hself : found ∈ found.covered := List.mem_cons_self
  obtain rfl := alone.only found (List.mem_flatMap.mpr ⟨found, hfound, hself⟩) place
  refine ⟨before, after, hentries, plain, names, fun entry hentry => ?_, rfl, hinclude, rfl⟩
  have hmem : entry ∈ before ++ found :: after := by
    rcases List.mem_append.mp hentry with h | h
    · exact List.mem_append_left _ h
    · exact List.mem_append_right _ (List.mem_cons_of_mem _ h)
  -- The entry of the call comes once.
  have hne : entry ≠ found := by
    rintro rfl
    have hnodup := alone.nodup.sublist (Outline.Entry.sublist_covered (before ++ entry :: after))
    exact (List.nodup_cons.mp (List.nodup_middle.mp hnodup)).1 hentry
  refine ⟨alone.entryEdit_eq_self hfound hself hmem hne, fun same => hne ?_⟩
  exact alone.only entry (List.mem_flatMap.mpr ⟨entry, hmem, List.mem_cons_self⟩) same

/-- With the key of its module edited, an item makes the task that calls it so. -/
theorem taskItem?_calling (made : taskItem? source item = some (.task t))
    (module : t.module? = some call) (place : call.position = e.position)
    (alone : e.Alone item.value.allEntries) (calls : Calls f e) :
    taskItem? source (itemEdit e.position f item) =
      some (.task (t.calling (.ofEntry (f e)))) := by
  obtain ⟨before, after, hentries, plain, names, hothers, -, hinclude, rfl⟩ :=
    exists_cut_at_call (f := f) made module place alone
  have hedited : (itemEdit e.position f item).value.entries? = some (before ++ f e :: after) := by
    have hkept : ∀ entries ⊆ before ++ after, entries.map (entryEdit e.position f) = entries := by
      intro entries hsub
      refine (List.map_congr_left fun entry hentry => ?_).trans (List.map_id entries)
      exact (hothers entry (hsub hentry)).1
    rw [Outline.itemEdit_eq, Outline.Node.entries?_edit, hentries, Option.map_some, List.map_append,
      List.map_cons, hkept before (List.subset_append_left _ _),
      hkept after (List.subset_append_right _ _), Outline.entryEdit_at rfl]
  have hnone : Include.ofItem? source taskIncludes (itemEdit e.position f item) = none := by
    have hfile : namesFile taskIncludes item = false := by
      rw [← @isSome_ofItem? source, hinclude]
      rfl
    rw [← Option.isNone_iff_eq_none, ← Option.not_isSome, isSome_ofItem?]
    rw [namesFile, hentries, Option.getD_some, List.any_append, List.any_cons] at hfile
    rw [namesFile, hedited, Option.getD_some, List.any_append, List.any_cons]
    have hcall : isTarget taskIncludes (f e) = false := by
      rw [isTarget, Bool.eq_false_iff.mpr fun h => calls.noInclude (List.contains_iff_mem.mp h)]
      rfl
    simp only [Bool.or_eq_false_iff] at hfile
    rw [hcall, hfile.1, hfile.2.2]
    decide
  rw [taskItem?_eq, hnone, hedited, Option.map_some, Outline.itemEdit_eq]
  exact congrArg (some ∘ TaskItem.task) (ofParts_calling _ _ plain names calls.names calls.position
    fun entry hentry => (hothers entry hentry).2)

/-- A task whose other entries have other keys. -/
theorem renames_of_made (made : taskItem? source item = some (.task t))
    (module : t.module? = some call) (place : call.position = e.position)
    (alone : e.Alone item.value.allEntries) (calls : Calls f e)
    (renamed : (ModuleCall.ofEntry e).Renamed (.ofEntry (f e)))
    (others : ∀ entry ∈ t.entries, entry.key ≠ e.key ∧ entry.key ≠ (f e).key) :
    t.Renames call (.ofEntry (f e)) := by
  obtain ⟨before, after, hentries, plain, names, hothers, rfl, hinclude, ht⟩ :=
    exists_cut_at_call (f := f) made module place alone
  have hlist : ∀ {key}, opensList key = true → key ≠ e.key ∧ key ≠ (f e).key := by
    intro key hopens
    constructor
    · rintro rfl
      rw [plain_of_namesModule names] at hopens
      cases hopens
    · rintro rfl
      rw [plain_of_namesModule calls.names] at hopens
      cases hopens
  have hnone : ∀ entry ∈ before, ¬namesModule entry = true := by simpa using plain
  have herase : (before ++ e :: after).eraseP namesModule = before ++ after := by
    rw [List.eraseP_append_right _ hnone, List.eraseP_cons_of_pos names]
  have hoptions : t.entries = ((before ++ after).filter fun entry => !opensList entry.key).map
      optionEntry := by
    rw [ht, TaskOf.ofParts, entries_taskParts, if_neg Bool.false_ne_true, herase]
  have hnested : ∀ list ∈ t.nested, opensList list.key = true := by
    intro list hlist
    rw [ht] at hlist
    obtain ⟨entry, -, hopens, rfl⟩ := exists_entry_of_mem_nested hlist
    exact hopens
  have hfields : ∀ field ∈ t.fields,
      field = ⟨.module, e.key, e.position⟩ ∨ ∃ entry ∈ before ++ after,
        field.key = entry.key ∧ field.position = entry.position := by
    intro field hfield
    rw [ht] at hfield
    obtain ⟨part, hpart, rfl⟩ := List.mem_map.mp hfield
    exact fst_of_mem_taskParts_at_call plain names hpart
  refine ⟨module, renamed, others, fun list h => hlist (hnested list h), ?_, ?_⟩
  · intro field hfield hplace
    rcases hfields field hfield with rfl | ⟨entry, hentry, -, hposition⟩
    · exact ⟨rfl, rfl⟩
    · exact absurd (hposition.symm.trans hplace) (hothers entry hentry).2
  · intro field hfield hplace
    rcases hfields field hfield with rfl | ⟨entry, hentry, hkey, -⟩
    · exact absurd rfl hplace
    · rw [hkey]
      cases hopens : opensList entry.key with
      | true => exact hlist hopens
      | false =>
        have hmem : optionEntry entry ∈ t.entries := by
          rw [hoptions]
          exact List.mem_map_of_mem (List.mem_filter.mpr ⟨hentry, by simp [hopens]⟩)
        have hself : (optionEntry entry).key = entry.key := by rw [optionEntry, entryOf_eq]
        exact hself ▸ others _ hmem

end Call

/-! ### Lists of an outline with one entry edited -/

section Lists

variable {R : Part → Part → Prop} {entries : List (Outline.Entry Node)}
  {g : Outline.Entry Node → Outline.Entry Node}

/-- Entries of a task that keep all but what is in their lists. -/
def KeepsPlain (g : Outline.Entry Node → Outline.Entry Node) (entries : List (Outline.Entry Node)) :
    Prop :=
  ∀ entry ∈ entries, (g entry).key = entry.key ∧ (g entry).position = entry.position ∧
    (opensList entry.key = false → g entry = entry)

/-- The parts of a task but for its nested lists. -/
theorem taskParts_keepsPlain (keeps : KeepsPlain g entries) (found : Bool) :
    (taskParts source found (entries.map g)).map Prod.fst =
        (taskParts source found entries).map Prod.fst ∧
      ((taskParts source found (entries.map g)).filterMap fun part => part.2.entryOf?) =
        (taskParts source found entries).filterMap (fun part => part.2.entryOf?) ∧
      ((taskParts source found (entries.map g)).findSome? fun part => part.2.module?) =
        (taskParts source found entries).findSome? fun part => part.2.module? := by
  induction entries generalizing found with
  | nil => exact ⟨rfl, rfl, rfl⟩
  | cons entry rest ih =>
    obtain ⟨⟨hkey, hposition, hplain⟩, hrest⟩ := List.forall_mem_cons.mp keeps
    have hfield : (taskPart source found (g entry)).1 = (taskPart source found entry).1 := by
      have hpart : ∀ entry, (taskPart source found entry).1 =
          ⟨taskFieldKind found entry.key, entry.key, entry.position⟩ := fun entry => by
        obtain ⟨key, position, spacing, value, endLine⟩ := entry
        rw [taskPart]
      rw [hpart, hpart, hkey, hposition]
    have hpart : (taskPart source found (g entry)).2.entryOf? =
          (taskPart source found entry).2.entryOf? ∧
        (taskPart source found (g entry)).2.module? = (taskPart source found entry).2.module? := by
      cases hopens : opensList entry.key with
      | false =>
        rw [hplain hopens]
        exact ⟨rfl, rfl⟩
      | true =>
        rw [snd_taskPart, snd_taskPart, hkey, hopens]
        exact ⟨rfl, rfl⟩
    rw [List.map_cons, taskParts, taskParts]
    obtain ⟨hfields, hentries, hmodule⟩ :=
      ih hrest (found || (taskPart source found entry).2.module?.isSome)
    rw [List.map_cons, List.map_cons, List.filterMap_cons, List.filterMap_cons, List.findSome?_cons,
      List.findSome?_cons, hpart.1, hpart.2, hfield, hfields, hentries, hmodule]
    exact ⟨rfl, rfl, rfl⟩

/-- A task matches another with matching lists under the same keys. -/
theorem ofParts_matches (alike : ∀ part part', Part.Alike part part' → R part part')
    (position : Position) (endLine : Nat) (keeps : KeepsPlain g entries)
    (lists : ∀ entry ∈ entries, opensList entry.key = true →
      List.Forall₂ (TaskItem.Matches R) (taskItems source entry.value)
        (taskItems source (g entry).value)) :
    TaskItem.Matches R
      (.task (.ofParts source position endLine (taskParts source false entries)))
      (.task (.ofParts source position endLine (taskParts source false (entries.map g)))) := by
  have same : ∀ part, R part part := fun part => alike _ _ (.refl part)
  obtain ⟨hfields, hentries, hmodule⟩ := @taskParts_keepsPlain source entries g keeps false
  have hlookup : ∀ key, Option.Rel (List.Forall₂ (Visit.Matches R))
      ((visitsOfNested (TaskOf.ofParts source position endLine
        (taskParts source false entries)).nested).lookup key)
      ((visitsOfNested (TaskOf.ofParts source position endLine
        (taskParts source false (entries.map g))).nested).lookup key) := by
    intro key
    have hkeys : ((entries.map g).filter fun entry => opensList entry.key) =
        (entries.filter fun entry => opensList entry.key).map g := by
      rw [List.filter_map]
      congr 1
      refine List.filter_congr fun entry hentry => ?_
      rw [Function.comp_apply, (keeps entry hentry).1]
    have hfind : (((entries.filter fun entry => opensList entry.key).map g).find? (·.key == key)) =
        ((entries.filter fun entry => opensList entry.key).find? (·.key == key)).map g := by
      rw [List.find?_map, ← List.head?_filter, ← List.head?_filter]
      congr 2
      refine List.filter_congr fun entry hentry => ?_
      rw [Function.comp_apply, (keeps entry (List.mem_of_mem_filter hentry)).1]
    rw [lookup_taskParts, lookup_taskParts, hkeys, hfind]
    cases hfound : (entries.filter fun entry => opensList entry.key).find? (·.key == key) with
    | none => exact .none
    | some entry =>
      obtain ⟨hentry, hopens⟩ := List.mem_filter.mp (List.mem_of_find?_eq_some hfound)
      exact .some (visitsOfItems_matches (lists entry hentry hopens) .none)
  constructor
  · rw [TaskOf.ofParts, TaskOf.ofParts, hfields, hentries, hmodule]
    exact alike _ _ (.task _ _)
  · have hsame : (TaskOf.ofParts source position endLine (taskParts source false (entries.map g))).fields =
        (TaskOf.ofParts source position endLine (taskParts source false entries)).fields := hfields
    rw [visitsOfItem, visitsOfItem, visitsOfTask_eq, visitsOfTask_eq, hsame]
    refine forall₂_flatMap fun field _ => ?_
    exact TaskOf.visitsOfField_matches same hentries rfl (hlookup field.key)
      (congrArg (Option.filter _) hmodule)

end Lists

/-! ### The lists that hold the task -/

section Holders

variable {t : Task} {call : ModuleCall} {e : Outline.Entry Node}
  {f : Outline.Entry Node → Outline.Entry Node}

/-- An edit of the entry that calls the module of a task. -/
structure CallEdit (t : Task) (call : ModuleCall) (e : Outline.Entry Node)
    (f : Outline.Entry Node → Outline.Entry Node) : Prop where
  module : t.module? = some call
  place : call.position = e.position
  calls : Calls f e
  renamed : (ModuleCall.ofEntry e).Renamed (.ofEntry (f e))
  others : ∀ entry ∈ t.entries, entry.key ≠ e.key ∧ entry.key ≠ (f e).key

/-- An edit inside a list of a task leaves everything else of the task. -/
theorem keepsPlain_entryEdit {entries : List (Outline.Entry Node)}
    (alone : e.Alone (entries.flatMap Outline.Entry.covered)) {holder : Outline.Entry Node}
    (hholder : holder ∈ entries) (hopens : opensList holder.key = true)
    (he : e ∈ holder.value.allEntries) : KeepsPlain (entryEdit e.position f) entries := by
  intro entry hentry
  have hoff := alone.position_ne hholder he hentry
  refine ⟨by rw [Outline.entryEdit_off hoff], by rw [Outline.entryEdit_off hoff], fun hplain => ?_⟩
  refine alone.entryEdit_eq_self hholder (List.mem_cons_of_mem _ he) hentry fun same => ?_
  rw [same, hopens] at hplain
  cases hplain

/-- A task with the edited entry in one of its lists. -/
theorem taskItem?_matches_list {R : Part → Part → Prop}
    (alike : ∀ part part', Part.Alike part part' → R part part') {item : Item Node}
    {entries : List (Outline.Entry Node)} (hentries : item.value.entries? = some entries)
    (hinclude : Include.ofItem? source taskIncludes item = none)
    (alone : e.Alone item.value.allEntries) {holder : Outline.Entry Node} (hholder : holder ∈ entries)
    (hopens : opensList holder.key = true) (he : e ∈ holder.value.allEntries)
    (lists : List.Forall₂ (TaskItem.Matches R) (taskItems source holder.value)
      (taskItems source (holder.value.edit e.position f))) :
    ∃ item', taskItem? source (itemEdit e.position f item) = some item' ∧
      TaskItem.Matches R
        (.task (.ofParts source item.position item.endLine (taskParts source false entries))) item' := by
  rw [Outline.Node.allEntries_of_entries? hentries] at alone
  have hedited : (itemEdit e.position f item).value.entries? =
      some (entries.map (entryEdit e.position f)) := by
    rw [Outline.itemEdit_eq, Outline.Node.entries?_edit, hentries, Option.map_some]
  have hoff : ∀ entry ∈ entries, entryEdit e.position f entry =
      { entry with value := entry.value.edit e.position f } := fun entry hentry =>
    Outline.entryEdit_off (alone.position_ne hholder he hentry)
  have hnone : Include.ofItem? source taskIncludes (itemEdit e.position f item) = none := by
    have hfile : namesFile taskIncludes (itemEdit e.position f item) = namesFile taskIncludes item := by
      have htarget : ∀ entry ∈ entries, isTarget taskIncludes (entryEdit e.position f entry) =
          isTarget taskIncludes entry := fun entry hentry => by
        rw [hoff entry hentry, isTarget, isTarget, Outline.Node.scalar?_edit]
      rw [namesFile, namesFile, hedited, hentries, Option.getD_some, Option.getD_some,
        Bool.eq_iff_iff, List.any_map, List.any_eq_true, List.any_eq_true]
      refine exists_congr fun entry => and_congr_right fun hentry => ?_
      rw [Function.comp_apply, htarget entry hentry]
    rw [← Option.isNone_iff_eq_none, ← Option.not_isSome, isSome_ofItem?, hfile,
      ← @isSome_ofItem? source, hinclude]
    rfl
  refine ⟨_, by rw [taskItem?_eq, hnone, hedited]; rfl, ?_⟩
  rw [Outline.itemEdit_eq]
  refine ofParts_matches alike _ _ (keepsPlain_entryEdit alone hholder hopens he) ?_
  intro entry hentry _
  by_cases same : entry = holder
  · subst same
    rw [hoff entry hentry]
    exact lists
  · rw [alone.entryEdit_eq_self hholder (List.mem_cons_of_mem _ he) hentry same]
    exact List.forall₂_same.mpr fun item _ => .refl (fun part => alike _ _ (.refl part)) item

/-- A list with one element edited. -/
theorem taskItems_matches_item {R : Part → Part → Prop} (same : ∀ part, R part part)
    {position : Position} {items : List (Item Node)}
    (alone : e.Alone (items.flatMap fun item => item.value.allEntries)) {made : Item Node}
    (hmade : made ∈ items) (he : e ∈ made.value.allEntries)
    (rel : Option.Rel (TaskItem.Matches R) (taskItem? source made)
      (taskItem? source (itemEdit e.position f made))) :
    List.Forall₂ (TaskItem.Matches R) (taskItems source (.sequence position items))
      (taskItems source ((Node.sequence position items).edit e.position f)) := by
  rw [Outline.Node.edit, Outline.itemsEdit_eq_map, taskItems, taskItems, taskItemsOf_eq_filterMap,
    taskItemsOf_eq_filterMap, List.filterMap_map]
  refine forall₂_filterMap fun item hitem => ?_
  rw [Function.comp_apply]
  by_cases heq : item = made
  · rw [heq]
    exact rel
  · rw [alone.itemEdit_eq_self hmade he hitem heq]
    cases taskItem? source item with
    | none => exact .none
    | some item => exact .some (.refl same item)

theorem CallEdit.mem_allEntries (edit : CallEdit t call e f) {item : Item Node}
    (made : taskItem? source item = some (.task t)) (alone : e.Alone item.value.allEntries) :
    e ∈ item.value.allEntries := by
  obtain ⟨before, after, hentries, -⟩ :=
    exists_cut_at_call (f := f) made edit.module edit.place alone
  rw [Outline.Node.allEntries_of_entries? hentries]
  exact List.mem_flatMap.mpr ⟨e, by simp, List.mem_cons_self⟩

/-- The tasks of a node that holds the one with the call match those of the edited node. -/
theorem CallEdit.items_match (edit : CallEdit t call e f) {n : Node} (alone : e.Alone n.allEntries)
    {item : TaskItem} (hitem : item ∈ taskItems source n) (ht : .task t ∈ item.within) :
    e ∈ n.allEntries ∧ List.Forall₂ (TaskItem.Matches (Part.Renamed t call (.ofEntry (f e))))
      (taskItems source n) (taskItems source (n.edit e.position f)) := by
  suffices h : (e.Alone n.allEntries → ∀ item ∈ taskItems source n, .task t ∈ item.within →
        e ∈ n.allEntries ∧ List.Forall₂ (TaskItem.Matches (Part.Renamed t call (.ofEntry (f e))))
          (taskItems source n) (taskItems source (n.edit e.position f))) ∧
      ∀ entries, n.entries? = some entries → ∀ holder ∈ entries, e.Alone holder.value.allEntries →
        ∀ item ∈ taskItems source holder.value, .task t ∈ item.within →
          e ∈ holder.value.allEntries ∧
            List.Forall₂ (TaskItem.Matches (Part.Renamed t call (.ofEntry (f e))))
              (taskItems source holder.value) (taskItems source (holder.value.edit e.position f)) from
    h.1 alone item hitem ht
  clear hitem ht alone item
  induction n using Outline.Node.allEntries.induct with
  | case1 position entries ih =>
    refine ⟨by simp [taskItems], ?_⟩
    rintro _ ⟨⟩ holder hholder
    exact (ih holder hholder).1
  | case2 position items ih =>
    refine ⟨?_, by simp [Outline.Node.entries?]⟩
    intro alone item hitem ht
    rw [Outline.Node.allEntries_sequence] at alone ⊢
    obtain ⟨made, hmade, hfound⟩ := exists_made_of_mem_taskItems hitem
    have aloneMade := alone.of_item hmade
    have hmatch : e ∈ made.value.allEntries ∧ ∃ item',
        taskItem? source (itemEdit e.position f made) = some item' ∧
          item.Matches (Part.Renamed t call (.ofEntry (f e))) item' := by
      cases item with
      | inclusion i => simp [TaskItem.within] at ht
      | task outer =>
        rw [TaskItem.within, List.mem_cons, withinTask_eq_flatMap] at ht
        rcases ht with heq | hinside
        · obtain rfl := TaskItem.task.inj heq
          exact ⟨edit.mem_allEntries hfound aloneMade, _,
            taskItem?_calling hfound edit.module edit.place aloneMade edit.calls,
            (renames_of_made hfound edit.module edit.place aloneMade edit.calls edit.renamed
              edit.others).matches⟩
        · -- The task stands in a list under an entry of the item.
          obtain ⟨nested, hnested, hinside⟩ := List.mem_flatMap.mp hinside
          obtain ⟨inner, hinner, hwithin⟩ := mem_withinItems.mp hinside
          obtain ⟨entries, hinclude, hentries, rfl⟩ := exists_entries_of_task hfound
          obtain ⟨holder, hholder, hopens, rfl⟩ := exists_entry_of_mem_nested hnested
          have hcovered := Outline.Node.allEntries_of_entries? hentries
          obtain ⟨he, hlists⟩ := (ih made hmade).2 entries hentries holder hholder
            (Outline.Entry.Alone.of_entry (hcovered ▸ aloneMade) hholder) inner hinner hwithin
          refine ⟨?_, taskItem?_matches_list (fun _ _ => .alike) hentries hinclude aloneMade
            hholder hopens he hlists⟩
          rw [hcovered]
          exact List.mem_flatMap.mpr ⟨holder, hholder, List.mem_cons_of_mem _ he⟩
    obtain ⟨he, item', hmade', hmatches⟩ := hmatch
    refine ⟨List.mem_flatMap.mpr ⟨made, hmade, he⟩,
      taskItems_matches_item Part.Renamed.refl alone hmade he ?_⟩
    rw [hfound, hmade']
    exact .some hmatches
  | case3 s => exact ⟨by simp [taskItems], by simp [Outline.Node.entries?]⟩
  | case4 => exact ⟨by simp [taskItems], by simp [Outline.Node.entries?]⟩

end Holders

end Playbook

end PlaybookStyle
