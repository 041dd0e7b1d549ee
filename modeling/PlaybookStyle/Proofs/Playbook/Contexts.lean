/-
What the scalars of a playbook are for.

The walk meets nothing that the survey has not (`visits_subset_survey`), so what it meets is
in the inventory. The scope in which a value is made gives its context to all scalars in it,
however deep. Under a conditional key of a play, a task, an include or a role all of them are
conditions; parameters stand nowhere but in what a module is given as a mapping or a
sequence.

* `keepsContext_of_mem_outerEntries`, `exists_call_of_moduleParam` — the contexts in a
  playbook that was read.
-/

import PlaybookStyle.Proofs.Playbook.Apart
import PlaybookStyle.Proofs.Playbook.Qualified

namespace PlaybookStyle

namespace Playbook

open Outline (Node Item)

/-! ### The walk keeps to the survey -/

theorem mem_inPlace {held : List (Position × List Visit)} {visit : Visit} :
    visit ∈ inPlace held ↔ ∃ h ∈ held, visit ∈ h.2 := by
  simp only [inPlace, List.mem_flatMap, List.mem_mergeSort]

theorem cons_append_subset {visit : Visit} {inside inside' rest rest' : List Visit}
    (hinside : inside ⊆ inside') (hrest : rest ⊆ rest') :
    visit :: (inside ++ rest) ⊆ visit :: (inside' ++ rest') :=
  List.cons_subset_cons _ (List.append_subset.mpr
    ⟨List.subset_append_of_subset_left _ hinside, List.subset_append_of_subset_right _ hrest⟩)

theorem visitsOfItems_subset {items : List TaskItem}
    (h : ∀ item ∈ items, visitsOfItem item ⊆ item.survey) (previous? : Option Part) :
    visitsOfItems previous? items ⊆
      inRow previous? (items.map fun item => (item.part, item.survey)) := by
  induction items generalizing previous? with
  | nil => simp [visitsOfItems]
  | cons item rest ih =>
    obtain ⟨hitem, hrest⟩ := List.forall_mem_cons.mp h
    rw [visitsOfItems, List.map_cons, inRow_cons]
    exact cons_append_subset hitem (ih hrest _)

theorem visitsOfItem_subset (item : TaskItem) : visitsOfItem item ⊆ item.survey := by
  induction item using TaskItem.induction with
  | inclusion i => rw [visitsOfItem, TaskItem.survey, i.visits_eq_survey]; exact List.Subset.refl _
  | task t ih =>
    rw [visitsOfItem, visitsOfTask_eq, TaskItem.survey]
    intro visit hvisit
    obtain ⟨field, -, hvisit⟩ := List.mem_flatMap.mp hvisit
    rw [mem_inPlace]
    unfold TaskOf.visitsOfField at hvisit
    split at hvisit
    · rename_i entry hentry
      rw [visitsOfEntry_eq_survey] at hvisit
      refine ⟨(entry.position, entry.survey), ?_, hvisit⟩
      exact List.mem_append_left _ (List.mem_append_left _
        (List.mem_map_of_mem (List.mem_of_find?_eq_some hentry)))
    · split at hvisit
      · rename_i visits hvisits
        obtain ⟨before, after, hlists, -⟩ := List.lookup_eq_some_iff.mp hvisits
        have hpair : (field.key, visits) ∈ visitsOfNested t.nested := by
          rw [hlists]
          exact List.mem_append_right _ List.mem_cons_self
        rw [visitsOfNested_eq_map] at hpair
        obtain ⟨list, hlist, hmade⟩ := List.mem_map.mp hpair
        obtain rfl : visitsOfItems none list.items = visits := congrArg Prod.snd hmade
        refine ⟨(list.position, inRow none (list.items.map fun item => (item.part, item.survey))), ?_,
          visitsOfItems_subset (ih list hlist) none hvisit⟩
        exact List.mem_append_right _ (List.mem_map_of_mem hlist)
      · obtain ⟨call, hcall, hvisit⟩ := List.mem_flatMap.mp hvisit
        have hmodule := (Option.mem_filter_iff.mp (Option.mem_toList.mp hcall)).1
        rw [call.visits_eq_survey] at hvisit
        refine ⟨(call.position, call.survey), ?_, hvisit⟩
        exact List.mem_append_left _ (List.mem_append_right _
          (List.mem_map_of_mem (Option.mem_toList.mpr hmodule)))

theorem SectionItems.visits_subset (s : SectionItems) : s.visits ⊆ s.survey := by
  cases s with
  | roles list =>
    rw [visits, survey, visitsOfRoles_eq_inRow]
    exact List.Subset.refl _
  | tasks list => exact visitsOfItems_subset (fun item _ => visitsOfItem_subset item) none

theorem Block.visits_subset (block : Block) : block.visits ⊆ block.survey := by
  cases block with
  | inclusion i => rw [visits, survey, i.visits_eq_survey]; exact List.Subset.refl _
  | play play =>
    intro visit hvisit
    obtain ⟨field, -, hvisit⟩ := List.mem_flatMap.mp hvisit
    rw [survey, mem_inPlace]
    unfold Play.visitsOfField at hvisit
    split at hvisit
    · rename_i entry hentry
      rw [visitsOfEntry_eq_survey] at hvisit
      refine ⟨(entry.position, entry.survey), ?_, hvisit⟩
      exact List.mem_append_left _ (List.mem_map_of_mem (List.mem_of_find?_eq_some hentry))
    · obtain ⟨s, hs, hvisit⟩ := List.mem_flatMap.mp hvisit
      refine ⟨(s.position, s.items.survey), ?_, s.items.visits_subset hvisit⟩
      exact List.mem_append_right _
        (List.mem_map_of_mem (List.mem_of_find?_eq_some (Option.mem_toList.mp hs)))

theorem visitsOfBlocks_subset (blocks : List Block) (previous? : Option Part) :
    visitsOfBlocks previous? blocks ⊆
      inRow previous? (blocks.map fun block => (block.part, block.survey)) := by
  induction blocks generalizing previous? with
  | nil => simp [visitsOfBlocks]
  | cons block rest ih =>
    rw [visitsOfBlocks, List.map_cons, inRow_cons]
    exact cons_append_subset block.visits_subset (ih _)

/-- **The walk meets nothing that is not in the playbook.** -/
theorem visits_subset_survey (p : Playbook) : p.visits ⊆ p.survey :=
  List.cons_subset_cons _ (visitsOfBlocks_subset p.blocks none)

/-- A scalar on the walk is one of the playbook. -/
theorem mem_scalars_of_mem_visits {p : Playbook} {visit : Visit} (hvisit : visit ∈ p.visits)
    {s : Scalar} (hpart : visit.part = .scalar s) : s ∈ p.scalars := by
  have hmem : visit.part ∈ p.parts :=
    p.survey_perm_parts.mem_iff.mp (List.mem_map_of_mem (p.visits_subset_survey hvisit))
  rw [← filterMap_scalar?_parts]
  exact List.mem_filterMap.mpr ⟨visit.part, hmem, by rw [hpart]; rfl⟩

theorem mem_scalars_of_mem_outerEntries {p : Playbook} {entry : Entry}
    (hentry : entry ∈ p.outerEntries) {s : Scalar} (hs : s ∈ entry.value.scalars) :
    s ∈ p.scalars := by
  refine List.mem_append_left _ (List.mem_append_left _ (List.mem_flatMap.mpr ⟨entry.value, ?_, hs⟩))
  exact List.mem_append_left _ (List.mem_map_of_mem hentry)

/-! ### Contexts -/

/-- All scalars in a value have the context and the module of its scope, and the key of the value
or one in the node. -/
theorem scope_of_mem_ofNode {n : Node} {key? : Option String} {scope : Scope} {s : Scalar}
    (hs : s ∈ (Value.ofNode key? scope n).scalars) :
    s.context = scope.context ∧ s.module? = scope.module? ∧
      (s.key? = key? ∨ ∃ e ∈ n.allEntries, s.key? = some e.key) := by
  induction n using Outline.Node.allEntries.induct generalizing key? scope with
  | case1 position entries ih =>
    rw [Value.ofNode, Value.scalars_mapping, entriesOf_eq_map, List.flatMap_map] at hs
    obtain ⟨entry, hentry, hs⟩ := List.mem_flatMap.mp hs
    rw [entryOf_eq] at hs
    obtain ⟨context, module, hkey⟩ := @ih entry hentry _ scope.nested hs
    refine ⟨context, module, .inr ?_⟩
    rw [Outline.Node.allEntries_mapping]
    rcases hkey with hkey | ⟨e, he, hkey⟩
    · exact ⟨entry, List.mem_flatMap_of_mem hentry List.mem_cons_self, hkey⟩
    · exact ⟨e, List.mem_flatMap_of_mem hentry (List.mem_cons_of_mem _ he), hkey⟩
  | case2 position items ih =>
    rw [Value.ofNode, Value.scalars_sequence, itemsOf_eq_map, List.flatMap_map] at hs
    obtain ⟨item, hitem, hs⟩ := List.mem_flatMap.mp hs
    obtain ⟨context, module, hkey⟩ := @ih item hitem _ scope.nested hs
    refine ⟨context, module, hkey.imp_right ?_⟩
    rw [Outline.Node.allEntries_sequence]
    rintro ⟨e, he, hkey⟩
    exact ⟨e, List.mem_flatMap_of_mem hitem he, hkey⟩
  | case3 found =>
    rw [Value.ofNode, Value.scalars_scalar, List.mem_singleton] at hs
    rw [hs]
    exact ⟨rfl, rfl, .inl rfl⟩
  | case4 =>
    rw [Value.ofNode, Value.scalars_null] at hs
    cases hs

/-- No scalar under an entry is a parameter, and under a conditional key all are conditions. -/
structure EntryOf.KeepsContext (entry : Entry) : Prop where
  outside : ∀ s ∈ entry.value.scalars, s.context ≠ .moduleParam
  condition : conditionalKeys.contains entry.key = true →
    ∀ s ∈ entry.value.scalars, s.context = .condition

theorem entryOf_keepsContext {scope : Scope} {entry : Outline.Entry Node}
    (outside : scope.context ≠ .moduleParam)
    (condition : conditionalKeys.contains entry.key = true → scope.context = .condition)
    (assigns : Bool) : (entryOf scope assigns entry).KeepsContext := by
  rw [entryOf_eq]
  exact ⟨fun s hs => (scope_of_mem_ofNode hs).1 ▸ outside,
    fun hkey s hs => (scope_of_mem_ofNode hs).1.trans (condition hkey)⟩

theorem context_optionScope_ne (key : String) : (optionScope key).context ≠ .moduleParam := by
  unfold optionScope
  split_ifs <;> decide

theorem context_playScope_ne (key : String) : (playScope key).context ≠ .moduleParam := by
  unfold playScope
  split_ifs <;> decide

/-- There are four conditional keys. -/
theorem contains_conditionalKeys_iff {key : String} :
    conditionalKeys.contains key = true ↔
      key = "when" ∨ key = "changed_when" ∨ key = "failed_when" ∨ key = "until" := by
  simp only [conditionalKeys, List.contains_iff_mem, List.mem_cons, List.not_mem_nil, or_false]

/-- A conditional key opens conditions in plays, tasks and includes. -/
theorem context_of_conditional {key : String} (h : conditionalKeys.contains key = true) :
    (optionScope key).context = .condition ∧ (playScope key).context = .condition := by
  rcases contains_conditionalKeys_iff.mp h with rfl | rfl | rfl | rfl <;> decide

theorem optionEntry_keepsContext (entry : Outline.Entry Node) :
    (optionEntry entry).KeepsContext :=
  entryOf_keepsContext (context_optionScope_ne _) (fun h => (context_of_conditional h).1) _

theorem roleEntry_keepsContext (entry : Outline.Entry Node) : (roleEntry entry).KeepsContext := by
  have hplain : conditionalKeys.contains entry.key = true →
      roleNameKeys.contains entry.key = false ∧ (entry.key == "vars") = false := by
    intro h
    rcases contains_conditionalKeys_iff.mp h with hkey | hkey | hkey | hkey <;> rw [hkey] <;> decide
  unfold roleEntry
  dsimp only
  split_ifs with name vars conditional
  · exact entryOf_keepsContext (by decide) (fun h => absurd name (Bool.eq_false_iff.mp (hplain h).1)) _
  · exact entryOf_keepsContext (by decide) (fun h => absurd vars (Bool.eq_false_iff.mp (hplain h).2)) _
  · exact entryOf_keepsContext (by decide) (fun _ => rfl) _
  · exact entryOf_keepsContext (by decide) (fun h => absurd h conditional) _
  · exact entryOf_keepsContext (by decide) (fun h => absurd h conditional) _

/-! ### The entries of a playbook -/

variable {path content : String} {playbook : Playbook} {source : SourceLines}

theorem playEntry_keepsContext {item : Item Node} {entry : Entry}
    (h : entry ∈ (Play.ofItem source item).entries) : entry.KeepsContext := by
  obtain ⟨raw, -, hmade⟩ := List.mem_filterMap.mp h
  rw [playEntry?_eq] at hmade
  split at hmade
  · cases hmade
  · obtain rfl := Option.some.inj hmade
    exact entryOf_keepsContext (context_playScope_ne _) (fun h => (context_of_conditional h).2) _

theorem taskEntry_keepsContext {item : Item Node} {t : Task}
    (made : taskItem? source item = some (.task t)) {entry : Entry} (h : entry ∈ t.entries) :
    entry.KeepsContext := by
  obtain ⟨entries, -, -, rfl⟩ := exists_entries_of_task made
  rw [TaskOf.ofParts, entries_taskParts] at h
  obtain ⟨raw, -, rfl⟩ := List.mem_map.mp h
  exact optionEntry_keepsContext raw

theorem Include.ofItem?_contexts {keywords : List String} {item : Item Node} {i : Include}
    (h : Include.ofItem? source keywords item = some i) :
    i.target.context = .includeTarget ∧ ∀ entry ∈ i.entries, entry.KeepsContext := by
  simp only [Include.ofItem?, Option.bind_eq_bind, Option.bind_eq_some_iff, Option.pure_def] at h
  obtain ⟨entries, -, found, -, target, -, hi⟩ := h
  obtain rfl := Option.some.inj hi
  refine ⟨rfl, fun entry hentry => ?_⟩
  obtain ⟨raw, -, rfl⟩ := List.mem_map.mp hentry
  exact optionEntry_keepsContext raw

theorem Role.ofItem?_contexts {item : Item Node} {role : Role}
    (h : Role.ofItem? source item = some role) :
    (∀ s ∈ role.text?, s.context ≠ .moduleParam) ∧ ∀ entry ∈ role.written, entry.KeepsContext := by
  unfold Role.ofItem? at h
  dsimp only at h
  split at h
  · split at h
    all_goals
      obtain rfl := Option.some.inj h
      exact ⟨by rintro _ ⟨⟩ ⟨⟩, by simp [Role.written]⟩
  · obtain rfl := Option.some.inj h
    refine ⟨by simp [Role.text?], fun entry hentry => ?_⟩
    obtain ⟨raw, -, rfl⟩ := List.mem_map.mp hentry
    exact roleEntry_keepsContext raw
  all_goals cases h

/-- An include of a playbook is made from an item of the outline. -/
theorem exists_item_of_mem_includes (parsed : Playbook.parse path content = .ok playbook)
    {i : Include} (hi : i ∈ playbook.includes) :
    ∃ keywords item, Include.ofItem? (.ofText content.toList) keywords item = some i := by
  rcases List.mem_append.mp hi with hi | hi
  · obtain ⟨value, build⟩ := exists_build_of_parse parsed
    obtain ⟨-, items, position, hroot, values, -, hblocks⟩ := exists_blocksOf_of_build build
    obtain ⟨block, hblock, hi⟩ := List.mem_filterMap.mp hi
    obtain ⟨pair, -, made⟩ := exists_of_mem_right (blocksOf_zip hblocks) hblock
    obtain ⟨-, ⟨-, rfl⟩ | ⟨-, i, hinclude, rfl⟩⟩ := Block.ofItem_cases made
    · cases hi
    · obtain rfl := Option.some.inj hi
      exact ⟨_, _, hinclude⟩
  · obtain ⟨item, hitem, hi⟩ := List.mem_filterMap.mp hi
    obtain ⟨list, -, raw, -, made⟩ := exists_item_of_mem_items parsed hitem
    rcases taskItem?_cases made with ⟨i, hinclude, rfl⟩ | ⟨entries, -, -, rfl⟩
    · obtain rfl := Option.some.inj hi
      exact ⟨_, raw, hinclude⟩
    · cases hi

/-- A role of a playbook is made from an item of the outline. -/
theorem exists_item_of_mem_roles (parsed : Playbook.parse path content = .ok playbook)
    {role : Role} (hrole : role ∈ playbook.roles) :
    ∃ item, Role.ofItem? (.ofText content.toList) item = some role := by
  obtain ⟨s, hs, hrole⟩ := List.mem_flatMap.mp hrole
  obtain ⟨-, -, -, -, -, raw, -, -, rfl⟩ := exists_key_of_mem_sections parsed hs
  split at hrole
  · unfold rolesOf at hrole
    split at hrole
    · obtain ⟨item, -, made⟩ := List.mem_filterMap.mp hrole
      exact ⟨item, made⟩
    · cases hrole
  · cases hrole

/-- **Under a conditional key stand conditions**, and no parameter under any key of a play, a
task, an include or a role. -/
theorem keepsContext_of_mem_outerEntries (parsed : Playbook.parse path content = .ok playbook)
    {entry : Entry} (hentry : entry ∈ playbook.outerEntries) : entry.KeepsContext := by
  simp only [Playbook.outerEntries, List.mem_append, List.mem_flatMap] at hentry
  rcases hentry with ((⟨play, hplay, hentry⟩ | ⟨t, ht, hentry⟩) | ⟨i, hi, hentry⟩) |
    ⟨role, hrole, hentry⟩
  · obtain ⟨-, -, -, item, -, rfl⟩ := exists_item_of_mem_plays parsed hplay
    exact playEntry_keepsContext hentry
  · obtain ⟨-, -, item, -, made⟩ := exists_item_of_mem_tasks parsed ht
    exact taskEntry_keepsContext made hentry
  · obtain ⟨keywords, item, made⟩ := exists_item_of_mem_includes parsed hi
    exact (Include.ofItem?_contexts made).2 entry hentry
  · obtain ⟨item, made⟩ := exists_item_of_mem_roles parsed hrole
    exact (Role.ofItem?_contexts made).2 entry hentry

/-- The value is a mapping or a sequence. -/
def Value.isCollection : Value → Bool
  | .mapping _ | .sequence _ => true
  | .scalar _ | .null => false

/-- A module with a parameter is given a mapping or a sequence; the parameter has its module, and
its key is that of the module or one below it. -/
theorem ofEntry_of_moduleParam {e : Outline.Entry Node} {s : Scalar}
    (hs : s ∈ (ModuleCall.ofEntry e).args.scalars) (param : s.context = .moduleParam) :
    (ModuleCall.ofEntry e).args.isCollection = true ∧ s.module? = some e.key ∧
      (s.key? = some e.key ∨ ∃ inner ∈ e.value.allEntries, s.key? = some inner.key) := by
  rw [ModuleCall.ofEntry] at hs ⊢
  dsimp only at hs ⊢
  cases hvalue : e.value with
  | scalar found =>
    rw [hvalue, Value.scalars_scalar, List.mem_singleton] at hs
    rw [hs] at param
    cases param
  | empty =>
    rw [hvalue] at hs
    dsimp only at hs
    rw [Value.ofNode, Value.scalars_null] at hs
    cases hs
  | mapping | sequence =>
    rw [hvalue] at hs
    refine ⟨?_, (scope_of_mem_ofNode hs).2⟩
    dsimp only
    rw [Value.ofNode]
    rfl

/-- **A parameter is in what a module is given** as a mapping or a sequence. -/
theorem exists_call_of_moduleParam (parsed : Playbook.parse path content = .ok playbook)
    {s : Scalar} (hs : s ∈ playbook.scalars) (param : s.context = .moduleParam) :
    ∃ t ∈ playbook.tasks, ∃ call, t.module? = some call ∧ call.args.isCollection = true ∧
      s ∈ call.args.scalars := by
  simp only [Playbook.scalars, Playbook.outerValues, List.mem_append, List.flatMap_append,
    List.mem_flatMap, List.mem_map, exists_exists_and_eq_and, List.mem_filterMap] at hs
  rcases hs with ((⟨entry, hentry, hs⟩ | ⟨call, hcall, hs⟩) | ⟨i, hi, rfl⟩) | ⟨role, hrole, hs⟩
  · exact absurd param ((keepsContext_of_mem_outerEntries parsed hentry).outside s hs)
  · obtain ⟨t, ht, hmodule⟩ := List.mem_filterMap.mp hcall
    obtain ⟨e, -, rfl, -⟩ := exists_call_of_mem_tasks parsed ht hmodule
    exact ⟨t, ht, _, hmodule, (ofEntry_of_moduleParam hs param).1, hs⟩
  · obtain ⟨keywords, item, made⟩ := exists_item_of_mem_includes parsed hi
    rw [(Include.ofItem?_contexts made).1] at param
    cases param
  · obtain ⟨item, made⟩ := exists_item_of_mem_roles parsed hrole
    exact absurd param ((Role.ofItem?_contexts made).1 s hs)

end Playbook

end PlaybookStyle
