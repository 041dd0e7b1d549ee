/-
Scalars of a playbook stand apart.

The scalars of an outline begin on lines of their own (`scan_scalars_apart`). A playbook is
made from the outline part by part, and no part of the outline is used twice: the places of
the scalars in a part are at most those in what it is made from. So no two scalars of a
playbook stand at one place, and the place of a scalar tells what it is for.

* `scalars_nodup` — the scalars of any playbook that was built.
-/

import Mathlib.Algebra.Order.BigOperators.Group.List
import PlaybookStyle.Proofs.Playbook.Reordering
import PlaybookStyle.Proofs.Playbook.Scalars

namespace PlaybookStyle

/-! ### Scalars of an outline -/

namespace Outline

/-- The scalars in a node, in the order of the source. -/
def Node.allScalars : Node → List Scalar
  | .mapping _ entries => entries.flatMap fun entry => entry.value.allScalars
  | .sequence _ items => items.flatMap fun item => item.value.allScalars
  | .scalar s => [s]
  | .empty => []
termination_by n => n
decreasing_by
  · exact sizeOf_entry_value_lt ‹_› _
  · exact sizeOf_item_value_lt ‹_› _

namespace Node

variable {n : Node}

@[simp] theorem allScalars_mapping (position : Position) (entries : List (Entry Node)) :
    (mapping position entries).allScalars = entries.flatMap fun entry => entry.value.allScalars := by
  rw [allScalars]

@[simp] theorem allScalars_sequence (position : Position) (items : List (Item Node)) :
    (sequence position items).allScalars = items.flatMap fun item => item.value.allScalars := by
  rw [allScalars]

@[simp] theorem allScalars_scalar (s : Scalar) : (scalar s).allScalars = [s] := by
  rw [allScalars]

@[simp] theorem allScalars_empty : empty.allScalars = [] := by
  rw [allScalars]

theorem Everywhere.of_mem_allScalars {P : Position → Prop} (h : n.Everywhere P) {s : Scalar}
    (hs : s ∈ n.allScalars) : P s.position := by
  induction h with
  | empty => simp at hs
  | scalar h =>
    obtain rfl := List.mem_singleton.mp (allScalars_scalar _ ▸ hs)
    exact h
  | sequence _ _ ih =>
    rw [allScalars_sequence] at hs
    obtain ⟨item, hitem, hs⟩ := List.mem_flatMap.mp hs
    exact ih item hitem hs
  | mapping _ _ ih =>
    rw [allScalars_mapping] at hs
    obtain ⟨entry, hentry, hs⟩ := List.mem_flatMap.mp hs
    exact ih entry hentry hs

/-- What takes consecutive lines has its scalars on lines of their own, if each part has. -/
theorem nodup_lines_flatMap {α : Type} {range : LineRange} {parts : List α} {lines : α → LineRange}
    {value : α → Node} (order : LineRange.Consecutive range (parts.map lines))
    (nested : ∀ part ∈ parts, (value part).Nested (lines part))
    (each : ∀ part ∈ parts, ((value part).allScalars.map (·.position.line)).Nodup) :
    ((parts.flatMap fun part => (value part).allScalars).map (·.position.line)).Nodup := by
  rw [List.map_flatMap, List.nodup_flatMap]
  refine ⟨each, (List.pairwise_map.mp order.order).imp_of_mem fun {a b} ha hb hbefore => ?_⟩
  refine List.disjoint_left.mpr ?_
  intro line hline hline'
  obtain ⟨s, hs, rfl⟩ := List.mem_map.mp hline
  obtain ⟨s', hs', same⟩ := List.mem_map.mp hline'
  have hlast := ((nested a ha).everywhere.of_mem_allScalars hs).2
  have hfirst := ((nested b hb).everywhere.of_mem_allScalars hs').1
  rw [LineRange.Before] at hbefore
  omega

theorem Nested.nodup_lines {range : LineRange} (nested : n.Nested range) :
    (n.allScalars.map (·.position.line)).Nodup := by
  induction nested with
  | empty => simp
  | scalar => simp
  | sequence parts values ih =>
    rw [allScalars_sequence]
    exact nodup_lines_flatMap parts values ih
  | mapping parts values ih =>
    rw [allScalars_mapping]
    exact nodup_lines_flatMap parts values ih

/-- The places of the scalars in a node, in no order. -/
def places (n : Node) : Multiset Position := (n.allScalars.map Scalar.position : List Position)

theorem places_flatMap {α : Type} (parts : List α) (value : α → Node) :
    (((parts.flatMap fun part => (value part).allScalars).map Scalar.position : List Position) :
      Multiset Position) = (parts.map fun part => (value part).places).sum := by
  induction parts with
  | nil => rfl
  | cons part rest ih =>
    rw [List.flatMap_cons, List.map_append, ← Multiset.coe_add, ih, List.map_cons, List.sum_cons,
      places]

@[simp] theorem places_mapping (position : Position) (entries : List (Entry Node)) :
    (mapping position entries).places = (entries.map fun entry => entry.value.places).sum := by
  rw [places, allScalars_mapping, places_flatMap]

@[simp] theorem places_sequence (position : Position) (items : List (Item Node)) :
    (sequence position items).places = (items.map fun item => item.value.places).sum := by
  rw [places, allScalars_sequence, places_flatMap]

@[simp] theorem places_scalar (s : Scalar) : (scalar s).places = {s.position} := by
  rw [places, allScalars_scalar]
  rfl

@[simp] theorem places_empty : empty.places = 0 := by
  rw [places, allScalars_empty]
  rfl

theorem places_of_entries? {entries : List (Entry Node)} (h : n.entries? = some entries) :
    n.places = (entries.map fun entry => entry.value.places).sum := by
  cases n with
  | mapping position found =>
    obtain rfl := Option.some.inj h
    rw [places_mapping]
  | _ => cases h

theorem places_of_scalar? {s : Scalar} (h : n.scalar? = some s) : n.places = {s.position} := by
  cases n with
  | scalar found =>
    obtain rfl := Option.some.inj h
    rw [places_scalar]
  | _ => cases h

end Node

/-- **No two scalars of an outline stand at one place**, nor do they begin on one line. -/
theorem scan_scalars_apart (source : List Char) : (Outline.scan source).root.places.Nodup := by
  obtain ⟨⟨range, nested⟩, -⟩ := Outline.scan_nested source
  have hlines : (((Outline.scan source).root.allScalars.map Scalar.position).map
      Position.line).Nodup := by
    rw [List.map_map]
    exact nested.nodup_lines
  exact Multiset.coe_nodup.mpr hlines.of_map

end Outline

namespace Playbook

open Outline (Node Item)

/-! ### Scalars on a survey -/

/-- The places of the scalars on a walk, in no order. -/
def placesOn (visits : List Visit) : Multiset Position :=
  (visits.filterMap fun visit => visit.part.scalar?.map Scalar.position : List Position)

@[simp] theorem placesOn_nil : placesOn [] = 0 := rfl

@[simp] theorem placesOn_append (a b : List Visit) : placesOn (a ++ b) = placesOn a + placesOn b := by
  rw [placesOn, List.filterMap_append]
  rfl

@[simp] theorem placesOn_scalar (s : Scalar) (previous? : Option Part) (rest : List Visit) :
    placesOn (⟨.scalar s, previous?⟩ :: rest) = {s.position} + placesOn rest := rfl

theorem placesOn_plain {part : Part} (plain : part.scalar? = none) (previous? : Option Part)
    (rest : List Visit) : placesOn (⟨part, previous?⟩ :: rest) = placesOn rest := by
  rw [placesOn, List.filterMap_cons, plain]
  rfl

@[simp] theorem placesOn_flatMap {α : Type} (list : List α) (f : α → List Visit) :
    placesOn (list.flatMap f) = (list.map fun a => placesOn (f a)).sum := by
  induction list with
  | nil => rfl
  | cons a rest ih => rw [List.flatMap_cons, placesOn_append, ih, List.map_cons, List.sum_cons]

theorem placesOn_inPlace (held : List (Position × List Visit)) :
    placesOn (inPlace held) = (held.map fun h => placesOn h.2).sum := by
  rw [inPlace, placesOn_flatMap]
  exact ((List.mergeSort_perm _ _).map _).sum_eq

/-- Elements of a row that are no scalars bring along what is inside them. -/
theorem placesOn_inRow {α : Type} {part : α → Part} {inside : α → List Visit} {list : List α}
    (plain : ∀ a ∈ list, (part a).scalar? = none) (previous? : Option Part) :
    placesOn (inRow previous? (list.map fun a => (part a, inside a))) =
      (list.map fun a => placesOn (inside a)).sum := by
  induction list generalizing previous? with
  | nil => rfl
  | cons a rest ih =>
    obtain ⟨ha, hrest⟩ := List.forall_mem_cons.mp plain
    rw [List.map_cons, inRow_cons, placesOn_plain ha, placesOn_append, ih hrest, List.map_cons,
      List.sum_cons]

/-- What is made of some elements takes no more than the elements have. -/
theorem sum_filterMap_le {α β : Type} {list : List α} {make : α → Option β}
    {taken : β → Multiset Position} {has : α → Multiset Position}
    (h : ∀ a ∈ list, ∀ b, make a = some b → taken b ≤ has a) :
    ((list.filterMap make).map taken).sum ≤ (list.map has).sum := by
  induction list with
  | nil => exact le_rfl
  | cons a rest ih =>
    obtain ⟨ha, hrest⟩ := List.forall_mem_cons.mp h
    rw [List.filterMap_cons, List.map_cons, List.sum_cons]
    cases hmade : make a with
    | none => exact (ih hrest).trans (Multiset.le_add_left _ _)
    | some b =>
      dsimp only
      rw [List.map_cons, List.sum_cons]
      exact add_le_add (ha b hmade) (ih hrest)

/-! ### Values, entries and calls -/

theorem placesOn_ofNode (n : Node) (key? : Option String) (scope : Scope) :
    placesOn (Value.ofNode key? scope n).survey = n.places := by
  induction n using Outline.Node.allEntries.induct generalizing key? scope with
  | case1 position entries ih =>
    rw [Value.ofNode, Value.survey, entriesOf_eq_map, List.flatMap_map, placesOn_flatMap,
      Node.places_mapping]
    refine congrArg List.sum (List.map_congr_left fun entry hentry => ?_)
    rw [placesOn_plain rfl, entryOf_eq, ih entry hentry]
  | case2 position items ih =>
    rw [Value.ofNode, Value.survey, itemsOf_eq_map, List.flatMap_map, placesOn_flatMap,
      Node.places_sequence]
    exact congrArg List.sum (List.map_congr_left fun item hitem => ih item hitem _ _)
  | case3 s =>
    rw [Value.ofNode, Value.survey, Node.places_scalar]
    rfl
  | case4 =>
    rw [Value.ofNode, Value.survey, Node.places_empty, placesOn_nil]

theorem placesOn_entryOf (scope : Scope) (assigns : Bool) (entry : Outline.Entry Node) :
    placesOn (entryOf scope assigns entry).survey = entry.value.places := by
  rw [EntryOf.survey, placesOn_plain rfl, entryOf_eq, placesOn_ofNode]

theorem placesOn_call (entry : Outline.Entry Node) :
    placesOn (ModuleCall.ofEntry entry).survey = entry.value.places := by
  rw [ModuleCall.survey, placesOn_plain rfl, ModuleCall.ofEntry]
  dsimp only
  split
  · rename_i s hs
    rw [hs, Value.survey, Node.places_scalar]
    rfl
  · exact placesOn_ofNode _ _ _

/-! ### Includes and tasks -/

variable {source : SourceLines}

theorem placesOn_include {keywords : List String} {item : Item Node} {i : Include}
    (h : Include.ofItem? source keywords item = some i) :
    placesOn i.survey = item.value.places := by
  simp only [Include.ofItem?, Option.bind_eq_bind, Option.bind_eq_some_iff, Option.pure_def] at h
  obtain ⟨entries, hentries, found, hfound, target, htarget, hi⟩ := h
  obtain rfl := Option.some.inj hi
  have hperm := (perm_cons_eraseP hfound).map fun entry : Outline.Entry Node => entry.value.places
  rw [Include.survey, placesOn_scalar, List.flatMap_map, placesOn_flatMap,
    Node.places_of_entries? hentries, hperm.sum_eq, List.map_cons, List.sum_cons,
    Node.places_of_scalar? htarget]
  exact congrArg (_ + ·) (congrArg List.sum (List.map_congr_left fun entry _ =>
    placesOn_entryOf _ _ entry))

theorem TaskItem.part_plain (item : TaskItem) : item.part.scalar? = none := by
  cases item <;> rfl

/-- The scalars in a list of tasks and includes. -/
theorem placesOn_items (list : List TaskItem) (previous? : Option Part) :
    placesOn (inRow previous? (list.map fun item => (item.part, item.survey))) =
      (list.map fun item => placesOn item.survey).sum :=
  placesOn_inRow (fun item _ => item.part_plain) previous?

/-- What a task is made of takes no more than the entries have, if each nested list does. -/
theorem placesOn_taskParts (found : Bool) {entries : List (Outline.Entry Node)}
    (lists : ∀ entry ∈ entries,
      ((taskItems source entry.value).map fun item => placesOn item.survey).sum ≤
        entry.value.places) :
    ((taskParts source found entries).map fun part => placesOn part.2.survey).sum ≤
      (entries.map fun entry => entry.value.places).sum := by
  induction entries generalizing found with
  | nil =>
    rw [taskParts]
    exact le_rfl
  | cons entry rest ih =>
    obtain ⟨hentry, hrest⟩ := List.forall_mem_cons.mp lists
    rw [taskParts, List.map_cons, List.sum_cons, List.map_cons, List.sum_cons]
    refine add_le_add ?_ (ih _ hrest)
    rw [snd_taskPart]
    split
    · exact (placesOn_items _ none).trans_le hentry
    · split
      · exact (placesOn_call entry).le
      · exact (placesOn_entryOf _ _ entry).le

theorem placesOn_task {position : Position} {endLine : Nat} {entries : List (Outline.Entry Node)}
    (lists : ∀ entry ∈ entries,
      ((taskItems source entry.value).map fun item => placesOn item.survey).sum ≤
        entry.value.places) :
    placesOn (TaskItem.task (TaskOf.ofParts source position endLine
        (taskParts source false entries))).survey ≤
      (entries.map fun entry => entry.value.places).sum := by
  have hmodule : (TaskOf.ofParts source position endLine
      (taskParts source false entries)).module?.toList =
        (taskParts source false entries).filterMap (·.2.module?) := by
    rw [TaskOf.ofParts, module_taskParts]
    exact (calls_taskParts false entries).symm
  rw [TaskItem.survey, placesOn_inPlace, hmodule]
  refine (((held_perm_parts (taskParts source false entries)).map fun held =>
    placesOn held.2).sum_eq.trans ?_).trans_le (placesOn_taskParts false lists)
  rw [List.map_map]
  rfl

/-- A list of tasks takes no more than its node has, and so do the lists under its keys, for
the tasks of a list are made from the entries of its items. -/
theorem placesOn_taskItems (source : SourceLines) (n : Node) :
    ((taskItems source n).map fun item => placesOn item.survey).sum ≤ n.places ∧
      ∀ entries, n.entries? = some entries → ∀ entry ∈ entries,
        ((taskItems source entry.value).map fun item => placesOn item.survey).sum ≤
          entry.value.places := by
  induction n using Outline.Node.allEntries.induct with
  | case1 position entries ih =>
    refine ⟨?_, ?_⟩
    · rw [taskItems]
      exact Multiset.zero_le _
    · rintro _ ⟨⟩ entry hentry
      exact (ih entry hentry).1
  | case2 position items ih =>
    refine ⟨?_, by simp [Outline.Node.entries?]⟩
    rw [taskItems, taskItemsOf_eq_filterMap, Node.places_sequence]
    refine sum_filterMap_le fun raw hraw item hmade => ?_
    rcases taskItem?_cases hmade with ⟨i, hinclude, rfl⟩ | ⟨entries, -, hentries, rfl⟩
    · rw [TaskItem.survey]
      exact (placesOn_include hinclude).le
    · rw [Node.places_of_entries? hentries]
      exact placesOn_task ((ih raw hraw).2 entries hentries)
  | case3 s => exact ⟨by simp [taskItems], by simp [Outline.Node.entries?]⟩
  | case4 => exact ⟨by simp [taskItems], by simp [Outline.Node.entries?]⟩

/-! ### Roles, plays and blocks -/

theorem roleEntry_survey (entry : Outline.Entry Node) :
    placesOn (roleEntry entry).survey = entry.value.places := by
  unfold roleEntry
  dsimp only
  split_ifs <;> exact placesOn_entryOf _ _ entry

theorem placesOn_role {item : Item Node} {role : Role} (h : Role.ofItem? source item = some role) :
    placesOn role.survey = item.value.places := by
  unfold Role.ofItem? at h
  dsimp only at h
  split at h
  · rename_i s hs
    rw [hs, Node.places_scalar]
    split at h
    all_goals
      obtain rfl := Option.some.inj h
      rfl
  · rename_i entries hentries
    obtain rfl := Option.some.inj h
    rw [hentries, Node.places_mapping, Role.survey, Role.text?, Role.written]
    dsimp only
    rw [Option.toList_none, List.map_nil, List.nil_append, List.flatMap_map, placesOn_flatMap]
    exact congrArg List.sum (List.map_congr_left fun entry _ => roleEntry_survey entry)
  all_goals cases h

theorem placesOn_section {entry : Outline.Entry Node} {s : PlaySection}
    (h : playSection? source entry = some s) : placesOn s.items.survey ≤ entry.value.places := by
  rcases items_of_playSection? h with hitems | hitems
  · rw [hitems, SectionItems.survey, placesOn_inRow fun _ _ => rfl]
    unfold rolesOf
    split
    · rw [‹entry.value = _›, Node.places_sequence]
      exact sum_filterMap_le fun item _ role hrole => (placesOn_role hrole).le
    · exact Multiset.zero_le _
  · rw [hitems, SectionItems.survey, placesOn_items]
    exact (placesOn_taskItems source entry.value).1

theorem placesOn_playKey (raw : Outline.Entry Node) :
    placesOn (surveyOfPlayKey source raw) ≤ raw.value.places := by
  rw [surveyOfPlayKey, playEntry?_eq]
  cases opens : opensSection raw.key with
  | false =>
    rw [playSection?_eq, opens]
    simp [placesOn_entryOf]
  | true =>
    cases hs : playSection? source raw with
    | none => exact Multiset.zero_le _
    | some s => simpa using placesOn_section hs

theorem placesOn_play (item : Item Node) :
    placesOn (Block.play (Play.ofItem source item)).survey ≤ item.value.places := by
  have hkeys : placesOn (Block.play (Play.ofItem source item)).survey =
      ((item.value.entries?.getD []).map fun raw => placesOn (surveyOfPlayKey source raw)).sum := by
    rw [Block.survey, placesOn_inPlace]
    refine ((held_perm_keys (item.value.entries?.getD [])).map fun held =>
      placesOn held.2).sum_eq.trans ?_
    rw [List.map_map]
    rfl
  rw [hkeys]
  cases hentries : item.value.entries? with
  | none => exact Multiset.zero_le _
  | some entries =>
    rw [Node.places_of_entries? hentries]
    exact List.sum_le_sum fun raw _ => placesOn_playKey raw

theorem placesOn_block {value : Yaml.Value} {item : Item Node} {block : Block}
    (h : Block.ofItem source value item = .ok block) : placesOn block.survey ≤ item.value.places := by
  obtain ⟨-, ⟨-, rfl⟩ | ⟨-, i, hinclude, rfl⟩⟩ := Block.ofItem_cases h
  · exact placesOn_play item
  · exact (placesOn_include hinclude).le

theorem placesOn_blocks {values : List Yaml.Value} {items : List (Item Node)} {blocks : List Block}
    (made : List.Forall₂ (fun pair block => Block.ofItem source pair.1 pair.2 = .ok block)
      (values.zip items) blocks) :
    (blocks.map fun block => placesOn block.survey).sum ≤
      (items.map fun item => item.value.places).sum := by
  induction values generalizing items blocks with
  | nil =>
    obtain rfl := List.forall₂_nil_left_iff.mp made
    exact Multiset.zero_le _
  | cons value values ih =>
    cases items with
    | nil =>
      obtain rfl := List.forall₂_nil_left_iff.mp made
      exact le_rfl
    | cons item items =>
      obtain ⟨block, rest, hblock, hrest, rfl⟩ := List.forall₂_cons_left_iff.mp made
      rw [List.map_cons, List.sum_cons, List.map_cons, List.sum_cons]
      exact add_le_add (placesOn_block hblock) (ih hrest)

/-! ### Playbooks -/

/-- The scalars of a playbook are those of its parts. -/
theorem filterMap_scalar?_parts (p : Playbook) :
    p.parts.filterMap Part.scalar? = p.scalars := by
  have hblocks : (p.blocks.map Block.part).filterMap Part.scalar? = [] :=
    List.filterMap_eq_nil_iff.mpr (List.forall_mem_map.mpr fun block _ => by cases block <;> rfl)
  have hitems : (p.items.map TaskItem.part).filterMap Part.scalar? = [] :=
    List.filterMap_eq_nil_iff.mpr (List.forall_mem_map.mpr fun item _ => item.part_plain)
  rw [parts, List.filterMap_cons]
  simp [hblocks, hitems, Part.scalar?, Function.comp_def]

/-- **No two scalars of a playbook stand at one place.** -/
theorem scalars_nodup {path content : String} {playbook : Playbook}
    (parsed : Playbook.parse path content = .ok playbook) :
    (playbook.scalars.map Scalar.position).Nodup := by
  obtain ⟨value, build⟩ := exists_build_of_parse parsed
  obtain ⟨-, items, position, hroot, values, -, hblocks⟩ := exists_blocksOf_of_build build
  have hsurvey : placesOn playbook.survey = (playbook.scalars.map Scalar.position : List Position) := by
    have hperm := (playbook.survey_perm_parts.filterMap Part.scalar?).map Scalar.position
    rw [filterMap_scalar?_parts, List.filterMap_map, List.map_filterMap] at hperm
    exact Multiset.coe_eq_coe.mpr hperm
  have hplaces : placesOn playbook.survey ≤ (Outline.scan content.toList).root.places := by
    rw [survey, placesOn_plain rfl, placesOn_inRow fun block _ => by cases block <;> rfl, hroot,
      Node.places_sequence]
    exact placesOn_blocks (blocksOf_zip hblocks)
  have hnodup := Multiset.nodup_of_le hplaces (Outline.scan_scalars_apart content.toList)
  rw [hsurvey] at hnodup
  exact Multiset.coe_nodup.mp hnodup

end Playbook

end PlaybookStyle
