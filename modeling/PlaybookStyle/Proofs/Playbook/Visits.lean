/-
The walk visits everything exactly once.

The walk finds what a play or a task holds by its fields: by the key among the
entries and nested lists, by the place among the sections, by the name for the
module. In a playbook that was built no lookup misses or hits twice as long as no
play and no task has a key twice: each part of a task stands under its own field,
the fields begin on later and later lines, and at most one of them is the module
(`Arranged`). So the walk is the survey of the playbook.

* `visitsOfItem_eq_survey`, `Play.visits_eq_survey` — the walk over a task, over a
  play.
* `taskItems_arranged` — tasks are made in such an arrangement.
-/

import Mathlib.Data.List.Sort
import Mathlib.Tactic.ByContra
import PlaybookStyle.Proofs.Outline.Ordering
import PlaybookStyle.Proofs.Playbook.Places
import PlaybookStyle.Proofs.Playbook.Survey

namespace PlaybookStyle

namespace Playbook

/-! ### The walk over values is their survey -/

theorem Value.visits_eq_survey (v : Value) : v.visits = v.survey := by
  induction v using Value.survey.induct with
  | case1 s => rw [Value.visits, Value.survey, Visit.alone]
  | case2 entries ih =>
    rw [Value.visits, Value.survey, visitsOfEntries_eq_flatMap]
    exact List.flatMap_congr fun entry hentry => by
      rw [visitsOfEntry_eq, Visit.alone, ih entry hentry]
  | case3 items ih =>
    rw [Value.visits, Value.survey, visitsOfValues_eq_flatMap]
    exact List.flatMap_congr ih
  | case4 => rw [Value.visits, Value.survey]

theorem visitsOfEntry_eq_survey (entry : Entry) : visitsOfEntry entry = entry.survey := by
  rw [visitsOfEntry_eq, entry.value.visits_eq_survey, EntryOf.survey, Visit.alone]

theorem visitsOfEntries_eq_survey (entries : List Entry) :
    visitsOfEntries entries = entries.flatMap EntryOf.survey := by
  rw [visitsOfEntries_eq_flatMap]
  exact List.flatMap_congr fun entry _ => visitsOfEntry_eq_survey entry

theorem Include.visits_eq_survey (i : Include) : i.visits = i.survey := by
  rw [Include.visits, Include.survey, visitsOfEntries_eq_survey, Visit.alone]

theorem ModuleCall.visits_eq_survey (m : ModuleCall) : m.visits = m.survey := by
  rw [ModuleCall.visits, ModuleCall.survey, Value.visits_eq_survey, Visit.alone]

theorem Role.visits_eq_survey (r : Role) : r.visits = r.survey := by
  unfold Role.visits Role.survey Role.text? Role.written
  cases r.form with
  | bare => simp [Visit.alone]
  | flow => simp [Visit.alone]
  | mapping => simp [visitsOfEntries_eq_survey]

/-! ### Rows -/

theorem visitsOfRoles_eq_inRow (previous? : Option Part) (roles : List Role) :
    visitsOfRoles previous? roles =
      inRow previous? (roles.map fun role => (.role role, role.survey)) := by
  induction roles generalizing previous? with
  | nil => simp [visitsOfRoles]
  | cons role rest ih => rw [visitsOfRoles, ih, role.visits_eq_survey, List.map_cons, inRow_cons]

theorem visitsOfItems_eq_inRow {items : List TaskItem}
    (h : ∀ item ∈ items, visitsOfItem item = item.survey) (previous? : Option Part) :
    visitsOfItems previous? items =
      inRow previous? (items.map fun item => (item.part, item.survey)) := by
  induction items generalizing previous? with
  | nil => simp [visitsOfItems]
  | cons item rest ih =>
    rw [visitsOfItems, ih fun i hi => h i (List.mem_cons_of_mem _ hi), h item List.mem_cons_self,
      List.map_cons, inRow_cons]

theorem visitsOfBlocks_eq_inRow {blocks : List Block}
    (h : ∀ block ∈ blocks, block.visits = block.survey) (previous? : Option Part) :
    visitsOfBlocks previous? blocks =
      inRow previous? (blocks.map fun block => (block.part, block.survey)) := by
  induction blocks generalizing previous? with
  | nil => simp [visitsOfBlocks]
  | cons block rest ih =>
    rw [visitsOfBlocks, ih fun b hb => h b (List.mem_cons_of_mem _ hb),
      h block List.mem_cons_self, List.map_cons, inRow_cons]

/-! ### Lists in place -/

theorem upTo_of_line_lt {a b : Position} (h : a.line < b.line) : a.upTo b = true := by
  simp [Position.upTo, h]

theorem line_eq_of_upTo {a b : Position} (hab : a.upTo b = true) (hba : b.upTo a = true) :
    a.line = b.line := by
  simp only [Position.upTo, Bool.or_eq_true, decide_eq_true_eq, Bool.and_eq_true, beq_iff_eq]
    at hab hba
  omega

theorem upTo_trans (a b c : Position) (hab : a.upTo b = true) (hbc : b.upTo c = true) :
    a.upTo c = true := by
  simp only [Position.upTo, Bool.or_eq_true, decide_eq_true_eq, Bool.and_eq_true, beq_iff_eq]
    at hab hbc ⊢
  omega

theorem upTo_total (a b : Position) : (a.upTo b || b.upTo a) = true := by
  simp only [Position.upTo, Bool.or_eq_true, decide_eq_true_eq, Bool.and_eq_true, beq_iff_eq]
  omega

/-- What is held on later and later lines is in place already, in whatever order it
is given. -/
theorem inPlace_eq_flatMap {γ : Type} {list : List γ} {place : γ → Position}
    {visits : γ → List Visit} {held : List (Position × List Visit)}
    (lines : (list.map fun c => (place c).line).Pairwise (· < ·))
    (perm : held.Perm (list.map fun c => (place c, visits c))) :
    inPlace held = list.flatMap visits := by
  have hlines : ((list.map fun c => (place c, visits c)).map fun a => a.1.line).Pairwise
      (· < ·) := by
    rw [List.map_map]
    exact lines
  have hperm := (List.mergeSort_perm held fun a b => a.1.upTo b.1).trans perm
  have hsorted : held.mergeSort (fun a b => a.1.upTo b.1) =
      list.map fun c => (place c, visits c) := by
    refine hperm.eq_of_pairwise ?_
      (List.pairwise_mergeSort (fun a b c => upTo_trans a.1 b.1 c.1)
        (fun a b => upTo_total a.1 b.1) held)
      ((List.pairwise_map.mp hlines).imp upTo_of_line_lt)
    intro a b ha hb hab hba
    exact List.inj_on_of_nodup_map hlines.nodup (hperm.mem_iff.mp ha) hb (line_eq_of_upTo hab hba)
  rw [inPlace, hsorted, List.flatMap_map]

/-! ### Tasks -/

/-- The key under which a part of a task is found. -/
def TaskPart.key : TaskPart → String
  | module call => call.name
  | nested list => list.key
  | entry e => e.key

def TaskPart.position : TaskPart → Position
  | module call => call.position
  | nested list => list.position
  | entry e => e.position

/-- The survey of a part of a task. -/
def TaskPart.survey : TaskPart → List Visit
  | module call => call.survey
  | nested list => inRow none (list.items.map fun item => (item.part, item.survey))
  | entry e => e.survey

/-- The parts of a task as they are made: each stands under its field, one line
after the other, and at most one of them is the module. -/
structure Arranged (parts : List (Field TaskFieldKind × TaskPart)) : Prop where
  keys : ∀ part ∈ parts, part.2.key = part.1.key
  positions : ∀ part ∈ parts, part.2.position = part.1.position
  lines : (parts.map (·.1.position.line)).Pairwise (· < ·)
  single : (parts.filterMap (·.2.module?)).length ≤ 1

/-- The task was made from parts in their arrangement. -/
def TaskOf.Arranged (t : Task) : Prop :=
  ∃ source position endLine parts,
    t = .ofParts source position endLine parts ∧ Playbook.Arranged parts

/-- What the lists of a task hold is what its parts are. -/
theorem held_perm_parts (parts : List (Field TaskFieldKind × TaskPart)) :
    (((parts.filterMap (·.2.entryOf?)).map fun entry => (entry.position, entry.survey)) ++
      ((parts.filterMap (·.2.module?)).map fun m => (m.position, m.survey)) ++
      (parts.filterMap (·.2.nested?)).map fun list =>
        (list.position, inRow none (list.items.map fun item => (item.part, item.survey)))).Perm
      (parts.map fun part => (part.2.position, part.2.survey)) := by
  induction parts with
  | nil => simp
  | cons part rest ih =>
    obtain ⟨field, part⟩ := part
    cases part with
    | entry e => exact ih.cons (e.position, e.survey)
    | module call =>
      refine List.Perm.trans ?_ (ih.cons (call.position, call.survey))
      simp only [List.append_assoc]
      exact List.perm_middle
    | nested list =>
      exact List.perm_middle.trans (ih.cons _)

section Fields

variable {parts : List (Field TaskFieldKind × TaskPart)} {part : Field TaskFieldKind × TaskPart}

/-- Under a key stands one part only. -/
theorem Arranged.eq_of_key (h : Arranged parts) (distinct : (parts.map (·.1.key)).Nodup)
    {other : Field TaskFieldKind × TaskPart} (hpart : part ∈ parts) (hother : other ∈ parts)
    (hkey : other.2.key = part.1.key) : other = part :=
  List.inj_on_of_nodup_map distinct hother hpart ((h.keys other hother).symm.trans hkey)

variable {source : SourceLines} {position : Position} {endLine : Nat}

/-- An entry that is found under the key of a part is that part. -/
theorem eq_of_entryOf? (h : Arranged parts) (distinct : (parts.map (·.1.key)).Nodup)
    (hpart : part ∈ parts) {e : Entry}
    (he : (TaskOf.ofParts source position endLine parts).entryOf? part.1.key = some e) :
    part.2 = .entry e := by
  have hkey : e.key = part.1.key := by simpa using List.find?_some he
  obtain ⟨⟨field, other⟩, hother, hentry⟩ := List.mem_filterMap.mp (List.mem_of_find?_eq_some he)
  cases other with
  | entry e' =>
    obtain rfl := Option.some.inj hentry
    rw [← h.eq_of_key distinct hpart hother hkey]
  | module call => cases hentry
  | nested list => cases hentry

/-- A nested list that is found under the key of a part is that part. -/
theorem eq_of_lookup (h : Arranged parts) (distinct : (parts.map (·.1.key)).Nodup)
    (hpart : part ∈ parts) {visits : List Visit}
    (hvisits : (visitsOfNested (TaskOf.ofParts source position endLine parts).nested).lookup
      part.1.key = some visits) :
    ∃ list, part.2 = .nested list ∧ visits = visitsOfItems none list.items := by
  obtain ⟨before, after, hsplit, -⟩ := List.lookup_eq_some_iff.mp hvisits
  have hmem : (part.1.key, visits) ∈
      visitsOfNested (TaskOf.ofParts source position endLine parts).nested := by
    rw [hsplit]
    exact List.mem_append_right _ List.mem_cons_self
  rw [visitsOfNested_eq_map] at hmem
  obtain ⟨list, hlist, hpair⟩ := List.mem_map.mp hmem
  obtain ⟨hkey, rfl⟩ := Prod.mk.inj hpair
  obtain ⟨⟨field, other⟩, hother, hnested⟩ := List.mem_filterMap.mp hlist
  cases other with
  | nested list' =>
    obtain rfl := Option.some.inj hnested
    exact ⟨list', by rw [← h.eq_of_key distinct hpart hother hkey], rfl⟩
  | entry e => cases hnested
  | module call => cases hnested

/-- The module of a task is the only part that is one. -/
theorem Arranged.toList_module? (h : Arranged parts) :
    (TaskOf.ofParts source position endLine parts).module?.toList =
      parts.filterMap (·.2.module?) := by
  have hhead : (TaskOf.ofParts source position endLine parts).module? =
      (parts.filterMap (·.2.module?)).head? := List.head?_filterMap.symm
  have hsingle := h.single
  rw [hhead]
  cases hcalls : parts.filterMap (·.2.module?) with
  | nil => rfl
  | cons call rest =>
    rw [hcalls, List.length_cons] at hsingle
    rw [List.eq_nil_of_length_eq_zero (show rest.length = 0 by omega)]
    rfl

/-- What the walk finds under the field of a part is the part. -/
theorem Arranged.visitsOfField (h : Arranged parts) (distinct : (parts.map (·.1.key)).Nodup)
    (hitems : ∀ list ∈ (TaskOf.ofParts source position endLine parts).nested,
      ∀ item ∈ list.items, visitsOfItem item = item.survey) (hpart : part ∈ parts) :
    (TaskOf.ofParts source position endLine parts).visitsOfField
      (visitsOfNested (TaskOf.ofParts source position endLine parts).nested) part.1 =
        part.2.survey := by
  have hkey := h.keys part hpart
  unfold TaskOf.visitsOfField
  cases hentry : (TaskOf.ofParts source position endLine parts).entryOf? part.1.key with
  | some e =>
    rw [eq_of_entryOf? h distinct hpart hentry]
    exact visitsOfEntry_eq_survey e
  | none =>
    dsimp only
    cases hlookup : (visitsOfNested (TaskOf.ofParts source position endLine parts).nested).lookup
        part.1.key with
    | some visits =>
      obtain ⟨list, hlist, rfl⟩ := eq_of_lookup h distinct hpart hlookup
      have hmem : list ∈ (TaskOf.ofParts source position endLine parts).nested :=
        List.mem_filterMap.mpr ⟨part, hpart, by rw [hlist]; rfl⟩
      rw [hlist]
      exact visitsOfItems_eq_inRow (hitems list hmem) none
    | none =>
      cases hvalue : part.2 with
      | entry e =>
        rw [hvalue] at hkey
        have hmem : e ∈ (TaskOf.ofParts source position endLine parts).entries :=
          List.mem_filterMap.mpr ⟨part, hpart, by rw [hvalue]; rfl⟩
        exact absurd (show (e.key == part.1.key) = true from beq_iff_eq.mpr hkey)
          (List.find?_eq_none.mp hentry e hmem)
      | nested list =>
        rw [hvalue] at hkey
        have hmem : list ∈ (TaskOf.ofParts source position endLine parts).nested :=
          List.mem_filterMap.mpr ⟨part, hpart, by rw [hvalue]; rfl⟩
        have hnone := List.lookup_eq_none_iff.mp hlookup (list.key, visitsOfItems none list.items)
          (by rw [visitsOfNested_eq_map]; exact List.mem_map_of_mem hmem)
        exact absurd hkey (bne_iff_ne.mp hnone).symm
      | module call =>
        rw [hvalue] at hkey
        have hmem : call ∈ (TaskOf.ofParts source position endLine parts).module?.toList := by
          rw [h.toList_module?]
          exact List.mem_filterMap.mpr ⟨part, hpart, by rw [hvalue]; rfl⟩
        have hname : (call.name == part.1.key) = true := beq_iff_eq.mpr hkey
        dsimp only
        rw [Option.mem_toList.mp hmem, Option.filter_some, if_pos hname, Option.toList_some,
          List.flatMap_singleton]
        exact call.visits_eq_survey

end Fields

/-- The walk over a task in its arrangement is its survey. -/
theorem TaskOf.Arranged.visits_eq_survey {t : Task} (h : t.Arranged)
    (distinct : (t.fields.map Field.key).Nodup)
    (hitems : ∀ list ∈ t.nested, ∀ item ∈ list.items, visitsOfItem item = item.survey) :
    visitsOfItem (.task t) = (TaskItem.task t).survey := by
  obtain ⟨source, position, endLine, parts, rfl, hparts⟩ := h
  have hdistinct : (parts.map (·.1.key)).Nodup := by
    rw [TaskOf.ofParts, List.map_map] at distinct
    exact distinct
  have hlines : (parts.map fun part => part.2.position.line).Pairwise (· < ·) := by
    rw [List.map_congr_left fun part hpart => by rw [hparts.positions part hpart]]
    exact hparts.lines
  rw [visitsOfItem, visitsOfTask_eq, TaskItem.survey, hparts.toList_module?]
  refine Eq.trans ?_ (inPlace_eq_flatMap hlines (held_perm_parts parts)).symm
  rw [show (TaskOf.ofParts source position endLine parts).fields = parts.map Prod.fst from rfl,
    List.flatMap_map]
  exact List.flatMap_congr fun part hpart => hparts.visitsOfField hdistinct hitems hpart

/-- The walk over an element of a task list is its survey. -/
theorem visitsOfItem_eq_survey {item : TaskItem} (arranged : item.AllTasks TaskOf.Arranged)
    (distinct : item.AllTasks fun t => (t.fields.map Field.key).Nodup) :
    visitsOfItem item = item.survey := by
  induction item using TaskItem.induction with
  | inclusion i => rw [visitsOfItem, TaskItem.survey, i.visits_eq_survey]
  | task t ih =>
    rw [allTasks_task_iff] at arranged distinct
    refine arranged.1.visits_eq_survey distinct.1 fun list hlist item hitem => ?_
    exact ih list hlist item hitem (arranged.2 list hlist item hitem) (distinct.2 list hlist item hitem)

/-! ### Tasks are made in their arrangement -/

section Making

variable {source : SourceLines}

/-- The part that an entry contributes stands under its field. -/
theorem taskPart_eq (found : Bool) (entry : Outline.Entry Outline.Node) :
    (taskPart source found entry).1.key = entry.key ∧
      (taskPart source found entry).1.position = entry.position ∧
      (taskPart source found entry).2.key = entry.key ∧
      (taskPart source found entry).2.position = entry.position := by
  rw [taskPart]
  refine ⟨rfl, rfl, ?_⟩
  dsimp only
  split
  · split
    · exact ⟨rfl, rfl⟩
    · exact ⟨rfl, rfl⟩
  · rw [optionEntry, entryOf_eq]
    exact ⟨rfl, rfl⟩

theorem map_line_taskParts (found : Bool) (entries : List (Outline.Entry Outline.Node)) :
    (taskParts source found entries).map (·.1.position.line) = entries.map (·.position.line) := by
  induction entries generalizing found with
  | nil => rw [taskParts, List.map_nil, List.map_nil]
  | cons entry rest ih =>
    rw [taskParts, List.map_cons, ih, (taskPart_eq found entry).2.1, List.map_cons]

/-- Where the module has been found, only a nested list is in its place. -/
theorem contains_nestedKeys_of_taskFieldKind {key : String}
    (h : taskFieldKind true key = .module) : nestedKeys.contains key = true := by
  by_contra hkey
  unfold taskFieldKind at h
  rw [if_neg hkey, if_pos (show true = true from rfl)] at h
  split_ifs at h

theorem module?_taskPart_of_found (entry : Outline.Entry Outline.Node) :
    (taskPart source true entry).2.module? = none := by
  rw [taskPart]
  dsimp only
  split
  · rename_i hkind
    rw [if_pos (contains_nestedKeys_of_taskFieldKind hkind)]
    rfl
  · rfl

theorem filterMap_module?_of_found (entries : List (Outline.Entry Outline.Node)) :
    (taskParts source true entries).filterMap (·.2.module?) = [] := by
  induction entries with
  | nil => rw [taskParts, List.filterMap_nil]
  | cons entry rest ih =>
    rw [taskParts, List.filterMap_cons, module?_taskPart_of_found]
    exact ih

/-- At most one entry of a task is taken for its module. -/
theorem length_filterMap_module? (entries : List (Outline.Entry Outline.Node)) :
    ((taskParts source false entries).filterMap (·.2.module?)).length ≤ 1 := by
  induction entries with
  | nil => simp [taskParts]
  | cons entry rest ih =>
    rw [taskParts, List.filterMap_cons]
    cases hmodule : (taskPart source false entry).2.module? with
    | none => exact ih
    | some call => exact Nat.le_of_eq (congrArg (·.length + 1) (filterMap_module?_of_found rest))

theorem taskParts_arranged {entries : List (Outline.Entry Outline.Node)}
    (lines : (entries.map (·.position.line)).Pairwise (· < ·)) :
    Arranged (taskParts source false entries) where
  keys := by
    intro part hpart
    obtain ⟨entry, -, found, rfl⟩ := exists_entry_of_mem_taskParts hpart
    rw [(taskPart_eq found entry).1, (taskPart_eq found entry).2.2.1]
  positions := by
    intro part hpart
    obtain ⟨entry, -, found, rfl⟩ := exists_entry_of_mem_taskParts hpart
    rw [(taskPart_eq found entry).2.1, (taskPart_eq found entry).2.2.2]
  lines := by
    rw [map_line_taskParts]
    exact lines
  single := length_filterMap_module? entries

theorem taskPart_nested {entry : Outline.Entry Outline.Node} {found : Bool} {list : Nested}
    (h : (taskPart source found entry).2.nested? = some list) :
    list.items = taskItems source entry.value := by
  rw [taskPart] at h
  dsimp only at h
  split at h
  · split at h
    · obtain rfl := Option.some.inj h
      rfl
    · cases h
  · cases h

/-- All tasks of a node are made in their arrangement. The nested lists that the
node's entries would make go along in the induction, for the tasks of a list are
made from the entries of its items. -/
theorem taskItems_arranged {n : Outline.Node} (h : n.Ordered) :
    (∀ item ∈ taskItems source n, item.AllTasks TaskOf.Arranged) ∧
      ∀ entries, n.entries? = some entries → Arranged (taskParts source false entries) ∧
        ∀ list ∈ (taskParts source false entries).filterMap (·.2.nested?),
          ∀ item ∈ list.items, item.AllTasks TaskOf.Arranged := by
  induction h with
  | empty => exact ⟨by simp [taskItems], by simp [Outline.Node.entries?]⟩
  | scalar => exact ⟨by simp [taskItems], by simp [Outline.Node.entries?]⟩
  | mapping lines values ih =>
    refine ⟨by simp [taskItems], ?_⟩
    rintro _ ⟨⟩
    refine ⟨taskParts_arranged lines, fun list hlist => ?_⟩
    obtain ⟨part, hpart, hnested⟩ := List.mem_filterMap.mp hlist
    obtain ⟨entry, hentry, found, rfl⟩ := exists_entry_of_mem_taskParts hpart
    rw [taskPart_nested hnested]
    exact (ih entry hentry).1
  | sequence values ih =>
    refine ⟨?_, by simp [Outline.Node.entries?]⟩
    intro item hitem
    obtain ⟨raw, hraw, hitem⟩ := exists_made_of_mem_taskItems hitem
    rcases taskItem?_cases hitem with ⟨i, -, rfl⟩ | ⟨entries, -, hentries, rfl⟩
    · exact allTasks_inclusion _ _
    · obtain ⟨hparts, hnested⟩ := (ih raw hraw).2 entries hentries
      exact allTasks_task_iff.mpr ⟨⟨_, _, _, _, rfl, hparts⟩, hnested⟩

/-! ### Plays -/

/-- A key of a play opens an entry or a section, under its key and at its place. -/
theorem playEntry?_or_playSection? (source : SourceLines) (raw : Outline.Entry Outline.Node) :
    (∃ entry, playEntry? raw = some entry ∧ playSection? source raw = none ∧
        entry.key = raw.key ∧ entry.position = raw.position) ∨
      ∃ s, playEntry? raw = none ∧ playSection? source raw = some s ∧
        s.position = raw.position := by
  unfold playEntry? playSection?
  cases PlayFieldKind.ofKey raw.key with
  | declaration =>
    refine .inl ⟨_, rfl, rfl, ?_⟩
    rw [entryOf_eq]
    exact ⟨rfl, rfl⟩
  | option =>
    refine .inl ⟨_, rfl, rfl, ?_⟩
    rw [entryOf_eq]
    exact ⟨rfl, rfl⟩
  | roles => exact .inr ⟨_, rfl, rfl, rfl⟩
  | preTasks => exact .inr ⟨_, rfl, rfl, rfl⟩
  | tasks => exact .inr ⟨_, rfl, rfl, rfl⟩
  | postTasks => exact .inr ⟨_, rfl, rfl, rfl⟩
  | handlers => exact .inr ⟨_, rfl, rfl, rfl⟩

/-- The survey of what a key of a play opens. -/
def surveyOfPlayKey (source : SourceLines) (raw : Outline.Entry Outline.Node) : List Visit :=
  ( playEntry? raw).toList.flatMap EntryOf.survey ++
    (playSection? source raw).toList.flatMap fun s => s.items.survey

/-- What the lists of a play hold is what its keys open. -/
theorem held_perm_keys (raws : List (Outline.Entry Outline.Node)) :
    (((raws.filterMap playEntry?).map fun entry => (entry.position, entry.survey)) ++
      (raws.filterMap (playSection? source)).map fun s => (s.position, s.items.survey)).Perm
      (raws.map fun raw => (raw.position, surveyOfPlayKey source raw)) := by
  induction raws with
  | nil => simp
  | cons raw rest ih =>
    have hraw := playEntry?_or_playSection? source raw
    rcases hraw with ⟨entry, he, hs, -, hplace⟩ | ⟨s, he, hs, hplace⟩
    · have hvisits : surveyOfPlayKey source raw = entry.survey := by
        simp [surveyOfPlayKey, he, hs]
      simp only [List.filterMap_cons, he, hs, List.map_cons, hvisits, ← hplace]
      exact ih.cons _
    · have hvisits : surveyOfPlayKey source raw = s.items.survey := by
        simp [surveyOfPlayKey, he, hs]
      simp only [List.filterMap_cons, he, hs, List.map_cons, hvisits, ← hplace]
      exact List.perm_middle.trans (ih.cons _)

section Fields

variable {item : Outline.Item Outline.Node} {raws : List (Outline.Entry Outline.Node)}
  {raw : Outline.Entry Outline.Node}

theorem eq_of_play_entryOf? (hraws : item.value.entries?.getD [] = raws)
    (distinct : (raws.map (·.key)).Nodup) (hraw : raw ∈ raws) {entry : Entry}
    (h : (Play.ofItem source item).entryOf? raw.key = some entry) :
    playEntry? raw = some entry := by
  subst hraws
  have hkey : entry.key = raw.key := by simpa using List.find?_some h
  obtain ⟨other, hother, hentry⟩ := List.mem_filterMap.mp (List.mem_of_find?_eq_some h)
  have hfound := playEntry?_or_playSection? source other
  rcases hfound with ⟨e, he, -, hkey', -⟩ | ⟨s, he, -, -⟩
  · obtain rfl := Option.some.inj (he.symm.trans hentry)
    rw [← List.inj_on_of_nodup_map distinct hother hraw (hkey'.symm.trans hkey)]
    exact hentry
  · cases he.symm.trans hentry

theorem eq_of_find?_section (hraws : item.value.entries?.getD [] = raws)
    (lines : (raws.map (·.position.line)).Pairwise (· < ·)) (hraw : raw ∈ raws) {s : PlaySection}
    (h : (Play.ofItem source item).sections.find? (·.position == raw.position) = some s) :
    playSection? source raw = some s := by
  subst hraws
  have hplace : s.position = raw.position := by simpa using List.find?_some h
  obtain ⟨other, hother, hsection⟩ := List.mem_filterMap.mp (List.mem_of_find?_eq_some h)
  have hfound := playEntry?_or_playSection? source other
  rcases hfound with ⟨e, -, hs, -, -⟩ | ⟨s', -, hs, hplace'⟩
  · cases hs.symm.trans hsection
  · obtain rfl := Option.some.inj (hs.symm.trans hsection)
    have hline : other.position.line = raw.position.line := by rw [← hplace', hplace]
    rw [← List.inj_on_of_nodup_map lines.nodup hother hraw hline]
    exact hsection

/-- At the place of a section's key stands that section. -/
theorem find?_section (hraws : item.value.entries?.getD [] = raws)
    (lines : (raws.map (·.position.line)).Pairwise (· < ·)) (hraw : raw ∈ raws) {s : PlaySection}
    (hs : playSection? source raw = some s) :
    (Play.ofItem source item).sections.find? (·.position == raw.position) = some s := by
  have hplace : s.position = raw.position := by
    rcases playEntry?_or_playSection? source raw with ⟨e, -, hnone, -, -⟩ | ⟨s', -, hs', hplace⟩
    · cases hnone.symm.trans hs
    · rwa [← Option.some.inj (hs'.symm.trans hs)]
  cases hsome : (Play.ofItem source item).sections.find? (·.position == raw.position) with
  | some s' => rw [← hs, eq_of_find?_section hraws lines hraw hsome]
  | none =>
    exact absurd (show (s.position == raw.position) = true from beq_iff_eq.mpr hplace)
      (List.find?_eq_none.mp hsome s (List.mem_filterMap.mpr ⟨raw, hraws ▸ hraw, hs⟩))

/-- What the walk finds under a field of a play is what its key opens. -/
theorem Play.visitsOfField_eq (hraws : item.value.entries?.getD [] = raws)
    (distinct : (raws.map (·.key)).Nodup) (lines : (raws.map (·.position.line)).Pairwise (· < ·))
    (hsections : ∀ s ∈ (Play.ofItem source item).sections, s.items.visits = s.items.survey)
    (hraw : raw ∈ raws) :
    (Play.ofItem source item).visitsOfField ⟨PlayFieldKind.ofKey raw.key, raw.key, raw.position⟩ =
      surveyOfPlayKey source raw := by
  have hfound := playEntry?_or_playSection? source raw
  unfold Play.visitsOfField
  dsimp only
  cases hentry : (Play.ofItem source item).entryOf? raw.key with
  | some entry =>
    have he := eq_of_play_entryOf? hraws distinct hraw hentry
    rcases hfound with ⟨e, -, hs, -, -⟩ | ⟨s, hnone, -, -⟩
    · simp [surveyOfPlayKey, he, hs, visitsOfEntry_eq_survey]
    · cases he.symm.trans hnone
  | none =>
    dsimp only
    have hnone : playEntry? raw = none := by
      rcases hfound with ⟨e, he, -, hkey, -⟩ | ⟨s, hnone, -, -⟩
      · have hmem : e ∈ (Play.ofItem source item).entries :=
          List.mem_filterMap.mpr ⟨raw, hraws ▸ hraw, he⟩
        exact absurd (show (e.key == raw.key) = true from beq_iff_eq.mpr hkey)
          (List.find?_eq_none.mp hentry e hmem)
      · exact hnone
    rcases hfound with ⟨e, he, -, -, -⟩ | ⟨s, -, hs, -⟩
    · cases he.symm.trans hnone
    · have hmem : s ∈ (Play.ofItem source item).sections :=
        List.mem_filterMap.mpr ⟨raw, hraws ▸ hraw, hs⟩
      simp [find?_section hraws lines hraw hs, surveyOfPlayKey, hnone, hs, hsections s hmem]

end Fields

/-- The walk over a play is its survey. -/
theorem Play.visits_eq_survey {item : Outline.Item Outline.Node} (ordered : item.value.Ordered)
    (distinct : ((Play.ofItem source item).fields.map Field.key).Nodup)
    (hsections : ∀ s ∈ (Play.ofItem source item).sections, s.items.visits = s.items.survey) :
    (Play.ofItem source item).visits = (Block.play (.ofItem source item)).survey := by
  obtain ⟨hlines, -⟩ := ordered.of_entries?_getD
  have hdistinct : ((item.value.entries?.getD []).map (·.key)).Nodup := by
    rw [Play.ofItem, List.map_map] at distinct
    exact distinct
  rw [Block.survey]
  refine Eq.trans ?_ (inPlace_eq_flatMap hlines (held_perm_keys _)).symm
  rw [Play.visits, show (Play.ofItem source item).fields = (item.value.entries?.getD []).map
    fun e => ⟨PlayFieldKind.ofKey e.key, e.key, e.position⟩ from rfl, List.flatMap_map]
  exact List.flatMap_congr fun raw hraw =>
    Play.visitsOfField_eq rfl hdistinct hlines hsections hraw

/-! ### Playbooks -/

/-- The walk over a section is its survey. -/
theorem SectionItems.visits_eq_survey {s : SectionItems}
    (h : ∀ item ∈ s.items, ∀ t, item.task? = some t →
      t.Arranged ∧ (t.fields.map Field.key).Nodup) : s.visits = s.survey := by
  cases s with
  | roles list => exact visitsOfRoles_eq_inRow none list
  | tasks list =>
    refine visitsOfItems_eq_inRow (fun item hitem => ?_) none
    have hall : ∀ t, .task t ∈ item.within → t.Arranged ∧ (t.fields.map Field.key).Nodup :=
      fun t ht => h (.task t) (mem_withinItems.mpr ⟨item, hitem, ht⟩) t rfl
    exact visitsOfItem_eq_survey (fun t ht => (hall t ht).1) fun t ht => (hall t ht).2

/-- The tasks of a section of a play are made in their arrangement. -/
theorem playSection?_arranged {raw : Outline.Entry Outline.Node} {s : PlaySection}
    (ordered : raw.value.Ordered) (h : playSection? source raw = some s) :
    ∀ item ∈ s.items.items, ∀ t, item.task? = some t → t.Arranged := by
  have harranged : ∀ item ∈ taskItems source raw.value, item.AllTasks TaskOf.Arranged :=
    (taskItems_arranged ordered).1
  intro item hitem t ht
  obtain rfl := TaskItem.eq_task_of_task? ht
  rcases items_of_playSection? h with hitems | hitems
  · rw [hitems] at hitem
    cases hitem
  · rw [hitems] at hitem
    obtain ⟨outer, houter, hinner⟩ := mem_withinItems.mp hitem
    exact harranged outer houter t hinner

theorem play_of_ofItem {value : Yaml.Value} {item : Outline.Item Outline.Node} {play : Play}
    (h : Block.ofItem source value item = .ok (.play play)) : play = .ofItem source item := by
  obtain ⟨-, ⟨-, hblock⟩ | ⟨-, i, -, hblock⟩⟩ := Block.ofItem_cases h
  · exact Block.play.inj hblock
  · cases hblock

/-- A play among the blocks is made from an item of the outline. -/
theorem play_of_mem_blocksOf {values : List Yaml.Value}
    {items : List (Outline.Item Outline.Node)} {blocks : List Block} {play : Play}
    (h : blocksOf source values items = .ok blocks) (hplay : .play play ∈ blocks) :
    ∃ item ∈ items, play = .ofItem source item := by
  obtain ⟨pair, hpair, hmade⟩ := exists_of_mem_right (blocksOf_zip h) hplay
  exact ⟨pair.2, (List.of_mem_zip hpair).2, play_of_ofItem hmade⟩

end Making

/-! ### Playbooks -/

section Built

variable {path : String} {text : List Char} {value : Yaml.Value} {p : Playbook}

/-- The keys of the tasks in a play's sections are among those of the playbook. -/
theorem DistinctKeys.section (distinct : p.DistinctKeys) {play : Play} (hplay : play ∈ p.plays)
    {s : PlaySection} (hs : s ∈ play.sections) {item : TaskItem} (hitem : item ∈ s.items.items)
    {t : Task} (ht : item.task? = some t) : (t.fields.map Field.key).Nodup := by
  refine distinct.2 t (List.mem_filterMap.mpr ⟨item, ?_, ht⟩)
  refine List.mem_flatMap.mpr ⟨s.items, ?_, hitem⟩
  exact List.mem_flatMap.mpr ⟨play, hplay, List.mem_map_of_mem hs⟩

/-- The walk over a playbook that was built is its survey. -/
theorem visits_eq_survey (build : Playbook.build path text value = .ok p)
    (distinct : p.DistinctKeys) : p.visits = p.survey := by
  obtain ⟨-, items, position, hroot, values, -, hblocks⟩ := exists_blocksOf_of_build build
  have hordered := Outline.ordered_of_scan hroot
  rw [visits, survey]
  refine congrArg _ (visitsOfBlocks_eq_inRow (fun block hblock => ?_) none)
  cases block with
  | inclusion i => exact i.visits_eq_survey
  | play play =>
    have hplay : play ∈ p.plays := List.mem_filterMap.mpr ⟨.play play, hblock, rfl⟩
    obtain ⟨item, hitem, rfl⟩ := play_of_mem_blocksOf hblocks hblock
    refine Play.visits_eq_survey (hordered item hitem) (distinct.1 _ hplay) fun s hs => ?_
    obtain ⟨raw, hraw, hsection⟩ := List.mem_filterMap.mp hs
    have hraw := (hordered item hitem).of_entries?_getD.2 raw hraw
    exact SectionItems.visits_eq_survey fun inner hinner t ht =>
      ⟨playSection?_arranged hraw hsection inner hinner t ht,
        distinct.section hplay hs hinner ht⟩

/-- Every element of a task list counts, as a task or as an include. -/
theorem countP_task_add_countP_inclusion (items : List TaskItem) :
    (items.countP fun item => item.part.kind == .task) +
      (items.countP fun item => item.part.kind == .inclusion) = items.length := by
  induction items with
  | nil => rfl
  | cons item rest ih =>
    rw [List.countP_cons, List.countP_cons, List.length_cons, ← ih]
    cases item with
    | task t => simp +arith [TaskItem.part, Part.kind]
    | inclusion i => simp +arith [TaskItem.part, Part.kind]

theorem countP_map_of_kind_ne {α : Type} {list : List α} {f : α → Part} {kind : PartKind}
    (h : ∀ a, (f a).kind ≠ kind) : ((list.map f).countP fun part => part.kind == kind) = 0 := by
  rw [List.countP_eq_zero]
  intro part hpart
  obtain ⟨a, -, rfl⟩ := List.mem_map.mp hpart
  simpa using h a

/-- Tasks and includes are met at the top and in task lists only. -/
theorem countP_parts {kind : PartKind} (hkind : kind = .task ∨ kind = .inclusion) :
    (p.parts.countP fun part => part.kind == kind) =
      (p.blocks.countP fun block => block.part.kind == kind) +
        p.items.countP fun item => item.part.kind == kind := by
  have hdocument : ((Part.document p).kind == kind) = false := by
    rcases hkind with rfl | rfl <;> rfl
  have hrole : ∀ r, (Part.role r).kind ≠ kind := by
    rintro r rfl
    rcases hkind with h | h <;> cases h
  have hcall : ∀ m, (Part.module m).kind ≠ kind := by
    rintro m rfl
    rcases hkind with h | h <;> cases h
  have hentry : ∀ e, (Part.entry e).kind ≠ kind := by
    rintro e rfl
    rcases hkind with h | h <;> cases h
  have hscalar : ∀ s, (Part.scalar s).kind ≠ kind := by
    intro s
    by_cases hs : s.context = .condition
    · rw [Part.kind, if_pos hs]
      rintro rfl
      rcases hkind with h | h <;> cases h
    · rw [Part.kind, if_neg hs]
      rintro rfl
      rcases hkind with h | h <;> cases h
  rw [parts, List.countP_cons, hdocument, if_neg Bool.false_ne_true]
  simp only [List.countP_append, countP_map_of_kind_ne hrole, countP_map_of_kind_ne hcall,
    countP_map_of_kind_ne hentry, countP_map_of_kind_ne hscalar, List.countP_map, Nat.add_zero]
  rfl

theorem countP_blocks_task (blocks : List Block) :
    (blocks.countP fun block => block.part.kind == .task) = 0 := by
  rw [List.countP_eq_zero]
  intro block _
  cases block <;> simp [Block.part, Part.kind]

theorem countP_blocks_inclusion (blocks : List Block) :
    (blocks.countP fun block => block.part.kind == .inclusion) =
      blocks.countP Block.isInclusion := by
  refine List.countP_congr fun block _ => ?_
  cases block <;> simp [Block.part, Part.kind, Block.isInclusion, Block.inclusion?]

/-- **The walk visits everything exactly once.** Take any playbook that was built
in which no play and no task has a key twice. The walk goes through it list by
list, in the order of the source, each part right before what is inside it and the
elements of a list with the element before them; every part of the playbook is on
it once; and the tasks that are counted are the tasks on it and the includes that
are not at the top. -/
theorem visits_each_once (build : Playbook.build path text value = .ok p)
    (distinct : p.DistinctKeys) :
    p.visits = p.survey ∧ (p.visits.map Visit.part).Perm p.parts ∧
      p.taskCount + p.blocks.countP Block.isInclusion =
        (p.visits.countP fun visit => visit.part.kind == .task) +
          p.visits.countP fun visit => visit.part.kind == .inclusion := by
  have hsurvey := visits_eq_survey build distinct
  have hperm : (p.visits.map Visit.part).Perm p.parts := by
    rw [hsurvey]
    exact p.survey_perm_parts
  refine ⟨hsurvey, hperm, ?_⟩
  have hcount : ∀ kind : PartKind, (p.visits.countP fun visit => visit.part.kind == kind) =
      p.parts.countP fun part => part.kind == kind := by
    intro kind
    rw [← hperm.countP_eq, List.countP_map]
    rfl
  have hitems := countP_task_add_countP_inclusion p.items
  rw [hcount, hcount, countP_parts (.inl rfl), countP_parts (.inr rfl), countP_blocks_task,
    countP_blocks_inclusion, taskCount_eq]
  omega

/-- An include, a play with two kinds of sections, and a task with a condition
between its nested lists. With each visit stands the line where it begins and the
line of the element before it. -/
theorem visits_each_once_sections :
    let text := "- import_playbook: base.yml\n- hosts: all\n  roles:\n    - web\n  vars:\n" ++
      "    a: [1]\n  tasks:\n    - block:\n        - ping:\n        - include_tasks: b.yml\n" ++
      "      when: up\n      rescue:\n        - debug: msg=x\n"
    let value : Yaml.Value := .sequence
      [.mapping [(.string "import_playbook", .string "base.yml")],
        .mapping [(.string "hosts", .string "all")]]
    let lines : List (PartKind × Nat × Option Nat) :=
      [(.document, 1, none), (.inclusion, 1, none), (.scalar, 1, none), (.play, 2, some 1),
        (.entry, 2, none), (.scalar, 2, none), (.role, 4, none), (.scalar, 4, none),
        (.entry, 5, none), (.entry, 6, none), (.scalar, 6, none), (.task, 8, none),
        (.task, 9, none), (.module, 9, none), (.inclusion, 10, some 9), (.scalar, 10, none),
        (.entry, 11, none), (.condition, 11, none), (.task, 13, none), (.module, 13, none),
        (.scalar, 13, none)]
    ∃ p, Playbook.build "site.yml" text.toList value = .ok p ∧ p.DistinctKeys ∧
      (p.visits.map fun visit =>
        (visit.part.kind, visit.part.position.line, visit.previous?.map (·.position.line))) =
          lines ∧
      p.visits = p.survey ∧ (p.visits.map Visit.part).Perm p.parts ∧
      p.taskCount + p.blocks.countP Block.isInclusion =
        (p.visits.countP fun visit => visit.part.kind == .task) +
          p.visits.countP fun visit => visit.part.kind == .inclusion := by
  intro text value lines
  have evaluated : ((Playbook.build "site.yml" text.toList value).toOption.map fun p =>
      (decide p.DistinctKeys, p.visits.map fun visit =>
        (visit.part.kind, visit.part.position.line, visit.previous?.map (·.position.line)))) =
      some (true, lines) := by
    decide +kernel
  cases built : Playbook.build "site.yml" text.toList value with
  | error problem =>
    rw [built] at evaluated
    cases evaluated
  | ok p =>
    rw [built] at evaluated
    obtain ⟨distinct, visits⟩ := Prod.mk.inj (Option.some.inj evaluated)
    exact ⟨p, rfl, of_decide_eq_true distinct, visits,
      visits_each_once built (of_decide_eq_true distinct)⟩

end Built

end Playbook

end PlaybookStyle
