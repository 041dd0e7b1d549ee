/-
Tasks whose keys come in another order.

What a key of a task is taken for is told by the key, but for a key that is no keyword:
the first of these calls the module, any other is an option. With at most one of them the
order plays no part (`OneModule.kinds`). An included file is named by a key that is no
keyword either. In a task each entry is taken for one thing, in the order of the source
(`TaskOf.MadeFrom`), and no deprecated directive is lost.

* `items_sorted_alike` — an item and one with its entries in another order.
-/

import PlaybookStyle.Proofs.Playbook.Calls
import PlaybookStyle.Rule.Privilege

namespace PlaybookStyle.Playbook

open Outline (Node Item)

/-! ### Keywords -/

/-- A key that calls no module in a task. -/
def isTaskKeyword (key : String) : Bool :=
  key == "name" || key == "vars" || nestedKeys.contains key || isLoopKey key ||
    taskKeywords.contains key

theorem taskFieldKind_eq (found : Bool) (key : String) :
    taskFieldKind found key =
      if isTaskKeyword key then taskFieldKind false key else if found then .option else .module := by
  unfold taskFieldKind isTaskKeyword
  cases key == "name" <;> cases key == "vars" <;> cases nestedKeys.contains key <;>
    cases isLoopKey key <;> cases taskKeywords.contains key <;> rfl

theorem namesModule_eq (entry : Outline.Entry Node) :
    namesModule entry = !isTaskKeyword entry.key := by
  unfold namesModule taskFieldKind isTaskKeyword opensList
  cases entry.key == "name" <;> cases entry.key == "vars" <;>
    cases nestedKeys.contains entry.key <;> cases isLoopKey entry.key <;>
    cases taskKeywords.contains entry.key <;> rfl

/-- A file is included by a key that is no keyword. -/
theorem isTaskKeyword_of_include {key : String} (h : taskIncludes.contains key = true) :
    isTaskKeyword key = false := by
  have hkey := List.contains_iff_mem.mp h
  simp only [taskIncludes, List.mem_cons, List.not_mem_nil, or_false] at hkey
  rcases hkey with rfl | rfl | rfl | rfl | rfl <;> decide

/-- A deprecated directive is a keyword, and no list stands under it. -/
theorem isTaskKeyword_of_directive {key : String}
    (h : (Rule.deprecatedDirectives.lookup key).isSome = true) :
    isTaskKeyword key = true ∧ opensList key = false := by
  obtain ⟨pair, hpair, hkey⟩ := List.lookup_isSome_iff.mp h
  obtain rfl := beq_iff_eq.mp hkey
  simp only [Rule.deprecatedDirectives, List.mem_cons, List.not_mem_nil, or_false] at hpair
  rcases hpair with rfl | rfl | rfl | rfl | rfl | rfl | rfl <;> decide

/-! ### Entries in another order -/

/-- What is looked at of an entry: its key, and whether it names something. -/
def shapeOf (entry : Outline.Entry Node) : String × Bool := (entry.key, entry.value.scalar?.isSome)

/-- The keys are distinct, and at most one of them is no keyword. -/
structure OneModule (entries : List (Outline.Entry Node)) : Prop where
  distinct : (entries.map Outline.Entry.key).Nodup
  alone : ∀ e ∈ entries, ∀ e' ∈ entries, isTaskKeyword e.key = false →
    isTaskKeyword e'.key = false → e.key = e'.key

section Reordered

variable {entries entries' : List (Outline.Entry Node)} {source : SourceLines}

theorem OneModule.tail {entry : Outline.Entry Node} (one : OneModule (entry :: entries)) :
    OneModule entries :=
  ⟨(List.nodup_cons.mp one.distinct).2, fun e he e' he' =>
    one.alone e (List.mem_cons_of_mem _ he) e' (List.mem_cons_of_mem _ he')⟩

/-- Behind a key that is no keyword only keywords come. -/
theorem OneModule.keywords {entry : Outline.Entry Node} (one : OneModule (entry :: entries))
    (plain : isTaskKeyword entry.key = false) : ∀ e ∈ entries, isTaskKeyword e.key = true := by
  intro e he
  by_contra hne
  have same := one.alone entry List.mem_cons_self e (List.mem_cons_of_mem _ he) plain
    (Bool.eq_false_iff.mpr hne)
  exact (List.nodup_cons.mp one.distinct).1 (same ▸ List.mem_map_of_mem he)

theorem exists_of_reordered (reordered : (entries'.map shapeOf).Perm (entries.map shapeOf))
    {e : Outline.Entry Node} (he : e ∈ entries') : ∃ e' ∈ entries, shapeOf e' = shapeOf e :=
  List.mem_map.mp (reordered.mem_iff.mp (List.mem_map_of_mem he))

theorem keys_reordered (reordered : (entries'.map shapeOf).Perm (entries.map shapeOf)) :
    (entries'.map Outline.Entry.key).Perm (entries.map Outline.Entry.key) := by
  have hfst := reordered.map Prod.fst
  rwa [List.map_map, List.map_map] at hfst

theorem OneModule.reordered (one : OneModule entries)
    (reordered : (entries'.map shapeOf).Perm (entries.map shapeOf)) : OneModule entries' := by
  refine ⟨(keys_reordered reordered).nodup_iff.mpr one.distinct, fun e he e' he' plain plain' => ?_⟩
  obtain ⟨f, hf, same⟩ := exists_of_reordered reordered he
  obtain ⟨f', hf', same'⟩ := exists_of_reordered reordered he'
  have hkey : f.key = e.key := congrArg Prod.fst same
  have hkey' : f'.key = e'.key := congrArg Prod.fst same'
  rw [← hkey, ← hkey']
  exact one.alone f hf f' hf' (hkey ▸ plain) (hkey' ▸ plain')

/-- What only an entry without keyword can be is found under the same key in any order. -/
theorem OneModule.find?_reordered (one : OneModule entries)
    (reordered : (entries'.map shapeOf).Perm (entries.map shapeOf)) {p : String × Bool → Bool}
    (plain : ∀ shape, p shape = true → isTaskKeyword shape.1 = false) :
    (entries'.find? fun e => p (shapeOf e)).map Outline.Entry.key =
      (entries.find? fun e => p (shapeOf e)).map Outline.Entry.key := by
  cases hfound : entries.find? fun e => p (shapeOf e) with
  | none =>
    have hnone : entries'.find? (fun e => p (shapeOf e)) = none := by
      rw [List.find?_eq_none] at hfound ⊢
      intro e he
      obtain ⟨e', he', same⟩ := exists_of_reordered reordered he
      rw [← same]
      exact hfound e' he'
    rw [hnone]
  | some e =>
    have he := List.mem_of_find?_eq_some hfound
    obtain ⟨hp, -⟩ := List.find?_eq_some_iff_append.mp hfound
    obtain ⟨e', he', same⟩ := exists_of_reordered reordered.symm he
    cases hfound' : entries'.find? fun e => p (shapeOf e) with
    | none =>
      rw [List.find?_eq_none] at hfound'
      exact absurd (same ▸ hp) (hfound' e' he')
    | some found =>
      have hfoundMem := List.mem_of_find?_eq_some hfound'
      obtain ⟨hpFound, -⟩ := List.find?_eq_some_iff_append.mp hfound'
      have hkey := (one.reordered reordered).alone found hfoundMem e' he' (plain _ hpFound)
        (plain _ (same ▸ hp))
      exact congrArg some (hkey.trans (congrArg Prod.fst same))

/-- The kinds of the fields of a task: each is told by its key. -/
theorem OneModule.kinds (one : OneModule entries) (found : Bool)
    (later : found = true → ∀ e ∈ entries, isTaskKeyword e.key = true) :
    (taskParts source found entries).map (fun part => (part.1.key, part.1.kind)) =
      entries.map fun e => (e.key, taskFieldKind false e.key) := by
  induction entries generalizing found with
  | nil => rw [taskParts, List.map_nil, List.map_nil]
  | cons entry rest ih =>
    have hkind : taskFieldKind found entry.key = taskFieldKind false entry.key := by
      cases found with
      | false => rfl
      | true => rw [taskFieldKind_eq, if_pos (later rfl entry List.mem_cons_self)]
    have hfirst : (taskPart source found entry).1.kind = taskFieldKind found entry.key := by
      rw [taskPart]
    rw [taskParts, List.map_cons, List.map_cons, isSome_module?_taskPart, (taskPart_eq found entry).1,
      hfirst, hkind, ih one.tail]
    intro hfound e he
    cases found with
    | true => exact later rfl e (List.mem_cons_of_mem _ he)
    | false =>
      rw [Bool.false_or, Bool.not_false, Bool.and_true, namesModule_eq, Bool.not_eq_true'] at hfound
      exact one.keywords hfound e he

end Reordered

/-! ### Items in another order -/

section Items

variable {source : SourceLines} {item item' : Item Node} {entries entries' : List (Outline.Entry Node)}

theorem keyword_ofItem? (hentries : item.value.entries? = some entries) :
    (Include.ofItem? source taskIncludes item).map Include.keyword =
      (entries.find? (isTarget taskIncludes)).map Outline.Entry.key := by
  rw [Include.ofItem?, hentries, Option.bind_eq_bind, Option.bind_some]
  cases hfound : entries.find? (isTarget taskIncludes) with
  | none => rfl
  | some found =>
    obtain ⟨htarget, -⟩ := List.find?_eq_some_iff_append.mp hfound
    obtain ⟨s, hs⟩ := Option.isSome_iff_exists.mp (Bool.and_eq_true_iff.mp htarget).2
    simp [hs]

/-- Elements of task lists that are includes by one keyword, or tasks that call one module
and whose keys have the same kinds. -/
inductive TaskItem.SortedAlike : TaskItem → TaskItem → Prop
  | inclusion {i i' : Include} (keyword : i'.keyword = i.keyword) :
      SortedAlike (.inclusion i) (.inclusion i')
  | task {t t' : Task} (module : t'.module?.map ModuleCall.name = t.module?.map ModuleCall.name)
      (kinds : (t'.fields.map fun field => (field.key, field.kind)).Perm
        (t.fields.map fun field => (field.key, field.kind))) :
      SortedAlike (.task t) (.task t')

/-- What an entry of the source is taken for. -/
inductive TaskPart.MadeFrom (source : SourceLines) (e : Outline.Entry Node) : TaskPart → Prop
  | module : MadeFrom source e (.module (.ofEntry e))
  | nested : MadeFrom source e (.nested ⟨e.key, e.position, taskItems source e.value⟩)
  | entry : MadeFrom source e (.entry (optionEntry e))

/-- A task has one field for each of some entries, and each of these is its module, one of its
nested lists or one of its entries, in order. The rule on privileges sees all of them. -/
structure TaskOf.MadeFrom (source : SourceLines) (entries : List (Outline.Entry Node)) (t : Task) :
    Prop where
  fields : t.fields.map (fun field => (field.key, field.position)) =
    entries.map fun e => (e.key, e.position)
  parts : ∃ parts, List.Forall₂ (TaskPart.MadeFrom source) entries parts ∧
    t.module?.toList = parts.filterMap TaskPart.module? ∧
    t.nested = parts.filterMap TaskPart.nested? ∧ t.entries = parts.filterMap TaskPart.entryOf?
  directives : ∀ e ∈ entries, (Rule.deprecatedDirectives.lookup e.key).isSome = true →
    optionEntry e ∈ t.entries
  inspected : ∀ conventions previous?, Rule.sudoBecome.remarks conventions ⟨.task t, previous?⟩ =
    entries.filterMap fun e => Rule.directiveRemark? (optionEntry e)

theorem taskParts_madeFrom (found : Bool) (entries : List (Outline.Entry Node)) :
    List.Forall₂ (TaskPart.MadeFrom source) entries ((taskParts source found entries).map Prod.snd) := by
  induction entries generalizing found with
  | nil =>
    rw [taskParts]
    exact .nil
  | cons entry rest ih =>
    rw [taskParts, List.map_cons]
    refine .cons ?_ (ih _)
    rw [snd_taskPart]
    split
    · exact .nested
    · split
      · exact .module
      · exact .entry

theorem places_taskParts (found : Bool) (entries : List (Outline.Entry Node)) :
    (taskParts source found entries).map (fun part => (part.1.key, part.1.position)) =
      entries.map fun e => (e.key, e.position) := by
  induction entries generalizing found with
  | nil => rw [taskParts, List.map_nil, List.map_nil]
  | cons entry rest ih =>
    obtain ⟨hkey, hposition, -⟩ := @taskPart_eq source found entry
    rw [taskParts, List.map_cons, ih, hkey, hposition, List.map_cons]

/-- Of all parts one at most calls the module. -/
theorem calls_taskParts (found : Bool) (entries : List (Outline.Entry Node)) :
    (taskParts source found entries).filterMap (·.2.module?) =
      if found then [] else ((entries.find? namesModule).map ModuleCall.ofEntry).toList := by
  induction entries generalizing found with
  | nil => cases found <;> rfl
  | cons entry rest ih =>
    rw [taskParts, List.filterMap_cons, ih, snd_taskPart, List.find?_cons]
    cases hnested : opensList entry.key with
    | true =>
      have hmodule : namesModule entry = false := by simp [namesModule, hnested]
      cases found <;> simp [hmodule, TaskPart.module?]
    | false =>
      cases hmodule : namesModule entry <;> cases found <;> simp [TaskPart.module?]

/-- What is said of directives is said of no module and of no list. -/
theorem directives_taskParts (found : Bool) (entries : List (Outline.Entry Node)) :
    ((taskParts source found entries).filterMap (·.2.entryOf?)).filterMap Rule.directiveRemark? =
      entries.filterMap fun e => Rule.directiveRemark? (optionEntry e) := by
  have hnone : ∀ entry : Outline.Entry Node, opensList entry.key = true ∨ namesModule entry = true →
      Rule.directiveRemark? (optionEntry entry) = none := by
    intro entry other
    have hkey : (optionEntry entry).key = entry.key := by rw [optionEntry, entryOf_eq]
    rw [Rule.directiveRemark?, hkey, Option.map_eq_none_iff]
    by_contra hsome
    obtain ⟨keyword, plain⟩ :=
      isTaskKeyword_of_directive (Option.isSome_iff_ne_none.mpr hsome)
    rcases other with hopens | hnames
    · rw [plain] at hopens
      cases hopens
    · rw [namesModule_eq, keyword] at hnames
      cases hnames
  have hlist : ∀ list, (TaskPart.nested list).entryOf? = none := fun _ => rfl
  have hmodule : ∀ call, (TaskPart.module call).entryOf? = none := fun _ => rfl
  have hentry : ∀ e, (TaskPart.entry e).entryOf? = some e := fun _ => rfl
  induction entries generalizing found with
  | nil => rw [taskParts, List.filterMap_nil, List.filterMap_nil, List.filterMap_nil]
  | cons entry rest ih =>
    rw [taskParts, List.filterMap_cons, snd_taskPart]
    cases hopens : opensList entry.key with
    | true => simp [hnone entry (.inl hopens), hlist, ih]
    | false =>
      cases hcall : namesModule entry && !found with
      | true => simp [hnone entry (.inr (Bool.and_eq_true_iff.mp hcall).1), hmodule, ih]
      | false => simp [hentry, ih, List.filterMap_cons]

theorem ofParts_madeFrom (position : Position) (endLine : Nat) (entries : List (Outline.Entry Node)) :
    (TaskOf.ofParts source position endLine (taskParts source false entries)).MadeFrom source
      entries := by
  refine ⟨?_, ⟨_, taskParts_madeFrom false entries, ?_, ?_, ?_⟩, fun e he directive => ?_,
    fun _ _ => directives_taskParts false entries⟩
  · rw [TaskOf.ofParts, List.map_map]
    exact places_taskParts false entries
  · rw [TaskOf.ofParts, module_taskParts, List.filterMap_map]
    exact (calls_taskParts false entries).symm
  · rw [TaskOf.ofParts, List.filterMap_map]
    rfl
  · rw [TaskOf.ofParts, List.filterMap_map]
    rfl
  · obtain ⟨keyword, plain⟩ := isTaskKeyword_of_directive directive
    rw [TaskOf.ofParts, entries_taskParts, if_neg Bool.false_ne_true]
    have hmodule : ¬namesModule e = true := by rw [namesModule_eq, keyword]; exact Bool.false_ne_true
    refine List.mem_map_of_mem (List.mem_filter.mpr ⟨?_, by rw [plain]; rfl⟩)
    exact (List.mem_eraseP_of_neg hmodule).mpr he

/-- **In any order keys are taken for the same.** If an item has distinct keys and at most one
of them is no keyword of tasks, then it and an item with its entries in another order, at
whatever places, are both includes, by one keyword, or both tasks with one module and the same
kinds of keys; and in either task no entry is lost. -/
theorem items_sorted_alike (hentries : item.value.entries? = some entries)
    (hentries' : item'.value.entries? = some entries') (one : OneModule entries)
    (reordered : (entries'.map shapeOf).Perm (entries.map shapeOf)) :
    ∃ made made', taskItem? source item = some made ∧ taskItem? source item' = some made' ∧
      made.SortedAlike made' ∧ (∀ t, made = .task t → t.MadeFrom source entries) ∧
      ∀ t, made' = .task t → t.MadeFrom source entries' := by
  have hkeyword : (Include.ofItem? source taskIncludes item').map Include.keyword =
      (Include.ofItem? source taskIncludes item).map Include.keyword := by
    rw [keyword_ofItem? hentries, keyword_ofItem? hentries']
    refine one.find?_reordered reordered (p := fun shape => taskIncludes.contains shape.1 && shape.2)
      fun shape h => ?_
    exact isTaskKeyword_of_include (Bool.and_eq_true_iff.mp h).1
  rw [taskItem?_eq, taskItem?_eq, hentries, hentries']
  cases hinclude : Include.ofItem? source taskIncludes item with
  | some i =>
    rw [hinclude, Option.map_some, Option.map_eq_some_iff] at hkeyword
    obtain ⟨i', hinclude', keyword⟩ := hkeyword
    rw [hinclude']
    exact ⟨_, _, rfl, rfl, .inclusion keyword, by rintro _ ⟨⟩, by rintro _ ⟨⟩⟩
  | none =>
    rw [hinclude, Option.map_none, Option.map_eq_none_iff] at hkeyword
    rw [hkeyword]
    refine ⟨_, _, rfl, rfl, .task ?_ ?_, ?_, ?_⟩
    · have hnames : (namesModule : Outline.Entry Node → Bool) =
          fun e => !isTaskKeyword (shapeOf e).1 := funext namesModule_eq
      rw [TaskOf.ofParts, TaskOf.ofParts, module_taskParts, module_taskParts, Option.map_map,
        Option.map_map, hnames]
      exact one.find?_reordered reordered (p := fun shape => !isTaskKeyword shape.1) fun shape h => by
        simpa using h
    · have hkinds : ∀ {entries}, OneModule entries →
          ((taskParts source false entries).map Prod.fst).map (fun field => (field.key, field.kind)) =
            (entries.map Outline.Entry.key).map fun key => (key, taskFieldKind false key) := by
        intro entries one
        rw [List.map_map, List.map_map]
        exact one.kinds false fun h => by cases h
      rw [TaskOf.ofParts, TaskOf.ofParts, hkinds one, hkinds (one.reordered reordered)]
      exact (keys_reordered reordered).map _
    · rintro _ ⟨⟩
      exact ofParts_madeFrom ..
    · rintro _ ⟨⟩
      exact ofParts_madeFrom ..

/-- A directive and a module in either order. -/
theorem items_sorted_alike_sudo :
    let entry (key : String) (line : Nat) : Outline.Entry Node := ⟨key, ⟨line, 5⟩, default, .empty, line⟩
    let item : Item Node := ⟨⟨3, 3⟩, .mapping ⟨3, 5⟩ [entry "sudo" 3, entry "ping" 4], 4⟩
    let item' : Item Node := ⟨⟨3, 3⟩, .mapping ⟨3, 5⟩ [entry "ping" 3, entry "sudo" 4], 4⟩
    OneModule [entry "sudo" 3, entry "ping" 4] ∧ ∃ made made', taskItem? .empty item = some made ∧
      taskItem? .empty item' = some made' ∧ made.SortedAlike made' ∧
      ∀ t, made = .task t → t.MadeFrom .empty [entry "sudo" 3, entry "ping" 4] := by
  intro entry item item'
  have one : OneModule [entry "sudo" 3, entry "ping" 4] := ⟨by decide, by decide⟩
  obtain ⟨made, made', hmade, hmade', alike, task, -⟩ :=
    @items_sorted_alike .empty item item' _ _ rfl rfl one
      (.swap (shapeOf (entry "sudo" 3)) (shapeOf (entry "ping" 4)) [])
  exact ⟨one, made, made', hmade, hmade', alike, task⟩

end Items

end PlaybookStyle.Playbook
