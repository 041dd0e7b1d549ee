/-
Tasks that call their module by another name.

A module of the core collections is the same with and without its collection before the
name (`shortModuleName_collection`). A task that calls it by the other name is the same but
for that: its field and its call have the name (`TaskOf.calling`). The walks over both tasks
match (`TaskOf.Renames.matches`), if no other key of the task reads like one of the two
names: by such a key the walk would find something else in the module's place.
-/

import PlaybookStyle.Proofs.Outline.Qualified
import PlaybookStyle.Proofs.Playbook.Matching

namespace PlaybookStyle

open Playbook
open Outline (Node)

/-! ### Names -/

namespace Playbook

section Names

variable {word name : String}

/-- A name with a collection begins like no key of the language. -/
theorem not_mem_of_collection (collection : word ∈ coreCollections) {keys : List String}
    (other : keys.all (fun key => !"ans".toList.isPrefixOf key.toList) = true) (name : String) :
    word ++ name ∉ keys := by
  intro hmem
  have hstart : "ans".toList.isPrefixOf (word ++ name).toList = true := by
    simp only [coreCollections, List.mem_cons, List.not_mem_nil, or_false] at collection
    rw [String.toList_append]
    rcases collection with rfl | rfl <;> rfl
  have hother := List.all_eq_true.mp other _ hmem
  rw [hstart] at hother
  cases hother

theorem dropStart?_append (start text : String) : Text.dropStart? (start ++ text) start = some text := by
  have hstart : Text.startsWith (start ++ text) start = true := by
    rw [Text.startsWith, String.toList_append]
    exact List.isPrefixOf_iff_prefix.mpr (List.prefix_append _ _)
  rw [Text.dropStart?, if_pos hstart, String.toList_append, List.drop_left, String.ofList_toList]

theorem shortModuleName_collection (collection : word ∈ coreCollections) (name : String) :
    shortModuleName (word ++ name) = name := by
  simp only [coreCollections, List.mem_cons, List.not_mem_nil, or_false] at collection
  rcases collection with rfl | rfl
  · rw [shortModuleName, coreCollections, List.findSome?_cons, dropStart?_append]
    rfl
  · have hother : Text.dropStart? ("ansible.legacy." ++ name) "ansible.builtin." = none := by
      rw [Text.dropStart?, Text.startsWith, String.toList_append]
      exact if_neg Bool.false_ne_true
    rw [shortModuleName, coreCollections, List.findSome?_cons, hother, List.findSome?_cons,
      dropStart?_append]
    rfl

theorem opensList_collection (collection : word ∈ coreCollections) (name : String) :
    opensList (word ++ name) = false :=
  Bool.eq_false_iff.mpr fun h =>
    not_mem_of_collection collection (by decide) name (List.contains_iff_mem.mp h)

theorem isLoopKey_collection (collection : word ∈ coreCollections) (name : String) :
    isLoopKey (word ++ name) = false := by
  have hstart : Text.startsWith (word ++ name) "with_" = false := by
    simp only [coreCollections, List.mem_cons, List.not_mem_nil, or_false] at collection
    rw [Text.startsWith, String.toList_append]
    rcases collection with rfl | rfl <;> rfl
  have hkey : word ++ name ∉ ["loop", "loop_control"] :=
    not_mem_of_collection collection (by decide) name
  rw [List.mem_cons, List.mem_singleton, not_or] at hkey
  rw [isLoopKey, hstart, beq_eq_false_iff_ne.mpr hkey.1, beq_eq_false_iff_ne.mpr hkey.2]
  rfl

/-- A name with a collection is taken for that of a module. -/
theorem namesModule_collection (collection : word ∈ coreCollections) {entry : Outline.Entry Node}
    (key : entry.key = word ++ name) : namesModule entry = true := by
  have hother : ∀ keys ∈ [nestedKeys, taskKeywords], keys.contains (word ++ name) = false := by
    intro keys hkeys
    have hstart : ∀ keys ∈ [nestedKeys, taskKeywords],
        keys.all (fun key => !"ans".toList.isPrefixOf key.toList) = true := by decide
    refine Bool.eq_false_iff.mpr fun hmem => ?_
    exact not_mem_of_collection collection (hstart keys hkeys) name (List.contains_iff_mem.mp hmem)
  have hkey : word ++ name ∉ ["name", "vars"] :=
    not_mem_of_collection collection (by decide) name
  rw [List.mem_cons, List.mem_singleton, not_or] at hkey
  have hkind : taskFieldKind false (word ++ name) = .module := by
    simp only [taskFieldKind, beq_eq_false_iff_ne.mpr hkey.1, beq_eq_false_iff_ne.mpr hkey.2,
      hother nestedKeys (by simp), isLoopKey_collection collection, hother taskKeywords (by simp),
      Bool.false_eq_true, if_false]
  rw [namesModule, key, hkind, opensList_collection collection]
  rfl

end Names

/-! ### Calls with another name -/

/-- The arguments of a module that got another name. -/
inductive Value.Passed : Value → Value → Prop
  | null : Passed .null .null
  | inline (s : Scalar) (inline : s.context = .inlineArgs) (text : s.kind = .string)
      (key? : Option String) (position : Position) :
      Passed (.scalar s) (.scalar { s with key? := key?, position := position })
  | mapping {entries entries' : List Entry}
      (keys : entries'.map (fun e => (e.key, e.position)) = entries.map fun e => (e.key, e.position))
      (inside : List.Forall₂ (Visit.Matches Part.Alike) (visitsOfEntries entries)
        (visitsOfEntries entries')) :
      Passed (.mapping entries) (.mapping entries')

/-- A call with another name of the same module. -/
structure ModuleCall.Renamed (call call' : ModuleCall) : Prop where
  position : call'.position = call.position
  spacing : call'.spacing = call.spacing
  endLine : call'.endLine = call.endLine
  short : shortModuleName call'.name = shortModuleName call.name
  args : call.args.Passed call'.args

/-- A call by a longer key is one with another name, unless the arguments are a list. -/
theorem ModuleCall.renamed_qualified {word : List Char} {e : Outline.Entry Node}
    (short : shortModuleName (e.qualified word).key = shortModuleName e.key)
    (arguments : ∀ values, (ModuleCall.ofEntry e).args ≠ .sequence values) :
    (ModuleCall.ofEntry e).Renamed (.ofEntry (e.qualified word)) := by
  refine ⟨rfl, rfl, rfl, short, ?_⟩
  obtain ⟨key, position, spacing, value, endLine⟩ := e
  cases value with
  | mapping place entries =>
    have hscope : { Scope.ofModule key with module? := some (String.ofList (word ++ key.toList)) } =
        Scope.ofModule (String.ofList (word ++ key.toList)) := by
      rw [Scope.ofModule, Scope.ofModule,
        show shortModuleName (String.ofList (word ++ key.toList)) = _ from short]
    have hinside := @ofNode_matches (.mapping place entries) (some key) rfl (.ofModule key)
      (some (String.ofList (word ++ key.toList))) (congrArg some short)
    rw [hscope, Value.ofNode, Value.ofNode, Value.visits, Value.visits] at hinside
    simp only [ModuleCall.ofEntry, Outline.Entry.qualified, Outline.Node.pushed, Value.ofNode]
    refine .mapping ?_ hinside
    simp only [entriesOf_eq_map, List.map_map, Function.comp_def, entryOf_eq]
  | scalar s =>
    simp only [ModuleCall.ofEntry, Outline.Entry.qualified, Outline.Node.pushed]
    unfold Outline.Scalar.pushed
    split
    · exact .inline (Scalar.ofOutline s (some key) (.of .inlineArgs)) rfl rfl _ _
    · exact .inline (Scalar.ofOutline s (some key) (.of .inlineArgs)) rfl rfl _ _
  | sequence place items =>
    refine absurd ?_ (arguments (itemsOf (some key) (Scope.ofModule key).nested items))
    simp only [ModuleCall.ofEntry, Value.ofNode]
  | empty =>
    simp only [ModuleCall.ofEntry, Outline.Entry.qualified, Outline.Node.pushed, Value.ofNode]
    exact .null

/-! ### The task of the call -/

/-- The field with the name of the call, if it is at the place of the call. -/
def Field.calling (call : ModuleCall) (field : Field TaskFieldKind) : Field TaskFieldKind :=
  if field.position = call.position then { field with key := call.name } else field

/-- The task with another call of its module. -/
def TaskOf.calling (t : Task) (call : ModuleCall) : Task :=
  { t with module? := some call, fields := t.fields.map (Field.calling call) }

/-- A task with its call, and another name for the module. No field and no entry besides
the call reads like one of the two names. -/
structure TaskOf.Renames (t : Task) (call call' : ModuleCall) : Prop where
  module : t.module? = some call
  renamed : call.Renamed call'
  entries : ∀ entry ∈ t.entries, entry.key ≠ call.name ∧ entry.key ≠ call'.name
  nested : ∀ list ∈ t.nested, list.key ≠ call.name ∧ list.key ≠ call'.name
  field : ∀ field ∈ t.fields, field.position = call.position →
    field.kind = .module ∧ field.key = call.name
  others : ∀ field ∈ t.fields, field.position ≠ call.position →
    field.key ≠ call.name ∧ field.key ≠ call'.name

/-- Parts that differ by the name of the module that a task calls. -/
inductive Part.Renamed (t : Task) (call call' : ModuleCall) : Part → Part → Prop
  | alike {part part' : Part} (h : part.Alike part') : Renamed t call call' part part'
  | task : Renamed t call call' (.task t) (.task (t.calling call'))
  | module : Renamed t call call' (.module call) (.module call')
  | inline {s s' : Scalar} (old : call.args = .scalar s) (new : call'.args = .scalar s') :
      Renamed t call call' (.scalar s) (.scalar s')

theorem Part.Renamed.refl {t : Task} {call call' : ModuleCall} (part : Part) :
    Part.Renamed t call call' part part :=
  .alike (.refl part)

section Calls

variable {t : Task} {call call' : ModuleCall}

theorem visits_call_matches (h : call.Renamed call') :
    List.Forall₂ (Visit.Matches (Part.Renamed t call call')) call.visits call'.visits := by
  refine .cons (.alone .module) ?_
  have hargs := h.args
  generalize hold : call.args = args at hargs
  generalize hnew : call'.args = args' at hargs
  cases hargs with
  | null => exact matches_self Part.Renamed.refl _
  | inline =>
    rw [Value.visits, Value.visits]
    exact .cons (.alone (.inline hold hnew)) .nil
  | mapping keys inside =>
    rw [Value.visits, Value.visits]
    exact inside.imp fun _ _ h => h.mono fun _ _ => .alike

/-- The walks over a task before and after match. -/
theorem TaskOf.Renames.matches (h : t.Renames call call') :
    TaskItem.Matches (Part.Renamed t call call') (.task t) (.task (t.calling call')) := by
  refine ⟨.task, ?_⟩
  rw [visitsOfItem, visitsOfItem, visitsOfTask_eq, visitsOfTask_eq,
    show (t.calling call').fields = t.fields.map (Field.calling call') from rfl, List.flatMap_map]
  refine forall₂_flatMap fun field hfield => ?_
  have hnested : (t.calling call').nested = t.nested := rfl
  by_cases hplace : field.position = call.position
  · -- The walk comes to the call, for nothing else has its name.
    obtain ⟨-, hkey⟩ := h.field field hfield hplace
    have hnew : field.calling call' = { field with key := call'.name } :=
      if_pos (hplace.trans h.renamed.position.symm)
    have hentry : ∀ name, (∀ entry ∈ t.entries, entry.key ≠ name) →
        t.entries.find? (·.key == name) = none := fun name hne =>
      List.find?_eq_none.mpr fun entry hentry => by simpa using hne entry hentry
    have hlist : ∀ name, (∀ list ∈ t.nested, list.key ≠ name) →
        (visitsOfNested t.nested).lookup name = none := by
      intro name hne
      rw [visitsOfNested_eq_map, lookup_map_pair, List.find?_eq_none.mpr, Option.map_none]
      exact fun list hlist => by simpa using hne list hlist
    rw [hnew, hnested]
    unfold TaskOf.visitsOfField TaskOf.entryOf? TaskOf.calling
    dsimp only
    rw [hkey, hentry _ fun entry hentry => (h.entries entry hentry).1,
      hentry _ fun entry hentry => (h.entries entry hentry).2,
      hlist _ fun list hlist => (h.nested list hlist).1,
      hlist _ fun list hlist => (h.nested list hlist).2, h.module]
    simpa [Option.filter] using visits_call_matches h.renamed
  · have hsame : field.calling call' = field :=
      if_neg fun hsame => hplace (hsame.trans h.renamed.position)
    obtain ⟨hne, hne'⟩ := h.others field hfield hplace
    rw [hsame]
    have hentries : (t.calling call').entries = t.entries := rfl
    refine TaskOf.visitsOfField_matches Part.Renamed.refl hentries rfl ?_ ?_
    · rw [hnested]
      cases (visitsOfNested t.nested).lookup field.key with
      | none => exact .none
      | some visits => exact .some (matches_self Part.Renamed.refl _)
    · rw [h.module, show (t.calling call').module? = some call' from rfl]
      simp [Option.filter, Ne.symm hne, Ne.symm hne']

end Calls

end Playbook

end PlaybookStyle
