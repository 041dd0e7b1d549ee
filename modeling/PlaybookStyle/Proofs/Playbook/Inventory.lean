/-
What is in a playbook, kind by kind.

The lists here are read off the playbook itself: the elements of a list, and the
elements of the lists inside them, without a look at any key. `Playbook.parts`
puts all kinds together, so that a walk can be held against it.

* `Playbook.taskCount_eq` — what is counted as tasks are the elements of the task
  lists, at every depth.
-/

import PlaybookStyle.Playbook.Part

namespace PlaybookStyle.Playbook

/-! ### Values -/

theorem sizeOf_value_lt {entry : Entry} {entries : List Entry} (h : entry ∈ entries) :
    sizeOf entry.value < sizeOf (Value.mapping entries) := by
  have hentry := List.sizeOf_lt_of_mem h
  have hvalue : sizeOf entry.value < sizeOf entry := by
    cases entry
    simp only [EntryOf.mk.sizeOf_spec]
    omega
  simp only [Value.mapping.sizeOf_spec]
  omega

/-- A value and all values inside it. -/
def Value.within : Value → List Value
  | .scalar s => [.scalar s]
  | .mapping entries => .mapping entries :: entries.flatMap fun entry => entry.value.within
  | .sequence items => .sequence items :: items.flatMap fun item => item.within
  | .null => [.null]
termination_by v => v
decreasing_by
  · exact sizeOf_value_lt ‹_›
  · decreasing_tactic

/-- The entries of all mappings in a value. -/
def Value.entries (v : Value) : List Entry := v.within.flatMap fun inner => inner.mapping?.getD []

/-- The scalars in a value. -/
def Value.scalars (v : Value) : List Scalar := v.within.filterMap Value.scalar?

namespace Value

@[simp] theorem entries_scalar (s : Scalar) : (scalar s).entries = [] := by
  simp [entries, within, mapping?]

@[simp] theorem entries_mapping (entries : List Entry) :
    (mapping entries).entries = entries ++ entries.flatMap fun entry => entry.value.entries := by
  simp [Value.entries, within, mapping?, List.flatMap_assoc]

@[simp] theorem entries_sequence (items : List Value) :
    (sequence items).entries = items.flatMap Value.entries := by
  rw [Value.entries, within, List.flatMap_cons, List.flatMap_assoc]
  rfl

@[simp] theorem entries_null : null.entries = [] := by simp [entries, within, mapping?]

@[simp] theorem scalars_scalar (s : Scalar) : (scalar s).scalars = [s] := by
  simp [scalars, within, scalar?]

@[simp] theorem scalars_mapping (entries : List Entry) :
    (mapping entries).scalars = entries.flatMap fun entry => entry.value.scalars := by
  rw [scalars, within, List.filterMap_cons, List.filterMap_flatMap]
  rfl

@[simp] theorem scalars_sequence (items : List Value) :
    (sequence items).scalars = items.flatMap Value.scalars := by
  rw [scalars, within, List.filterMap_cons, List.filterMap_flatMap]
  rfl

@[simp] theorem scalars_null : null.scalars = [] := by simp [scalars, within, scalar?]

end Value

/-! ### Task lists -/

mutual

/-- A task or include, and all tasks and includes in its nested lists. -/
def TaskItem.within : TaskItem → List TaskItem
  | .task t => .task t :: withinTask t
  | .inclusion i => [.inclusion i]

def withinTask : TaskOf TaskItem → List TaskItem
  | ⟨_, _, _, _, _, _, _, nested⟩ => withinNested nested

def withinNested : List (NestedOf TaskItem) → List TaskItem
  | [] => []
  | list :: rest => withinList list ++ withinNested rest

def withinList : NestedOf TaskItem → List TaskItem
  | ⟨_, _, items⟩ => withinItems items

/-- The elements of a task list, and all in their nested lists. -/
def withinItems : List TaskItem → List TaskItem
  | [] => []
  | item :: rest => item.within ++ withinItems rest

end

theorem withinItems_eq_flatMap (items : List TaskItem) :
    withinItems items = items.flatMap TaskItem.within := by
  induction items with
  | nil => rw [withinItems, List.flatMap_nil]
  | cons item rest ih => rw [withinItems, ih, List.flatMap_cons]

theorem withinTask_eq_flatMap (t : Task) :
    withinTask t = t.nested.flatMap fun list => withinItems list.items := by
  have hnested : ∀ nested : List Nested,
      withinNested nested = nested.flatMap fun list => withinItems list.items := by
    intro nested
    induction nested with
    | nil => rw [withinNested, List.flatMap_nil]
    | cons list rest ih => rw [withinNested, ih, List.flatMap_cons, withinList]
  rw [withinTask, hnested]

theorem sizeOf_item_lt {t : Task} {list : Nested} {item : TaskItem} (hlist : list ∈ t.nested)
    (hitem : item ∈ list.items) : sizeOf item < sizeOf (TaskItem.task t) := by
  have hlist := List.sizeOf_lt_of_mem hlist
  have hitem := List.sizeOf_lt_of_mem hitem
  have hitems : sizeOf list.items < sizeOf list := by
    cases list
    simp only [NestedOf.mk.sizeOf_spec]
    omega
  have hnested : sizeOf t.nested < sizeOf t := by
    cases t
    simp only [TaskOf.mk.sizeOf_spec]
    omega
  simp only [TaskItem.task.sizeOf_spec]
  omega

/-- What holds of includes, and of a task if it holds of all elements of its nested
lists, holds of every element of a task list. -/
theorem TaskItem.induction {motive : TaskItem → Prop}
    (inclusion : ∀ i, motive (.inclusion i))
    (task : ∀ t : Task, (∀ list ∈ t.nested, ∀ item ∈ list.items, motive item) → motive (.task t))
    (item : TaskItem) : motive item :=
  match item with
  | .inclusion i => inclusion i
  | .task t => task t fun list hlist item hitem =>
    have _hlt := sizeOf_item_lt hlist hitem
    TaskItem.induction inclusion task item
termination_by item
decreasing_by exact _hlt

def TaskItem.task? : TaskItem → Option Task
  | .task t => some t
  | .inclusion _ => none

def TaskItem.inclusion? : TaskItem → Option Include
  | .task _ => none
  | .inclusion i => some i

theorem TaskItem.eq_task_of_task? {item : TaskItem} {t : Task} (h : item.task? = some t) :
    item = .task t := by
  cases item with
  | task t' => exact congrArg task (Option.some.inj h)
  | inclusion i => cases h

theorem mem_withinItems {inner : TaskItem} {items : List TaskItem} :
    inner ∈ withinItems items ↔ ∃ item ∈ items, inner ∈ item.within := by
  rw [withinItems_eq_flatMap, List.mem_flatMap]

/-- A property holds of all tasks at and inside an element of a task list. -/
def TaskItem.AllTasks (P : Task → Prop) (item : TaskItem) : Prop :=
  ∀ t, .task t ∈ item.within → P t

theorem allTasks_inclusion (P : Task → Prop) (i : Include) :
    (TaskItem.inclusion i).AllTasks P := by
  intro t ht
  simp [TaskItem.within] at ht

theorem allTasks_task_iff {P : Task → Prop} {t : Task} :
    (TaskItem.task t).AllTasks P ↔
      P t ∧ ∀ list ∈ t.nested, ∀ item ∈ list.items, item.AllTasks P := by
  have hmem : ∀ inner, inner ∈ (TaskItem.task t).within ↔
      inner = .task t ∨ ∃ list ∈ t.nested, ∃ item ∈ list.items, inner ∈ item.within := by
    intro inner
    simp only [TaskItem.within, List.mem_cons, withinTask_eq_flatMap, List.mem_flatMap,
      mem_withinItems]
  constructor
  · intro h
    refine ⟨h t ((hmem _).mpr (.inl rfl)), fun list hlist item hitem inner hinner => ?_⟩
    exact h inner ((hmem _).mpr (.inr ⟨list, hlist, item, hitem, hinner⟩))
  · rintro ⟨ht, hnested⟩ inner hinner
    rcases (hmem _).mp hinner with heq | ⟨list, hlist, item, hitem, hinner⟩
    · obtain rfl := TaskItem.task.inj heq
      exact ht
    · exact hnested list hlist item hitem inner hinner

/-! ### Roles and sections -/

/-- The entries of a role that is a mapping. -/
def Role.written (r : Role) : List Entry :=
  match r.form with
  | .mapping => r.entries
  | .bare | .flow => []

/-- The name of a bare role, or the text of a role in braces. -/
def Role.text? (r : Role) : Option Scalar :=
  match r.form with
  | .bare => r.name?
  | .flow => r.flow?
  | .mapping => none

/-- The tasks and includes of a section, at every depth. -/
def SectionItems.items : SectionItems → List TaskItem
  | .tasks list => withinItems list
  | .roles _ => []

def SectionItems.applied : SectionItems → List Role
  | .tasks _ => []
  | .roles list => list

def Block.inclusion? : Block → Option Include
  | .play _ => none
  | .inclusion i => some i

def Block.isInclusion (block : Block) : Bool := block.inclusion?.isSome

end Playbook

namespace Playbook

open Playbook

/-! ### Playbooks -/

variable (p : Playbook)

protected def sections : List SectionItems :=
  p.plays.flatMap fun play => play.sections.map (·.items)

/-- The tasks and includes of all sections and of all nested lists. -/
protected def items : List TaskItem := p.sections.flatMap SectionItems.items

protected def tasks : List Task := p.items.filterMap TaskItem.task?

/-- The includes, those at the top and those in task lists. -/
protected def includes : List Include :=
  p.blocks.filterMap Block.inclusion? ++ p.items.filterMap TaskItem.inclusion?

protected def roles : List Role := p.sections.flatMap SectionItems.applied

protected def calls : List ModuleCall := p.tasks.filterMap (·.module?)

/-- The entries directly under plays, tasks, includes and roles. -/
protected def outerEntries : List Entry :=
  p.plays.flatMap (·.entries) ++ p.tasks.flatMap (·.entries) ++ p.includes.flatMap (·.entries) ++
    p.roles.flatMap Role.written

/-- The values of those entries, and what the modules are given. -/
protected def outerValues : List Value := p.outerEntries.map (·.value) ++ p.calls.map (·.args)

/-- All entries, at every depth of mappings and sequences. -/
protected def entries : List Entry := p.outerEntries ++ p.outerValues.flatMap Value.entries

/-- All scalars: those in values, the targets of includes and the texts of roles. -/
protected def scalars : List Scalar :=
  p.outerValues.flatMap Value.scalars ++ p.includes.map (·.target) ++ p.roles.filterMap Role.text?

/-- All that is in a playbook, and the playbook itself, kind by kind. -/
def parts : List Part :=
  .document p :: (p.blocks.map Block.part ++ p.items.map TaskItem.part ++ p.roles.map .role ++
    p.calls.map .module ++ p.entries.map .entry ++ p.scalars.map .scalar)

/-- No play and no task has two fields of one key. -/
def DistinctKeys : Prop :=
  (∀ play ∈ p.plays, (play.fields.map Field.key).Nodup) ∧
    ∀ t ∈ p.tasks, (t.fields.map Field.key).Nodup

instance : Decidable p.DistinctKeys := inferInstanceAs (Decidable (_ ∧ _))

/-! ### Counting tasks -/

/-- Adding up lengths is the length of all lists together. -/
theorem foldl_add_length {α β : Type} {count : α → Nat} {f : α → List β} {list : List α}
    (h : ∀ a ∈ list, count a = (f a).length) (n : Nat) :
    list.foldl (fun sum a => sum + count a) n = n + (list.flatMap f).length := by
  induction list generalizing n with
  | nil => simp
  | cons a rest ih =>
    rw [List.foldl_cons, ih fun b hb => h b (List.mem_cons_of_mem _ hb), h a List.mem_cons_self,
      List.flatMap_cons, List.length_append, Nat.add_assoc]

theorem countItems_eq_length_of_forall {items : List TaskItem}
    (h : ∀ item ∈ items, countItem item = item.within.length) :
    countItems items = (withinItems items).length := by
  induction items with
  | nil => rfl
  | cons item rest ih =>
    rw [countItems, withinItems, List.length_append, h item List.mem_cons_self,
      ih fun i hi => h i (List.mem_cons_of_mem _ hi)]

theorem countItem_eq_length (item : TaskItem) : countItem item = item.within.length := by
  induction item using TaskItem.induction with
  | inclusion i => rfl
  | task t ih =>
    have hnested : ∀ nested : List Nested,
        (∀ list ∈ nested, ∀ item ∈ list.items, countItem item = item.within.length) →
          countNested nested = (withinNested nested).length := by
      intro nested h
      induction nested with
      | nil => rfl
      | cons list rest ih =>
        rw [countNested, withinNested, List.length_append, countList, withinList,
          countItems_eq_length_of_forall (h list List.mem_cons_self),
          ih fun l hl => h l (List.mem_cons_of_mem _ hl)]
    rw [countItem, countTask, TaskItem.within, withinTask, hnested _ ih, List.length_cons,
      Nat.add_comm]

theorem PlaySection.taskCount_eq (s : PlaySection) : s.taskCount = s.items.items.length := by
  obtain ⟨kind, position, items⟩ := s
  cases items with
  | tasks list => exact countItems_eq_length_of_forall fun item _ => countItem_eq_length item
  | roles list => rfl

/-- What is counted as the tasks of a playbook are the tasks and includes of its
sections, at every depth. -/
theorem taskCount_eq : p.taskCount = p.items.length := by
  have hplay : ∀ play ∈ p.plays,
      play.taskCount = (play.sections.flatMap fun s => s.items.items).length := by
    intro play _
    rw [Play.taskCount, foldl_add_length fun s _ => s.taskCount_eq, Nat.zero_add]
  rw [taskCount, foldl_add_length hplay, Nat.zero_add, Playbook.items, Playbook.sections,
    List.flatMap_assoc]
  simp only [List.flatMap_map]

end Playbook

end PlaybookStyle
