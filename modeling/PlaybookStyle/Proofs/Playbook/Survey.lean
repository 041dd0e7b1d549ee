/-
The survey of a playbook: all that is in it, list by list.

The survey looks nothing up. It goes through the lists of a playbook themselves,
puts what is held at places in the order of the places (`inPlace`), and the
elements of a list one behind the other, each right before what is inside it
(`inRow`).

* `Playbook.survey_perm_parts` — the survey has every part of the inventory once.
-/

import Mathlib.Data.Multiset.Bind
import Mathlib.Tactic.Abel
import PlaybookStyle.Playbook.Walk
import PlaybookStyle.Proofs.Playbook.Inventory

namespace PlaybookStyle

/-- The place is not behind the other one. -/
def Position.upTo (a b : Position) : Bool :=
  a.line < b.line || a.line == b.line && a.column ≤ b.column

namespace Playbook

/-! ### The survey -/

/-- What is held at places, in the order of the places. -/
def inPlace (held : List (Position × List Visit)) : List Visit :=
  (held.mergeSort fun a b => a.1.upTo b.1).flatMap Prod.snd

/-- The elements of a list with what is inside them: each knows the element before
it and stands right before what is inside it. -/
def inRow (previous? : Option Part) (elements : List (Part × List Visit)) : List Visit :=
  ((previous? :: elements.map fun element => some element.1).zip elements).flatMap
    fun (previous?, part, inside) => ⟨part, previous?⟩ :: inside

def Value.survey : Value → List Visit
  | .scalar s => [⟨.scalar s, none⟩]
  | .mapping entries =>
    entries.flatMap fun entry => ⟨.entry entry, none⟩ :: entry.value.survey
  | .sequence items => items.flatMap fun item => item.survey
  | .null => []
termination_by v => v
decreasing_by
  · exact sizeOf_value_lt ‹_›
  · decreasing_tactic

def EntryOf.survey (entry : Entry) : List Visit := ⟨.entry entry, none⟩ :: entry.value.survey

def Include.survey (i : Include) : List Visit :=
  ⟨.scalar i.target, none⟩ :: i.entries.flatMap EntryOf.survey

def ModuleCall.survey (m : ModuleCall) : List Visit := ⟨.module m, none⟩ :: m.args.survey

def Role.survey (r : Role) : List Visit :=
  r.text?.toList.map (⟨.scalar ·, none⟩) ++ r.written.flatMap EntryOf.survey

/-- What is inside a task or an include. -/
def TaskItem.survey : TaskItem → List Visit
  | .task t =>
    inPlace <|
      (t.entries.map fun entry => (entry.position, entry.survey)) ++
      (t.module?.toList.map fun m => (m.position, m.survey)) ++
      t.nested.map fun list =>
        (list.position, inRow none (list.items.map fun item => (item.part, item.survey)))
  | .inclusion i => i.survey
termination_by item => item
decreasing_by exact sizeOf_item_lt ‹_› ‹_›

def SectionItems.survey : SectionItems → List Visit
  | .tasks list => inRow none (list.map fun item => (item.part, item.survey))
  | .roles list => inRow none (list.map fun role => (.role role, role.survey))

/-- What is inside a top-level element. -/
def Block.survey : Block → List Visit
  | .play p =>
    inPlace <|
      (p.entries.map fun entry => (entry.position, entry.survey)) ++
      p.sections.map fun s => (s.position, s.items.survey)
  | .inclusion i => i.survey

end Playbook

open Playbook

/-- The playbook, then all that is in it. -/
def Playbook.survey (p : Playbook) : List Visit :=
  ⟨.document p, none⟩ :: inRow none (p.blocks.map fun block => (block.part, block.survey))

namespace Playbook

/-! ### Rows -/

@[simp] theorem inRow_nil (previous? : Option Part) : inRow previous? [] = [] := by simp [inRow]

@[simp] theorem inRow_cons (previous? : Option Part) (part : Part) (inside : List Visit)
    (rest : List (Part × List Visit)) :
    inRow previous? ((part, inside) :: rest) =
      ⟨part, previous?⟩ :: (inside ++ inRow (some part) rest) := by
  simp [inRow]

/-! ### Gathering parts -/

/-- What the elements of a list bring along, in no order. -/
def gather {α : Type} (list : List α) (f : α → Multiset Part) : Multiset Part := (list.map f).sum

section Gather

variable {α β : Type}

@[simp] theorem gather_nil (f : α → Multiset Part) : gather [] f = 0 := rfl

@[simp] theorem gather_cons (a : α) (rest : List α) (f : α → Multiset Part) :
    gather (a :: rest) f = f a + gather rest f := rfl

@[simp] theorem gather_append (a b : List α) (f : α → Multiset Part) :
    gather (a ++ b) f = gather a f + gather b f := by
  simp [gather]

@[simp] theorem gather_map (list : List α) (g : α → β) (f : β → Multiset Part) :
    gather (list.map g) f = gather list fun a => f (g a) := by
  simp [gather, Function.comp_def]

@[simp] theorem gather_flatMap (list : List α) (g : α → List β) (f : β → Multiset Part) :
    gather (list.flatMap g) f = gather list fun a => gather (g a) f := by
  induction list with
  | nil => rfl
  | cons a rest ih => rw [List.flatMap_cons, gather_append, ih, gather_cons]

@[simp] theorem gather_filterMap (list : List α) (g : α → Option β) (f : β → Multiset Part) :
    gather (list.filterMap g) f = gather list fun a => gather (g a).toList f := by
  rw [List.filterMap_eq_flatMap_toList, gather_flatMap]

@[simp] theorem gather_add (list : List α) (f g : α → Multiset Part) :
    (gather list fun a => f a + g a) = gather list f + gather list g := by
  induction list with
  | nil => rfl
  | cons a rest ih =>
    rw [gather_cons, ih, gather_cons, gather_cons, add_add_add_comm]

theorem gather_congr {list : List α} {f g : α → Multiset Part} (h : ∀ a ∈ list, f a = g a) :
    gather list f = gather list g := by
  rw [gather, gather, List.map_congr_left h]

theorem gather_perm {a b : List α} (h : a.Perm b) (f : α → Multiset Part) :
    gather a f = gather b f :=
  (h.map f).sum_eq

theorem gather_singleton (list : List α) (f : α → Part) :
    (gather list fun a => {f a}) = ((list.map f : List Part) : Multiset Part) := by
  induction list with
  | nil => rfl
  | cons a rest ih => rw [gather_cons, ih, List.map_cons, Multiset.singleton_add, Multiset.cons_coe]

end Gather

/-- The parts on a walk, in no order. -/
def partsOn (visits : List Visit) : Multiset Part := gather visits fun visit => {visit.part}

@[simp] theorem partsOn_cons (part : Part) (previous? : Option Part) (rest : List Visit) :
    partsOn (⟨part, previous?⟩ :: rest) = {part} + partsOn rest := rfl

@[simp] theorem partsOn_nil : partsOn [] = 0 := rfl

@[simp] theorem partsOn_append (a b : List Visit) : partsOn (a ++ b) = partsOn a + partsOn b :=
  gather_append a b _

@[simp] theorem partsOn_flatMap {α : Type} (list : List α) (f : α → List Visit) :
    partsOn (list.flatMap f) = gather list fun a => partsOn (f a) :=
  gather_flatMap list f _

theorem partsOn_inPlace (held : List (Position × List Visit)) :
    partsOn (inPlace held) = gather held fun h => partsOn h.2 := by
  rw [inPlace, partsOn_flatMap, gather_perm (List.mergeSort_perm _ _)]

theorem partsOn_inRow (previous? : Option Part) (elements : List (Part × List Visit)) :
    partsOn (inRow previous? elements) = gather elements fun e => {e.1} + partsOn e.2 := by
  induction elements generalizing previous? with
  | nil => simp
  | cons element rest ih =>
    obtain ⟨part, inside⟩ := element
    rw [inRow_cons, partsOn_cons, partsOn_append, ih, gather_cons, add_assoc]

/-! ### What a survey comes to -/

/-- The entries and scalars in a value. -/
def Value.gathered (v : Value) : Multiset Part :=
  (gather v.entries fun entry => {.entry entry}) + gather v.scalars fun s => {.scalar s}

/-- Entries with all in their values. -/
def gatheredEntries (entries : List Entry) : Multiset Part :=
  gather entries fun entry => {.entry entry} + entry.value.gathered

@[simp] theorem gatheredEntries_append (a b : List Entry) :
    gatheredEntries (a ++ b) = gatheredEntries a + gatheredEntries b :=
  gather_append a b _

@[simp] theorem gatheredEntries_flatMap {α : Type} (list : List α) (f : α → List Entry) :
    gatheredEntries (list.flatMap f) = gather list fun a => gatheredEntries (f a) :=
  gather_flatMap list f _

theorem Value.gathered_mapping (entries : List Entry) :
    (Value.mapping entries).gathered = gatheredEntries entries := by
  simp only [Value.gathered, Value.entries_mapping, Value.scalars_mapping, gather_append,
    gather_flatMap, gatheredEntries, gather_add, add_assoc]

theorem Value.gathered_sequence (items : List Value) :
    (Value.sequence items).gathered = gather items Value.gathered := by
  simp only [Value.gathered, Value.entries_sequence, Value.scalars_sequence, gather_flatMap,
    ← gather_add]
  rfl

theorem Value.partsOn_survey (v : Value) : partsOn v.survey = v.gathered := by
  induction v using Value.survey.induct with
  | case1 s => simp [Value.survey, Value.gathered]
  | case2 entries ih =>
    rw [Value.survey, partsOn_flatMap, Value.gathered_mapping, gatheredEntries]
    exact gather_congr fun entry hentry => by rw [partsOn_cons, ih entry hentry]
  | case3 items ih =>
    rw [Value.survey, partsOn_flatMap, Value.gathered_sequence]
    exact gather_congr ih
  | case4 => simp [Value.survey, Value.gathered]

theorem EntryOf.partsOn_survey (entry : Entry) :
    partsOn entry.survey = {.entry entry} + entry.value.gathered := by
  rw [EntryOf.survey, partsOn_cons, entry.value.partsOn_survey]

theorem partsOn_surveys (entries : List Entry) :
    (gather entries fun entry => partsOn entry.survey) = gatheredEntries entries :=
  gather_congr fun entry _ => entry.partsOn_survey

/-- A module call with all in its parameters. -/
def ModuleCall.gathered (m : ModuleCall) : Multiset Part := {.module m} + m.args.gathered

/-- What is inside an include. -/
def Include.gathered (i : Include) : Multiset Part :=
  {.scalar i.target} + gatheredEntries i.entries

/-- What is inside a role. -/
def Role.gathered (r : Role) : Multiset Part :=
  (gather r.text?.toList fun s => {.scalar s}) + gatheredEntries r.written

/-- What an element of a task list brings along, its nested lists left out. -/
def TaskItem.gathered (item : TaskItem) : Multiset Part :=
  {item.part} + (gather item.task?.toList fun t =>
    gatheredEntries t.entries + gather t.module?.toList ModuleCall.gathered) +
    gather item.inclusion?.toList Include.gathered

theorem ModuleCall.partsOn_survey (m : ModuleCall) : partsOn m.survey = m.gathered := by
  rw [ModuleCall.survey, partsOn_cons, m.args.partsOn_survey, ModuleCall.gathered]

theorem Include.partsOn_survey (i : Include) : partsOn i.survey = i.gathered := by
  rw [Include.survey, partsOn_cons, partsOn_flatMap, partsOn_surveys, Include.gathered]

theorem Role.partsOn_survey (r : Role) : partsOn r.survey = r.gathered := by
  rw [Role.survey, partsOn_append, partsOn_flatMap, partsOn_surveys, Role.gathered]
  exact congrArg (· + _) (gather_map _ _ _)

theorem TaskItem.partsOn_survey (item : TaskItem) :
    {item.part} + partsOn item.survey = gather item.within TaskItem.gathered := by
  induction item using TaskItem.induction with
  | inclusion i =>
    simp [TaskItem.survey, TaskItem.within, TaskItem.gathered, i.partsOn_survey, task?, inclusion?]
  | task t ih =>
    have hnested : ∀ list ∈ t.nested,
        (gather list.items fun item => {item.part} + partsOn item.survey) =
          gather (withinItems list.items) TaskItem.gathered := by
      intro list hlist
      rw [withinItems_eq_flatMap, gather_flatMap]
      exact gather_congr (ih list hlist)
    rw [TaskItem.survey, partsOn_inPlace, TaskItem.within, gather_cons, withinTask_eq_flatMap,
      gather_flatMap, ← gather_congr hnested]
    simp only [gather_append, gather_map, partsOn_surveys, partsOn_inRow, ModuleCall.partsOn_survey]
    simp [TaskItem.gathered, task?, inclusion?]

theorem SectionItems.partsOn_survey (s : SectionItems) :
    partsOn s.survey =
      gather s.items TaskItem.gathered + gather s.applied fun r => {.role r} + r.gathered := by
  cases s with
  | tasks list =>
    rw [survey, partsOn_inRow, gather_map, items, applied, gather_nil, add_zero,
      withinItems_eq_flatMap, gather_flatMap]
    exact gather_congr fun item _ => item.partsOn_survey
  | roles list =>
    rw [survey, partsOn_inRow, gather_map, items, applied, gather_nil, zero_add]
    exact gather_congr fun r _ => by rw [r.partsOn_survey]

theorem Block.partsOn_survey (block : Block) :
    partsOn block.survey =
      (gather block.play?.toList fun play => gatheredEntries play.entries +
        gather play.sections fun s => gather s.items.items TaskItem.gathered +
          gather s.items.applied fun r => {.role r} + r.gathered) +
      gather block.inclusion?.toList Include.gathered := by
  cases block with
  | play p =>
    rw [survey, partsOn_inPlace, gather_append, gather_map, gather_map, partsOn_surveys]
    simp [play?, inclusion?, SectionItems.partsOn_survey]
  | inclusion i => simp [survey, play?, inclusion?, i.partsOn_survey]

end Playbook

namespace Playbook

open Playbook

variable (p : Playbook)

theorem gather_includes (list : List Include) :
    gather list Include.gathered =
      (gather list fun i => {.scalar i.target}) + gather list fun i => gatheredEntries i.entries :=
  gather_add list _ _

/-- The elements of task lists, regrouped kind by kind. -/
theorem gather_items (list : List TaskItem) :
    gather list TaskItem.gathered =
      (gather list fun item => {item.part}) +
        (gather (list.filterMap TaskItem.task?) fun t => gatheredEntries t.entries) +
        gather ((list.filterMap TaskItem.task?).filterMap (·.module?)) ModuleCall.gathered +
        gather (list.filterMap TaskItem.inclusion?) Include.gathered := by
  have h : TaskItem.gathered = fun item => ({item.part} + gather item.task?.toList fun t =>
      gatheredEntries t.entries + gather t.module?.toList ModuleCall.gathered) +
        gather item.inclusion?.toList Include.gathered := rfl
  rw [h]
  simp only [gather_add, gather_filterMap]
  abel

/-- What is inside the blocks of a playbook, regrouped by the lists of its
inventory. -/
theorem gather_blocks :
    (gather p.blocks fun block => partsOn block.survey) =
      (gather p.items fun item => {item.part}) + (gather p.roles fun r => {.role r}) +
        (gatheredEntries p.outerEntries + gather p.calls ModuleCall.gathered) +
        (gather p.includes fun i => {.scalar i.target}) +
        gather (p.roles.filterMap Role.text?) fun s => {.scalar s} := by
  have hsections : (gather p.blocks fun block => partsOn block.survey) =
      (gather p.plays fun play => gatheredEntries play.entries) +
        gather p.items TaskItem.gathered + (gather p.roles fun r => {.role r} + r.gathered) +
        gather (p.blocks.filterMap Block.inclusion?) Include.gathered := by
    simp only [Block.partsOn_survey, Playbook.items, Playbook.roles, Playbook.sections,
      Playbook.plays, gather_add, gather_flatMap, gather_filterMap, gather_map]
    abel
  rw [hsections, gather_items, gather_includes, gather_includes]
  simp only [Role.gathered, Playbook.outerEntries, Playbook.calls, Playbook.includes,
    Playbook.tasks, gather_add, gather_append, gatheredEntries_append, gatheredEntries_flatMap,
    gather_filterMap]
  abel

/-- Outer entries and module calls with all in their values, regrouped kind by
kind. -/
theorem gather_outer :
    gatheredEntries p.outerEntries + gather p.calls ModuleCall.gathered =
      (gather p.calls fun m => {.module m}) + (gather p.entries fun entry => {.entry entry}) +
        gather (p.outerValues.flatMap Value.scalars) fun s => {.scalar s} := by
  have hcalls : gather p.calls ModuleCall.gathered =
      (gather p.calls fun m => {.module m}) + gather p.calls fun m => m.args.gathered :=
    gather_add _ _ _
  rw [hcalls]
  simp only [gatheredEntries, Value.gathered, Playbook.entries, Playbook.outerValues, gather_add,
    gather_append, gather_flatMap, gather_map]
  abel

/-- The survey has every part of the inventory, and no other, each once. -/
theorem survey_perm_parts : (p.survey.map Visit.part).Perm p.parts := by
  have hsurvey : partsOn p.survey = {.document p} + ((gather p.blocks fun b => {b.part}) +
      gather p.blocks fun block => partsOn block.survey) := by
    rw [survey, partsOn_cons, partsOn_inRow, gather_map, gather_add]
  rw [← Multiset.coe_eq_coe, ← gather_singleton, ← partsOn, hsurvey, gather_blocks, gather_outer,
    parts, ← Multiset.cons_coe]
  simp only [← Multiset.coe_add, ← gather_singleton, Playbook.scalars, gather_append, gather_map,
    ← Multiset.singleton_add]
  abel

end Playbook

end PlaybookStyle
