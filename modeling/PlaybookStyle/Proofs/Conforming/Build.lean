/-
The playbook of a conforming text.

From the outline a play is built whose only section lists a task for each step.
`visits_playbook` says what the walk meets: the playbook and the play, the hosts,
and then for each step its task, its name, its module and its parameters.
-/

import PlaybookStyle.Proofs.Conforming.Reading
import PlaybookStyle.Proofs.Playbook.Places

namespace PlaybookStyle.Conforming

open Text Outline Playbook

/-! ### Steps -/

/-- The entry of a step's name. -/
def Step.titlePart (number : Nat) (s : Step) : Playbook.Entry := optionEntry (s.titleEntry number)

/-- The value of a parameter on a line. -/
def Parameter.scalar (number : Nat) (m : Module) (p : Parameter) : Playbook.Scalar :=
  .ofOutline (p.found.scalarAt ⟨number, 8 + byteLength p.name.toList + 3⟩) (some p.name)
    ⟨.moduleParam, some m.name, false⟩

def Parameter.part (number : Nat) (m : Module) (p : Parameter) : Playbook.Entry :=
  ⟨p.name, ⟨number, 9⟩, spaced, .scalar (p.scalar number m), number, false⟩

/-- The parameters of a module, one on each line. -/
def partsFrom (number : Nat) (m : Module) : List Parameter → List Playbook.Entry
  | [] => []
  | p :: rest => p.part number m :: partsFrom (number + 1) m rest

def Step.call (number : Nat) (s : Step) : ModuleCall where
  name := s.module.name
  position := ⟨number + 1, 7⟩
  spacing := unspaced
  args := .mapping (partsFrom (number + 2) s.module s.parameters)
  endLine := number + 1 + s.parameters.length

def Step.task (source : SourceLines) (number : Nat) (s : Step) : Task where
  position := ⟨number, 5⟩
  endLine := number + 1 + s.parameters.length
  blankLinesBefore := source.blankLinesBefore number
  name? := (s.titlePart number).value.scalar?
  module? := some (s.call number)
  fields := [⟨.name, "name", ⟨number, 7⟩⟩, ⟨.module, s.module.name, ⟨number + 1, 7⟩⟩]
  entries := [s.titlePart number]
  nested := []

/-- What the modules of steps are not. -/
theorem Module.plain (m : Module) :
    taskIncludes.contains m.name = false ∧ taskFieldKind false m.name = .module ∧
      nestedKeys.contains m.name = false ∧ ("name" == m.name) = false := by
  cases m <;> decide

theorem Step.titlePart_key (number : Nat) (s : Step) : (s.titlePart number).key = "name" := rfl

theorem Step.moduleEntry_key (number : Nat) (s : Step) :
    (s.moduleEntry number).key = s.module.name := String.ofList_toList

theorem entriesOf_parameterEntries (number : Nat) (m : Module) (ps : List Parameter) :
    entriesOf ⟨.moduleParam, some m.name, false⟩ false (parameterEntries number ps) =
      partsFrom number m ps := by
  induction ps generalizing number with
  | nil => rfl
  | cons p rest ih =>
    have hentry : entryOf ⟨.moduleParam, some m.name, false⟩ false (p.entry number) =
        p.part number m := by
      simp [Parameter.entry, tokenEntry, entryOf, Value.ofNode, Parameter.part, Parameter.scalar]
    rw [parameterEntries, entriesOf, hentry, ih, partsFrom]

theorem Step.ofEntry_moduleEntry (number : Nat) (s : Step) :
    ModuleCall.ofEntry (s.moduleEntry number) = s.call number := by
  have hkey : String.ofList s.module.name.toList = s.module.name := String.ofList_toList
  have hscope : Scope.ofModule s.module.name = ⟨.moduleParam, some s.module.name, false⟩ := by
    cases s.module <;> rfl
  have hentries := entriesOf_parameterEntries (number + 2) s.module s.parameters
  simp only [ModuleCall.ofEntry, Step.moduleEntry, hkey, hscope, Value.ofNode, Scope.nested,
    hentries, Step.call]

/-- A step includes no file. -/
theorem Step.ofItem?_item (source : SourceLines) (number : Nat) (s : Step) :
    Include.ofItem? source taskIncludes (s.item number) = none := by
  have htitle : isTarget taskIncludes (s.titleEntry number) = false := by
    rw [isTarget, show taskIncludes.contains (s.titleEntry number).key = false from rfl,
      Bool.false_and]
  have hmodule : isTarget taskIncludes (s.moduleEntry number) = false := by
    rw [isTarget, s.moduleEntry_key, s.module.plain.1, Bool.false_and]
  have hfind : [s.titleEntry number, s.moduleEntry number].find? (isTarget taskIncludes) = none := by
    simp [htitle, hmodule]
  have hentries : (s.item number).value.entries? =
      some [s.titleEntry number, s.moduleEntry number] := rfl
  simp only [Include.ofItem?, hentries, hfind, Option.bind_eq_bind, Option.bind_some,
    Option.bind_none]

theorem Step.taskParts_entries (source : SourceLines) (number : Nat) (s : Step) :
    taskParts source false [s.titleEntry number, s.moduleEntry number] =
      [(⟨.name, "name", ⟨number, 7⟩⟩, .entry (s.titlePart number)),
        (⟨.module, s.module.name, ⟨number + 1, 7⟩⟩, .module (s.call number))] := by
  obtain ⟨-, hkind, hnested, -⟩ := s.module.plain
  have htitle : taskPart source false (s.titleEntry number) =
      (⟨.name, "name", ⟨number, 7⟩⟩, .entry (s.titlePart number)) := rfl
  have hmodule : taskPart source false (s.moduleEntry number) =
      (⟨.module, s.module.name, ⟨number + 1, 7⟩⟩, .module (s.call number)) := by
    have hkey : String.ofList s.module.name.toList = s.module.name := String.ofList_toList
    rw [← s.ofEntry_moduleEntry]
    simp only [Step.moduleEntry, taskPart, hkey, hkind, hnested, if_true, Bool.false_eq_true,
      if_false]
  simp only [taskParts, htitle, TaskPart.module?, Option.isSome_none, Bool.or_false, hmodule]

/-- A step is a task. -/
theorem Step.taskItem?_item (source : SourceLines) (number : Nat) (s : Step) :
    taskItem? source (s.item number) = some (.task (s.task source number)) := by
  have hentries : (s.item number).value.entries? =
      some [s.titleEntry number, s.moduleEntry number] := rfl
  rw [taskItem?_eq, s.ofItem?_item, hentries]
  dsimp only
  rw [Option.map_some, s.taskParts_entries]
  rfl

/-- The tasks of steps, the first of which starts on a line. -/
def tasksFrom (source : SourceLines) (number : Nat) : List Step → List TaskItem
  | [] => []
  | s :: rest =>
    .task (s.task source number) :: tasksFrom source (number + s.parameters.length + 3) rest

theorem taskItemsOf_stepItems (source : SourceLines) (number : Nat) (steps : List Step) :
    taskItemsOf source (stepItems number steps) = tasksFrom source number steps := by
  induction steps generalizing number with
  | nil => rfl
  | cons s rest ih => rw [stepItems, taskItemsOf, s.taskItem?_item, tasksFrom, ih]

/-! ### The play -/

def hostsPart : Playbook.Entry := entryOf (playScope "hosts") false hostsEntry

def play (source : SourceLines) (steps : List Step) : Play where
  position := ⟨1, 1⟩
  endLine := (sourceLines steps).length
  blankLinesBefore := source.blankLinesBefore 1
  name? := none
  hosts? := hostsPart.value.scalar?
  fields := [⟨.declaration, "hosts", ⟨1, 3⟩⟩, ⟨.tasks, "tasks", ⟨2, 3⟩⟩]
  entries := [hostsPart]
  sections := [⟨.tasks, ⟨2, 3⟩, .tasks (tasksFrom source 3 steps)⟩]

theorem ofItem_playItem (source : SourceLines) (steps : List Step) :
    Play.ofItem source (playItem steps) = play source steps := by
  rw [play, ← taskItemsOf_stepItems]
  rfl

/-- Read as a list of one play, the text of steps is the playbook of this play. -/
def playbook (path : String) (steps : List Step) : Playbook where
  path := path
  blocks := [.play (play (.ofText (text steps).toList) steps)]
  source := .ofText (text steps).toList
  verbatim := []
  encrypted := false

theorem build_text {steps : List Step} (hne : steps ≠ []) (path : String) {value : Yaml.Value}
    (hmapping : value.isMapping = true) (hhosts : (value.get? "hosts").isSome = true) :
    Playbook.build path (text steps).toList (.sequence [value]) = .ok (playbook path steps) := by
  have hblock : Block.ofItem (.ofText (text steps).toList) value (playItem steps) =
      .ok (.play (play (.ofText (text steps).toList) steps)) := by
    rw [Block.ofItem, hmapping, hhosts, ofItem_playItem]
    rfl
  have hroot : (Outline.scan (text steps).toList).root = .sequence ⟨1, 1⟩ [playItem steps] := by
    rw [scan_text hne, outline]
  have hverbatim : (Outline.scan (text steps).toList).verbatim = [] := by rw [scan_text hne]
  unfold Playbook.build
  dsimp only
  rw [hroot, hverbatim]
  dsimp only
  rw [blocksOf, hblock]
  rfl

/-- A text that starts with a dash is not encrypted. -/
theorem isEncryptedContent_text (steps : List Step) : isEncryptedContent (text steps) = false := by
  have hstart : ∃ rest, (text steps).toList = '-' :: rest := by
    rw [toList_text]
    exact ⟨_, rfl⟩
  obtain ⟨rest, hstart⟩ := hstart
  rw [isEncryptedContent, hstart, trimStart_of_not_isBlank (by decide)]
  rfl

/-- YAML takes a text for a list of one mapping that has hosts. -/
def ReadsAsPlay (text : String) : Prop :=
  ∃ value, Yaml.Value.read text = .ok (.sequence [value]) ∧ value.isMapping = true ∧
    (value.get? "hosts").isSome = true

/-- A list of one mapping that has hosts. -/
def isPlayList : Yaml.Value → Bool
  | .sequence [value] => value.isMapping && (value.get? "hosts").isSome
  | _ => false

theorem readsAsPlay_iff {text : String} :
    ReadsAsPlay text ↔ (Yaml.Value.read text).toOption.any isPlayList = true := by
  constructor
  · rintro ⟨value, hread, h⟩
    rw [hread]
    exact Bool.and_eq_true_iff.mpr h
  · intro h
    cases hread : Yaml.Value.read text with
    | error failure =>
      rw [hread] at h
      cases h
    | ok found =>
      rw [hread] at h
      replace h : isPlayList found = true := h
      unfold isPlayList at h
      split at h
      · rename_i value
        exact ⟨value, hread, Bool.and_eq_true_iff.mp h⟩
      · cases h

instance (text : String) : Decidable (ReadsAsPlay text) := decidable_of_iff _ readsAsPlay_iff.symm

theorem load_text {steps : List Step} (hne : steps ≠ []) (hyaml : ReadsAsPlay (text steps))
    (path : String) : Playbook.load path (text steps) = .ok (playbook path steps) := by
  obtain ⟨value, hread, hmapping, hhosts⟩ := hyaml
  rw [Playbook.load, isEncryptedContent_text, if_neg Bool.false_ne_true, Playbook.parse, hread]
  dsimp only
  rw [build_text hne path hmapping hhosts]

/-! ### Counting -/

theorem countItems_tasksFrom (source : SourceLines) (number : Nat) (steps : List Step) :
    countItems (tasksFrom source number steps) = steps.length := by
  induction steps generalizing number with
  | nil => rfl
  | cons s rest ih =>
    have hstep : countItem (.task (s.task source number)) = 1 := by
      rw [countItem, Step.task, countTask, countNested]
    rw [tasksFrom, countItems, hstep, ih, List.length_cons, Nat.add_comm]

theorem taskCount_playbook (path : String) (steps : List Step) :
    (playbook path steps).taskCount = steps.length := by
  have hcount := countItems_tasksFrom (.ofText (text steps).toList) 3 steps
  simpa [Playbook.taskCount, Playbook.plays, playbook, Block.play?, Play.taskCount, play,
    PlaySection.taskCount] using hcount

/-! ### The walk -/

/-- What is inside the task of a step. -/
def Step.inside (number : Nat) (s : Step) : List Visit :=
  visitsOfEntry (s.titlePart number) ++ (s.call number).visits

theorem Step.visitsOfItem_task (source : SourceLines) (number : Nat) (s : Step) :
    visitsOfItem (.task (s.task source number)) = s.inside number := by
  obtain ⟨-, -, -, hname⟩ := s.module.plain
  have htitle : (s.task source number).visitsOfField [] ⟨.name, "name", ⟨number, 7⟩⟩ =
      visitsOfEntry (s.titlePart number) := rfl
  have hmodule : (s.task source number).visitsOfField []
      ⟨.module, s.module.name, ⟨number + 1, 7⟩⟩ = (s.call number).visits := by
    have hentry : (s.task source number).entryOf? s.module.name = none := by
      simp [TaskOf.entryOf?, Step.task, s.titlePart_key, hname]
    rw [TaskOf.visitsOfField, hentry]
    simp [Step.task, Step.call, Option.filter]
  have hfields : (s.task source number).fields =
      [⟨.name, "name", ⟨number, 7⟩⟩, ⟨.module, s.module.name, ⟨number + 1, 7⟩⟩] := rfl
  have hnested : visitsOfNested (s.task source number).nested = [] := by
    rw [Step.task, visitsOfNested]
  rw [visitsOfItem, visitsOfTask_eq, hfields, hnested, List.flatMap_cons, List.flatMap_cons,
    List.flatMap_nil, List.append_nil, htitle, hmodule, Step.inside]

theorem visits_play (source : SourceLines) (steps : List Step) :
    (play source steps).visits =
      visitsOfEntry hostsPart ++ visitsOfItems none (tasksFrom source 3 steps) := by
  have hhosts : (play source steps).visitsOfField ⟨.declaration, "hosts", ⟨1, 3⟩⟩ =
      visitsOfEntry hostsPart := rfl
  have htasks : (play source steps).visitsOfField ⟨.tasks, "tasks", ⟨2, 3⟩⟩ =
      visitsOfItems none (tasksFrom source 3 steps) := by
    have hentry : (play source steps).entryOf? "tasks" = none := rfl
    rw [Play.visitsOfField, hentry]
    simp [play, SectionItems.visits]
  have hfields : (play source steps).fields =
      [⟨.declaration, "hosts", ⟨1, 3⟩⟩, ⟨.tasks, "tasks", ⟨2, 3⟩⟩] := rfl
  rw [Play.visits, hfields, List.flatMap_cons, List.flatMap_cons, List.flatMap_nil,
    List.append_nil, hhosts, htasks]

/-- The walk meets the playbook, the play, the hosts and the tasks. -/
theorem visits_playbook (path : String) (steps : List Step) :
    (playbook path steps).visits =
      .alone (.document (playbook path steps)) ::
        .alone (.play (play (.ofText (text steps).toList) steps)) ::
          (visitsOfEntry hostsPart ++
            visitsOfItems none (tasksFrom (.ofText (text steps).toList) 3 steps)) := by
  have hblocks : (playbook path steps).blocks =
      [.play (play (.ofText (text steps).toList) steps)] := rfl
  rw [Playbook.visits, hblocks, visitsOfBlocks, visitsOfBlocks, List.append_nil, Block.visits,
    visits_play]
  rfl

end PlaybookStyle.Conforming
