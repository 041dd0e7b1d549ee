/-
Playbooks: plays, sections, tasks, includes and roles.

A document lists its blocks in source order. Every part knows its position, its
last line and the blank lines before it. Tasks nest through `block`, `rescue`
and `always`; a task list is therefore a list of `TaskItem`, and `Task` is the
structure of one task over the items of its nested lists.
-/

import PlaybookStyle.Playbook.Scalar
import PlaybookStyle.Source.Lines

namespace PlaybookStyle.Playbook

/-! ### Values and entries -/

/-- A key with its value. -/
structure EntryOf (α : Type) where
  key : String
  position : Position
  spacing : KeySpacing
  value : α
  endLine : Nat
  /-- The key is the name of a variable that is set. -/
  assigns : Bool
deriving Repr, Inhabited

inductive Value where
  | scalar (scalar : Scalar)
  | mapping (entries : List (EntryOf Value))
  | sequence (items : List Value)
  | null
deriving Repr, Inhabited

abbrev Entry : Type := EntryOf Value

namespace Value

def scalar? : Value → Option Scalar
  | scalar s => some s
  | _ => none

def mapping? : Value → Option (List Entry)
  | mapping entries => some entries
  | _ => none

end Value

/-! ### Tasks -/

/-- The call of a module. -/
structure ModuleCall where
  name : String
  position : Position
  spacing : KeySpacing
  /-- The parameters as a mapping, a text, or nothing. -/
  args : Value
  endLine : Nat
deriving Repr, Inhabited

/-- The parameters given as a block mapping. -/
def ModuleCall.params? (m : ModuleCall) : Option (List Entry) := m.args.mapping?

/-- The parameters given as one text. -/
def ModuleCall.inline? (m : ModuleCall) : Option Scalar := m.args.scalar?

/-- The place of a task field in the preferred order. -/
inductive TaskFieldKind where
  | name
  | vars
  | module
  | loop
  | option
deriving DecidableEq, Repr, Inhabited

namespace TaskFieldKind

def rank : TaskFieldKind → Nat
  | name => 0
  | vars => 1
  | module => 2
  | loop => 3
  | option => 4

def label : TaskFieldKind → String
  | name => "Name"
  | vars => "Vars"
  | module => "Module"
  | loop => "Loop"
  | option => "Option"

end TaskFieldKind

/-- A key of a task or play, with its kind. -/
structure Field (κ : Type) where
  kind : κ
  key : String
  position : Position
deriving Repr, Inhabited

/-- A statement that includes another file. -/
structure Include where
  /-- The dash of the list item. -/
  position : Position
  endLine : Nat
  blankLinesBefore : Nat
  keyword : String
  keywordPosition : Position
  spacing : KeySpacing
  target : Scalar
  /-- All other entries. -/
  entries : List Entry
deriving Repr, Inhabited

namespace Include

def isMultiline (i : Include) : Bool := i.position.line < i.endLine

/-- The variables passed on. -/
def vars? (i : Include) : Option Entry := i.entries.find? (·.key == "vars")

end Include

/-- A nested task list of a task. -/
structure NestedOf (α : Type) where
  key : String
  position : Position
  items : List α
deriving Repr, Inhabited

structure TaskOf (α : Type) where
  /-- The dash of the list item. -/
  position : Position
  endLine : Nat
  blankLinesBefore : Nat
  name? : Option Scalar
  module? : Option ModuleCall
  /-- All keys in source order. -/
  fields : List (Field TaskFieldKind)
  /-- The entries that are neither the module nor a nested list. -/
  entries : List Entry
  nested : List (NestedOf α)
deriving Repr, Inhabited

/-- An element of a task list. -/
inductive TaskItem where
  | task (task : TaskOf TaskItem)
  | inclusion (statement : Include)
deriving Repr

instance : Inhabited TaskItem := ⟨.inclusion default⟩

abbrev Task : Type := TaskOf TaskItem

abbrev Nested : Type := NestedOf TaskItem

namespace TaskOf

variable {α : Type}

def entryOf? (t : TaskOf α) (key : String) : Option Entry := t.entries.find? (·.key == key)

/-- The name of a task in messages. -/
def displayName (t : TaskOf α) : String :=
  match t.name?, t.module? with
  | some name, _ => name.text
  | none, some m => m.name
  | none, none => "unnamed task"

end TaskOf

/-! ### Roles -/

/-- How a role is written. -/
inductive RoleForm where
  | bare
  | mapping
  | flow
deriving DecidableEq, Repr, Inhabited

def RoleForm.label : RoleForm → String
  | bare => "Bare"
  | mapping => "Mapping"
  | flow => "Flow"

/-- A role that a play applies. -/
structure Role where
  position : Position
  endLine : Nat
  blankLinesBefore : Nat
  name? : Option Scalar
  form : RoleForm
  /-- The entries of a block mapping, the name among them. -/
  entries : List Entry
  /-- The text of a flow mapping. -/
  flow? : Option Scalar
deriving Repr, Inhabited

/-! ### Plays -/

/-- The place of a play's key in the preferred order. -/
inductive PlayFieldKind where
  | declaration
  | option
  | preTasks
  | roles
  | tasks
  | postTasks
  | handlers
deriving DecidableEq, Repr, Inhabited

namespace PlayFieldKind

def rank : PlayFieldKind → Nat
  | declaration => 0
  | option => 1
  | preTasks => 2
  | roles => 3
  | tasks => 4
  | postTasks => 5
  | handlers => 6

def name : PlayFieldKind → String
  | declaration => "host declaration"
  | option => "host options"
  | preTasks => "pre_tasks"
  | roles => "roles"
  | tasks => "tasks"
  | postTasks => "post_tasks"
  | handlers => "handlers"

/-- The kind of a play's key. -/
def ofKey (key : String) : PlayFieldKind :=
  match key with
  | "hosts" | "name" => declaration
  | "pre_tasks" => preTasks
  | "roles" => roles
  | "tasks" => tasks
  | "post_tasks" => postTasks
  | "handlers" => handlers
  | _ => option

end PlayFieldKind

/-- What a section of a play lists. -/
inductive SectionItems where
  | tasks (items : List TaskItem)
  | roles (roles : List Role)
deriving Repr

instance : Inhabited SectionItems := ⟨.roles []⟩

structure PlaySection where
  kind : PlayFieldKind
  position : Position
  items : SectionItems
deriving Repr, Inhabited

/-- A play: a block with hosts. -/
structure Play where
  /-- The dash of the list item. -/
  position : Position
  endLine : Nat
  blankLinesBefore : Nat
  name? : Option Scalar
  hosts? : Option Scalar
  /-- All keys in source order. -/
  fields : List (Field PlayFieldKind)
  /-- Declarations and options. -/
  entries : List Entry
  sections : List PlaySection
deriving Repr, Inhabited

def Play.entryOf? (p : Play) (key : String) : Option Entry := p.entries.find? (·.key == key)

/-! ### Counting tasks -/

mutual

/-- The tasks and includes of a list, nested lists included. -/
def countItems : List TaskItem → Nat
  | [] => 0
  | item :: rest => countItem item + countItems rest

def countItem : TaskItem → Nat
  | .task t => 1 + countTask t
  | .inclusion _ => 1

def countTask : TaskOf TaskItem → Nat
  | ⟨_, _, _, _, _, _, _, nested⟩ => countNested nested

def countNested : List (NestedOf TaskItem) → Nat
  | [] => 0
  | list :: rest => countList list + countNested rest

def countList : NestedOf TaskItem → Nat
  | ⟨_, _, items⟩ => countItems items

end

def PlaySection.taskCount (s : PlaySection) : Nat :=
  match s.items with
  | .tasks items => countItems items
  | .roles _ => 0

/-- The tasks and includes of a play. -/
def Play.taskCount (p : Play) : Nat :=
  p.sections.foldl (fun count s => count + s.taskCount) 0

/-! ### Documents -/

/-- A top-level element of a playbook. -/
inductive Block where
  | play (play : Play)
  | inclusion (statement : Include)
deriving Repr

instance : Inhabited Block := ⟨.play default⟩

def Block.play? : Block → Option Play
  | play p => some p
  | inclusion _ => none

end Playbook

open Playbook

/-- A playbook file. -/
structure Playbook where
  path : String
  blocks : List Block
  source : SourceLines
  /-- Lines whose indentation belongs to a scalar. -/
  verbatim : List LineRange
  /-- The file is encrypted, so that nothing in it was read. -/
  encrypted : Bool
deriving Repr, Inhabited

namespace Playbook

/-- The stand-in for an encrypted file. -/
def ofEncrypted (path : String) : Playbook := ⟨path, [], .empty, [], true⟩

def isVerbatim (p : Playbook) (line : Nat) : Bool := p.verbatim.any (·.contains line)

def plays (p : Playbook) : List Play := p.blocks.filterMap Block.play?

def playCount (p : Playbook) : Nat := p.plays.length

def taskCount (p : Playbook) : Nat := p.plays.foldl (fun count play => count + play.taskCount) 0

end Playbook

end PlaybookStyle
