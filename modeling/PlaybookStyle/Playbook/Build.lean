/-
From the outline of a text to a playbook.

The value of the text says whether it has the shape of a playbook; everything
else is taken from the outline. A `Scope` tells what the scalars below a node
are for: their role, the module they belong to, and whether the keys directly
below name variables.
-/

import PlaybookStyle.Outline.Scan
import PlaybookStyle.Playbook.Basic
import PlaybookStyle.Playbook.Kind

namespace PlaybookStyle.Playbook

/-! ### Scopes -/

/-- What the scalars below a node are for. -/
structure Scope where
  context : Context
  module? : Option String
  /-- The keys of a mapping name variables. -/
  assigns : Bool
deriving DecidableEq, Repr, Inhabited

namespace Scope

def of (context : Context) : Scope := ⟨context, none, false⟩

/-- The parameters of a module; those of `set_fact` are variables. -/
def ofModule (name : String) : Scope :=
  ⟨.moduleParam, some name, shortModuleName name == "set_fact"⟩

def ofVariables : Scope := ⟨.variableValue, none, true⟩

/-- The scope one level deeper. -/
def nested (s : Scope) : Scope := { s with assigns := false }

end Scope

/-! ### Values -/

def Scalar.ofOutline (s : Outline.Scalar) (key? : Option String) (scope : Scope) : Scalar where
  raw := s.raw
  text := s.text
  style := s.style
  kind := kindOf s.style s.text key? scope.context scope.module?
  context := scope.context
  key? := key?
  module? := scope.module?
  position := s.position
  endLine := s.endLine

mutual

def Value.ofNode (key? : Option String) (scope : Scope) : Outline.Node → Value
  | .scalar s => .scalar (Scalar.ofOutline s key? scope)
  | .mapping _ entries => .mapping (entriesOf scope.nested scope.assigns entries)
  | .sequence _ items => .sequence (itemsOf key? scope.nested items)
  | .empty => .null

def entriesOf (scope : Scope) (assigns : Bool) : List (Outline.Entry Outline.Node) → List Entry
  | [] => []
  | entry :: rest => entryOf scope assigns entry :: entriesOf scope assigns rest

def entryOf (scope : Scope) (assigns : Bool) : Outline.Entry Outline.Node → Entry
  | ⟨key, position, spacing, value, endLine⟩ =>
    ⟨key, position, spacing, Value.ofNode (some key) scope value, endLine, assigns⟩

def itemsOf (key? : Option String) (scope : Scope) : List (Outline.Item Outline.Node) → List Value
  | [] => []
  | item :: rest => itemOf key? scope item :: itemsOf key? scope rest

def itemOf (key? : Option String) (scope : Scope) : Outline.Item Outline.Node → Value
  | ⟨_, value, _⟩ => Value.ofNode key? scope value

end

/-! ### Entries of tasks and includes -/

/-- The scope of a task's or an include's option. -/
def optionScope (key : String) : Scope :=
  if key == "name" then .of .name
  else if key == "vars" then .ofVariables
  else if key == "register" then .of .registered
  else if conditionalKeys.contains key then .of .condition
  else if isLoopKey key then .of .loop
  else .of .taskOption

/-- An option of a task or an include. -/
def optionEntry (entry : Outline.Entry Outline.Node) : Entry :=
  entryOf (optionScope entry.key) false entry

/-- The call of a module by its entry. -/
def ModuleCall.ofEntry (entry : Outline.Entry Outline.Node) : ModuleCall where
  name := entry.key
  position := entry.position
  spacing := entry.spacing
  args := match entry.value with
    | .scalar s => .scalar (Scalar.ofOutline s (some entry.key) (.of .inlineArgs))
    | node => Value.ofNode (some entry.key) (.ofModule entry.key) node
  endLine := entry.endLine

/-! ### Includes -/

/-- The entry names an included file under one of some keys. -/
def isTarget (keywords : List String) (entry : Outline.Entry Outline.Node) : Bool :=
  keywords.contains entry.key && entry.value.scalar?.isSome

/-- A list item as an include statement: its first entry that names a file is
the target, all others are options. -/
def Include.ofItem? (source : SourceLines) (keywords : List String)
    (item : Outline.Item Outline.Node) : Option Include := do
  let entries ← item.value.entries?
  let found ← entries.find? (isTarget keywords)
  let target ← found.value.scalar?
  return {
    position := item.position
    endLine := item.endLine
    blankLinesBefore := source.blankLinesBefore item.position.line
    keyword := found.key
    keywordPosition := found.position
    spacing := found.spacing
    target := Scalar.ofOutline target (some found.key) (.of .includeTarget)
    entries := (entries.eraseP (isTarget keywords)).map optionEntry }

/-! ### Tasks -/

/-- The kind of a task's key, given whether the module was already found. -/
def taskFieldKind (found : Bool) (key : String) : TaskFieldKind :=
  if key == "name" then .name
  else if key == "vars" then .vars
  else if nestedKeys.contains key then .module
  else if isLoopKey key then .loop
  else if taskKeywords.contains key then .option
  else if found then .option
  else .module

/-- What an entry contributes to a task besides its field. -/
inductive TaskPart where
  | module (call : ModuleCall)
  | nested (list : Nested)
  | entry (entry : Entry)

namespace TaskPart

def module? : TaskPart → Option ModuleCall
  | module call => some call
  | _ => none

def nested? : TaskPart → Option Nested
  | nested list => some list
  | _ => none

def entryOf? : TaskPart → Option Entry
  | entry e => some e
  | _ => none

end TaskPart

/-- The task that some fields and parts make up. -/
def TaskOf.ofParts (source : SourceLines) (position : Position) (endLine : Nat)
    (parts : List (Field TaskFieldKind × TaskPart)) : Task :=
  let entries := parts.filterMap fun p => p.2.entryOf?
  { position := position
    endLine := endLine
    blankLinesBefore := source.blankLinesBefore position.line
    name? := ((entries.filter (·.key == "name")).getLast?).bind (·.value.scalar?)
    module? := parts.findSome? fun p => p.2.module?
    fields := parts.map Prod.fst
    entries := entries
    nested := parts.filterMap fun p => p.2.nested? }

mutual

/-- The tasks and includes of a node; only a sequence has any. -/
def taskItems (source : SourceLines) : Outline.Node → List TaskItem
  | .sequence _ items => taskItemsOf source items
  | .mapping _ _ | .scalar _ | .empty => []

def taskItemsOf (source : SourceLines) : List (Outline.Item Outline.Node) → List TaskItem
  | [] => []
  | item :: rest =>
    match taskItem? source item with
    | some found => found :: taskItemsOf source rest
    | none => taskItemsOf source rest

/-- A list item as an include or a task; an item that is no mapping is neither. -/
def taskItem? (source : SourceLines) : Outline.Item Outline.Node → Option TaskItem
  | ⟨position, value, endLine⟩ =>
    match Include.ofItem? source taskIncludes ⟨position, value, endLine⟩ with
    | some statement => some (.inclusion statement)
    | none =>
      match value with
      | .mapping _ entries =>
        some (.task (TaskOf.ofParts source position endLine (taskParts source false entries)))
      | .sequence _ _ | .scalar _ | .empty => none

/-- Fields and parts of a task's entries; `found` says that its module was met. -/
def taskParts (source : SourceLines) (found : Bool) :
    List (Outline.Entry Outline.Node) → List (Field TaskFieldKind × TaskPart)
  | [] => []
  | entry :: rest =>
    let part := taskPart source found entry
    part :: taskParts source (found || part.2.module?.isSome) rest

def taskPart (source : SourceLines) (found : Bool) :
    Outline.Entry Outline.Node → Field TaskFieldKind × TaskPart
  | ⟨key, position, spacing, value, endLine⟩ =>
    let kind := taskFieldKind found key
    (⟨kind, key, position⟩,
      if kind = .module then
        if nestedKeys.contains key then .nested ⟨key, position, taskItems source value⟩
        else .module (.ofEntry ⟨key, position, spacing, value, endLine⟩)
      else .entry (optionEntry ⟨key, position, spacing, value, endLine⟩))

end

/-! ### Roles -/

/-- The name of a role given in braces. -/
def flowRoleName? (s : Outline.Scalar) : Option Scalar :=
  match Yaml.Value.read s.raw with
  | .error _ => none
  | .ok value =>
    (((value.get? "role").or (value.get? "name")).bind Yaml.Value.text?).map fun name =>
      { raw := name
        text := name
        style := .unquoted
        kind := .string
        context := .roleName
        key? := some "role"
        module? := none
        position := s.position
        endLine := s.endLine }

/-- The keys that name a role. -/
def roleNameKeys : List String := ["role", "name"]

/-- An entry of a role: what is no keyword passes a variable. -/
def roleEntry (entry : Outline.Entry Outline.Node) : Entry :=
  let key := entry.key
  if roleNameKeys.contains key then entryOf (.of .roleName) false entry
  else if key == "vars" then entryOf .ofVariables false entry
  else if conditionalKeys.contains key then entryOf (.of .condition) false entry
  else if roleKeywords.contains key then entryOf (.of .taskOption) false entry
  else entryOf (.of .variableValue) true entry

/-- A list item as a role. -/
def Role.ofItem? (source : SourceLines) (item : Outline.Item Outline.Node) : Option Role :=
  let role (form : RoleForm) (name? : Option Scalar) (entries : List Entry)
      (flow? : Option Scalar) : Role :=
    { position := item.position
      endLine := item.endLine
      blankLinesBefore := source.blankLinesBefore item.position.line
      name? := name?
      form := form
      entries := entries
      flow? := flow? }
  match item.value with
  | .scalar s =>
    if s.style = .flow then
      some (role .flow (flowRoleName? s) [] (some (Scalar.ofOutline s none (.of .inlineArgs))))
    else some (role .bare (some (Scalar.ofOutline s none (.of .roleName))) [] none)
  | .mapping _ entries =>
    let entries := entries.map roleEntry
    let name? := entries.findSome? fun e =>
      if roleNameKeys.contains e.key then e.value.scalar? else none
    some (role .mapping name? entries none)
  | .sequence _ _ | .empty => none

/-- The roles of a node; only a sequence has any. -/
def rolesOf (source : SourceLines) : Outline.Node → List Role
  | .sequence _ items => items.filterMap (Role.ofItem? source)
  | _ => []

/-! ### Plays -/

/-- The scope of a play's declaration or option. -/
def playScope (key : String) : Scope :=
  if key == "hosts" then .of .hostTarget
  else if key == "name" then .of .name
  else if key == "vars" then .ofVariables
  else if key == "vars_files" then .of .fileReference
  else if conditionalKeys.contains key then .of .condition
  else .of .hostOption

/-- The entry of a play's key that opens no section. -/
def playEntry? (entry : Outline.Entry Outline.Node) : Option Entry :=
  match PlayFieldKind.ofKey entry.key with
  | .declaration | .option => some (entryOf (playScope entry.key) false entry)
  | _ => none

/-- The section that a play's key opens. -/
def playSection? (source : SourceLines) (entry : Outline.Entry Outline.Node) :
    Option PlaySection :=
  let kind := PlayFieldKind.ofKey entry.key
  match kind with
  | .declaration | .option => none
  | .roles => some ⟨kind, entry.position, .roles (rolesOf source entry.value)⟩
  | _ => some ⟨kind, entry.position, .tasks (taskItems source entry.value)⟩

def Play.ofItem (source : SourceLines) (item : Outline.Item Outline.Node) : Play :=
  let raw := item.value.entries?.getD []
  let entries := raw.filterMap playEntry?
  let declared (key : String) : Option Scalar :=
    ((entries.filter (·.key == key)).getLast?).bind (·.value.scalar?)
  { position := item.position
    endLine := item.endLine
    blankLinesBefore := source.blankLinesBefore item.position.line
    name? := declared "name"
    hosts? := declared "hosts"
    fields := raw.map fun e => ⟨PlayFieldKind.ofKey e.key, e.key, e.position⟩
    entries := entries
    sections := raw.filterMap (playSection? source) }

/-! ### Playbooks -/

/-- Why a text that is YAML is no playbook. -/
inductive ShapeProblem where
  | empty
  | singleMapping
  | noList
  | layoutDiffers
  | itemNoMapping (line : Nat)
  | itemNoBlock (line : Nat)
deriving DecidableEq, Repr

namespace ShapeProblem

def message : ShapeProblem → String
  | empty => "document is empty"
  | singleMapping =>
    "playbook must be a list of host blocks or include statements, not a single mapping"
  | noList => "playbook must be a list of host blocks or include statements"
  | layoutDiffers => "top-level list could not be matched against the source layout"
  | itemNoMapping _ => "top-level item must be a mapping"
  | itemNoBlock _ => "top-level item is neither a host block nor an include statement"

def line? : ShapeProblem → Option Nat
  | itemNoMapping line | itemNoBlock line => some line
  | _ => none

end ShapeProblem

/-- Why a text is no playbook. -/
inductive Problem where
  | invalid (e : Yaml.Error)
  | shape (p : ShapeProblem)
deriving DecidableEq, Repr

/-- The block of a top-level item with its value: a play if it has hosts. -/
def Block.ofItem (source : SourceLines) (value : Yaml.Value) (item : Outline.Item Outline.Node) :
    Except ShapeProblem Block :=
  if !value.isMapping then .error (.itemNoMapping item.position.line)
  else if (value.get? "hosts").isSome then .ok (.play (.ofItem source item))
  else
    match Include.ofItem? source playIncludes item with
    | some statement => .ok (.inclusion statement)
    | none => .error (.itemNoBlock item.position.line)

/-- The blocks of a list of values and of the items they were read from. -/
def blocksOf (source : SourceLines) : List Yaml.Value → List (Outline.Item Outline.Node) →
    Except ShapeProblem (List Block)
  | value :: values, item :: items => do
    let block ← Block.ofItem source value item
    let blocks ← blocksOf source values items
    return block :: blocks
  | _, _ => .ok []

end Playbook

namespace Playbook

/-- The playbook of a text with a value. -/
def build (path : String) (text : List Char) (value : Yaml.Value) :
    Except ShapeProblem Playbook :=
  match value with
  | .sequence values => do
    let outline := Outline.scan text
    let source := SourceLines.ofText text
    match outline.root with
    | .sequence _ items =>
      if items.length = values.length then
        let blocks ← blocksOf source values items
        return ⟨path, blocks, source, outline.verbatim, false⟩
      else throw .layoutDiffers
    | _ => throw .layoutDiffers
  | .null => .error .empty
  | .mapping _ => .error .singleMapping
  | _ => .error .noList

/-- Reads a text as a playbook. -/
def parse (path text : String) : Except Problem Playbook :=
  match Yaml.Value.read text with
  | .error e => .error (.invalid e)
  | .ok value =>
    match build path text.toList value with
    | .error p => .error (.shape p)
    | .ok playbook => .ok playbook

end Playbook

end PlaybookStyle
