/-
The walk: every part of a playbook, once, in source order.

A part comes before everything inside it. The elements of one list of blocks,
tasks or roles are visited with the element before them; every other part is
visited without one. What a play or task holds is found by its fields, so that
the walk follows the source also where entries and lists alternate.
-/

import PlaybookStyle.Playbook.Part

namespace PlaybookStyle.Playbook

/-- A part on the walk, with the element before it in the same list. -/
structure Visit where
  part : Part
  previous? : Option Part
deriving Repr, Inhabited

/-- A part that is no element of a list of blocks, tasks or roles. -/
def Visit.alone (part : Part) : Visit := ⟨part, none⟩

/-! ### Values and entries -/

mutual

def Value.visits : Value → List Visit
  | .scalar s => [.alone (.scalar s)]
  | .mapping entries => visitsOfEntries entries
  | .sequence values => visitsOfValues values
  | .null => []

def visitsOfEntries : List (EntryOf Value) → List Visit
  | [] => []
  | entry :: rest => visitsOfEntry entry ++ visitsOfEntries rest

def visitsOfEntry : EntryOf Value → List Visit
  | ⟨key, position, spacing, value, endLine, assigns⟩ =>
    .alone (.entry ⟨key, position, spacing, value, endLine, assigns⟩) :: Value.visits value

def visitsOfValues : List Value → List Visit
  | [] => []
  | value :: rest => Value.visits value ++ visitsOfValues rest

end

theorem visitsOfEntry_eq (entry : Entry) :
    visitsOfEntry entry = .alone (.entry entry) :: entry.value.visits := by
  cases entry
  simp [visitsOfEntry]

theorem visitsOfEntries_eq_flatMap (entries : List Entry) :
    visitsOfEntries entries = entries.flatMap visitsOfEntry := by
  induction entries with
  | nil => simp [visitsOfEntries]
  | cons entry rest ih => simp [visitsOfEntries, ih]

theorem visitsOfValues_eq_flatMap (values : List Value) :
    visitsOfValues values = values.flatMap Value.visits := by
  induction values with
  | nil => simp [visitsOfValues]
  | cons value rest ih => simp [visitsOfValues, ih]

/-! ### Includes, modules and roles -/

/-- What is inside an include. -/
def Include.visits (i : Include) : List Visit :=
  .alone (.scalar i.target) :: visitsOfEntries i.entries

def ModuleCall.visits (m : ModuleCall) : List Visit := .alone (.module m) :: m.args.visits

/-- What is inside a role: its name, its text, or its entries. -/
def Role.visits (r : Role) : List Visit :=
  match r.form with
  | .bare => (r.name?.toList).map fun name => .alone (.scalar name)
  | .flow => (r.flow?.toList).map fun flow => .alone (.scalar flow)
  | .mapping => visitsOfEntries r.entries

/-- The roles of a list, each with the role before it. -/
def visitsOfRoles (previous? : Option Part) : List Role → List Visit
  | [] => []
  | role :: rest =>
    ⟨.role role, previous?⟩ :: (role.visits ++ visitsOfRoles (some (.role role)) rest)

/-! ### Tasks -/

/-- What stands under a field of a task, given the walks of its nested lists: an
entry, a nested list or the module. -/
def TaskOf.visitsOfField {α : Type} (t : TaskOf α) (nested : List (String × List Visit))
    (field : Field TaskFieldKind) : List Visit :=
  match t.entryOf? field.key with
  | some entry => visitsOfEntry entry
  | none =>
    match nested.lookup field.key with
    | some visits => visits
    | none => ((t.module?.filter (·.name == field.key)).toList).flatMap ModuleCall.visits

mutual

/-- The elements of a task list, each with the element before it. -/
def visitsOfItems (previous? : Option Part) : List TaskItem → List Visit
  | [] => []
  | item :: rest =>
    ⟨item.part, previous?⟩ :: (visitsOfItem item ++ visitsOfItems (some item.part) rest)

/-- What is inside an element of a task list. -/
def visitsOfItem : TaskItem → List Visit
  | .task t => visitsOfTask t
  | .inclusion i => i.visits

def visitsOfTask : TaskOf TaskItem → List Visit
  | ⟨position, endLine, blank, name?, module?, fields, entries, nested⟩ =>
    let lists := visitsOfNested nested
    let t : Task := ⟨position, endLine, blank, name?, module?, fields, entries, nested⟩
    fields.flatMap (t.visitsOfField lists)

/-- The walks of the nested lists of a task, with their keys. -/
def visitsOfNested : List (NestedOf TaskItem) → List (String × List Visit)
  | [] => []
  | list :: rest => visitsOfList list :: visitsOfNested rest

def visitsOfList : NestedOf TaskItem → String × List Visit
  | ⟨key, _, items⟩ => (key, visitsOfItems none items)

end

/-! ### Plays and playbooks -/

def SectionItems.visits : SectionItems → List Visit
  | .tasks list => visitsOfItems none list
  | .roles list => visitsOfRoles none list

/-- What stands under a field of a play: an entry, or the section at its place. -/
def Play.visitsOfField (p : Play) (field : Field PlayFieldKind) : List Visit :=
  match p.entryOf? field.key with
  | some entry => visitsOfEntry entry
  | none =>
    ((p.sections.find? (·.position == field.position)).toList).flatMap (·.items.visits)

/-- What is inside a play. -/
def Play.visits (p : Play) : List Visit := p.fields.flatMap p.visitsOfField

/-- What is inside a top-level element. -/
def Block.visits : Block → List Visit
  | .play p => p.visits
  | .inclusion i => i.visits

/-- The top-level elements, each with the element before it. -/
def visitsOfBlocks (previous? : Option Part) : List Block → List Visit
  | [] => []
  | block :: rest =>
    ⟨block.part, previous?⟩ :: (block.visits ++ visitsOfBlocks (some block.part) rest)

end Playbook

open Playbook

/-- All parts of a playbook in the order of the walk, the playbook itself first. -/
def Playbook.visits (p : Playbook) : List Visit :=
  .alone (.document p) :: visitsOfBlocks none p.blocks

end PlaybookStyle
