/-
Playbooks whose lines move.

A playbook that is built from a moved outline is the moved playbook, and the walk
over it meets the moved parts in the same order. What a part keeps besides its
lines is the number of blank lines before it: a `Relocation` says what becomes of
that number, and all that is asked of the two sources is that it says so rightly
(`Relocation.Fits`).
-/

import PlaybookStyle.Proofs.Outline.Moving
import PlaybookStyle.Proofs.Playbook.Places

namespace PlaybookStyle

/-- Where the lines of a source go, and how many blank lines stand there before a
line that some number of them stood before. -/
structure Relocation where
  line : Nat → Nat
  blank : Nat → Nat → Nat

/-- The blank lines in two sources are as a relocation says. -/
def Relocation.Fits (r : Relocation) (source target : SourceLines) : Prop :=
  ∀ n, target.blankLinesBefore (r.line n) = r.blank n (source.blankLinesBefore n)

theorem Position.moved_inj {f : Nat → Nat} (hf : Function.Injective f) {a b : Position} :
    a.moved f = b.moved f ↔ a = b := by
  cases a
  cases b
  simp [Position.moved, hf.eq_iff]

namespace Playbook

/-! ### Moved parts -/

def Scalar.moved (f : Nat → Nat) (s : Scalar) : Scalar :=
  { s with position := s.position.moved f, endLine := f s.endLine }

mutual

def Value.moved (f : Nat → Nat) : Value → Value
  | .scalar s => .scalar (s.moved f)
  | .mapping entries => .mapping (entriesMoved f entries)
  | .sequence items => .sequence (valuesMoved f items)
  | .null => .null

def entriesMoved (f : Nat → Nat) : List (EntryOf Value) → List (EntryOf Value)
  | [] => []
  | entry :: rest => entryMoved f entry :: entriesMoved f rest

def entryMoved (f : Nat → Nat) : EntryOf Value → EntryOf Value
  | ⟨key, position, spacing, value, endLine, assigns⟩ =>
    ⟨key, position.moved f, spacing, value.moved f, f endLine, assigns⟩

def valuesMoved (f : Nat → Nat) : List Value → List Value
  | [] => []
  | value :: rest => value.moved f :: valuesMoved f rest

end

def ModuleCall.moved (f : Nat → Nat) (m : ModuleCall) : ModuleCall :=
  { m with position := m.position.moved f, args := m.args.moved f, endLine := f m.endLine }

def Field.moved {κ : Type} (f : Nat → Nat) (field : Field κ) : Field κ :=
  { field with position := field.position.moved f }

def Include.moved (r : Relocation) (i : Include) : Include :=
  { i with
    position := i.position.moved r.line
    endLine := r.line i.endLine
    blankLinesBefore := r.blank i.position.line i.blankLinesBefore
    keywordPosition := i.keywordPosition.moved r.line
    target := i.target.moved r.line
    entries := i.entries.map (entryMoved r.line) }

mutual

def TaskItem.moved (r : Relocation) : TaskItem → TaskItem
  | .task t => .task (taskMoved r t)
  | .inclusion i => .inclusion (i.moved r)

def taskMoved (r : Relocation) : TaskOf TaskItem → TaskOf TaskItem
  | ⟨position, endLine, blank, name?, module?, fields, entries, nested⟩ =>
    { position := position.moved r.line
      endLine := r.line endLine
      blankLinesBefore := r.blank position.line blank
      name? := name?.map (Scalar.moved r.line)
      module? := module?.map (ModuleCall.moved r.line)
      fields := fields.map (Field.moved r.line)
      entries := entries.map (entryMoved r.line)
      nested := nestedListsMoved r nested }

def nestedListsMoved (r : Relocation) : List (NestedOf TaskItem) → List (NestedOf TaskItem)
  | [] => []
  | list :: rest => nestedMoved r list :: nestedListsMoved r rest

def nestedMoved (r : Relocation) : NestedOf TaskItem → NestedOf TaskItem
  | ⟨key, position, items⟩ => ⟨key, position.moved r.line, taskItemsMoved r items⟩

def taskItemsMoved (r : Relocation) : List TaskItem → List TaskItem
  | [] => []
  | item :: rest => item.moved r :: taskItemsMoved r rest

end

def Role.moved (r : Relocation) (role : Role) : Role :=
  { role with
    position := role.position.moved r.line
    endLine := r.line role.endLine
    blankLinesBefore := r.blank role.position.line role.blankLinesBefore
    name? := role.name?.map (Scalar.moved r.line)
    entries := role.entries.map (entryMoved r.line)
    flow? := role.flow?.map (Scalar.moved r.line) }

def SectionItems.moved (r : Relocation) : SectionItems → SectionItems
  | .tasks items => .tasks (taskItemsMoved r items)
  | .roles list => .roles (list.map (Role.moved r))

def PlaySection.moved (r : Relocation) (s : PlaySection) : PlaySection :=
  { s with position := s.position.moved r.line, items := s.items.moved r }

def Play.moved (r : Relocation) (p : Play) : Play where
  position := p.position.moved r.line
  endLine := r.line p.endLine
  blankLinesBefore := r.blank p.position.line p.blankLinesBefore
  name? := p.name?.map (Scalar.moved r.line)
  hosts? := p.hosts?.map (Scalar.moved r.line)
  fields := p.fields.map (Field.moved r.line)
  entries := p.entries.map (entryMoved r.line)
  sections := p.sections.map (PlaySection.moved r)

def Block.moved (r : Relocation) : Block → Block
  | .play p => .play (p.moved r)
  | .inclusion i => .inclusion (i.moved r)

/-- A part of a playbook at its moved place; a document stays what it is. -/
def Part.moved (r : Relocation) : Part → Part
  | .document p => .document p
  | .play p => .play (p.moved r)
  | .task t => .task (taskMoved r t)
  | .module m => .module (m.moved r.line)
  | .role applied => .role (applied.moved r)
  | .inclusion i => .inclusion (i.moved r)
  | .entry e => .entry (entryMoved r.line e)
  | .scalar s => .scalar (s.moved r.line)

def Visit.moved (r : Relocation) (v : Visit) : Visit :=
  ⟨v.part.moved r, v.previous?.map (Part.moved r)⟩

/-- What is found in a list moves with its elements. -/
theorem filterMap_moved {α β α' β' : Type} {move : α → α'} {moved : β → β'} {find : α → Option β}
    {find' : α' → Option β'} (h : ∀ a, find' (move a) = (find a).map moved) (list : List α) :
    (list.map move).filterMap find' = (list.filterMap find).map moved := by
  rw [List.filterMap_map, List.map_filterMap]
  congr 1
  exact funext h

theorem findSome?_moved {α β α' β' : Type} {move : α → α'} {moved : β → β'} {find : α → Option β}
    {find' : α' → Option β'} (h : ∀ a, find' (move a) = (find a).map moved) (list : List α) :
    (list.map move).findSome? find' = (list.findSome? find).map moved := by
  rw [List.findSome?_map, List.map_findSome?]
  congr 1
  exact funext h

section Lists

variable (f : Nat → Nat) (r : Relocation)

theorem entriesMoved_eq_map (entries : List Entry) :
    entriesMoved f entries = entries.map (entryMoved f) := by
  induction entries with
  | nil => rw [entriesMoved, List.map_nil]
  | cons entry rest ih => rw [entriesMoved, ih, List.map_cons]

theorem nestedListsMoved_eq_map (lists : List Nested) :
    nestedListsMoved r lists = lists.map (nestedMoved r) := by
  induction lists with
  | nil => rw [nestedListsMoved, List.map_nil]
  | cons list rest ih => rw [nestedListsMoved, ih, List.map_cons]

@[simp] theorem style_moved (s : Scalar) : (s.moved f).style = s.style := rfl

@[simp] theorem kind_moved (s : Scalar) : (s.moved f).kind = s.kind := rfl

@[simp] theorem key_entryMoved (e : Entry) : (entryMoved f e).key = e.key := by rw [entryMoved]

@[simp] theorem position_entryMoved (e : Entry) :
    (entryMoved f e).position = e.position.moved f := by rw [entryMoved]

@[simp] theorem spacing_entryMoved (e : Entry) : (entryMoved f e).spacing = e.spacing := by
  rw [entryMoved]

@[simp] theorem value_entryMoved (e : Entry) : (entryMoved f e).value = e.value.moved f := by
  rw [entryMoved]

@[simp] theorem assigns_entryMoved (e : Entry) : (entryMoved f e).assigns = e.assigns := by
  rw [entryMoved]

@[simp] theorem scalar?_moved (v : Value) :
    (v.moved f).scalar? = v.scalar?.map (Scalar.moved f) := by
  cases v <;> rw [Value.moved] <;> rfl

@[simp] theorem mapping?_moved (v : Value) :
    (v.moved f).mapping? = v.mapping?.map (List.map (entryMoved f)) := by
  cases v with
  | mapping entries =>
    rw [Value.moved, entriesMoved_eq_map]
    rfl
  | _ => rw [Value.moved]; rfl

/-- The first entry with a key moves with the entries. -/
theorem find?_key_moved (key : String) (entries : List Entry) :
    (entries.map (entryMoved f)).find? (·.key == key) =
      (entries.find? (·.key == key)).map (entryMoved f) := by
  rw [List.find?_map]
  simp only [Function.comp_def, key_entryMoved]

end Lists

/-! ### Building -/

section Build

variable (f : Nat → Nat)

theorem Scalar.ofOutline_moved (s : Outline.Scalar) (key? : Option String) (scope : Scope) :
    Scalar.ofOutline (s.moved f) key? scope = (Scalar.ofOutline s key? scope).moved f := rfl

mutual

theorem Value.ofNode_moved (key? : Option String) (scope : Scope) :
    ∀ n : Outline.Node, Value.ofNode key? scope (n.moved f) = (Value.ofNode key? scope n).moved f
  | .scalar s => by
    rw [Outline.Node.moved, Value.ofNode, Value.ofNode, Value.moved, Scalar.ofOutline_moved]
  | .mapping _ entries => by
    rw [Outline.Node.moved, Value.ofNode, Value.ofNode, Value.moved, entriesOf_moved]
  | .sequence _ items => by
    rw [Outline.Node.moved, Value.ofNode, Value.ofNode, Value.moved, itemsOf_moved]
  | .empty => by rw [Outline.Node.moved, Value.ofNode, Value.moved]

theorem entriesOf_moved (scope : Scope) (assigns : Bool) :
    ∀ entries : List (Outline.Entry Outline.Node),
      entriesOf scope assigns (Outline.entriesMoved f entries) =
        entriesMoved f (entriesOf scope assigns entries)
  | [] => by rw [Outline.entriesMoved, entriesOf, entriesMoved]
  | entry :: rest => by
    rw [Outline.entriesMoved, entriesOf, entriesOf, entriesMoved, entryOf_moved, entriesOf_moved]

theorem entryOf_moved (scope : Scope) (assigns : Bool) :
    ∀ entry : Outline.Entry Outline.Node,
      entryOf scope assigns (Outline.entryMoved f entry) = entryMoved f (entryOf scope assigns entry)
  | ⟨key, position, spacing, value, endLine⟩ => by
    rw [Outline.entryMoved, entryOf, entryOf, entryMoved, Value.ofNode_moved]

theorem itemsOf_moved (key? : Option String) (scope : Scope) :
    ∀ items : List (Outline.Item Outline.Node),
      itemsOf key? scope (Outline.itemsMoved f items) = valuesMoved f (itemsOf key? scope items)
  | [] => by rw [Outline.itemsMoved, itemsOf, valuesMoved]
  | item :: rest => by
    rw [Outline.itemsMoved, itemsOf, itemsOf, valuesMoved, itemOf_moved, itemsOf_moved]

theorem itemOf_moved (key? : Option String) (scope : Scope) :
    ∀ item : Outline.Item Outline.Node,
      itemOf key? scope (Outline.itemMoved f item) = (itemOf key? scope item).moved f
  | ⟨position, value, endLine⟩ => by
    rw [Outline.itemMoved, itemOf, itemOf, Value.ofNode_moved]

end

theorem optionEntry_moved (entry : Outline.Entry Outline.Node) :
    optionEntry (Outline.entryMoved f entry) = entryMoved f (optionEntry entry) := by
  rw [optionEntry, optionEntry, Outline.key_entryMoved, entryOf_moved]

theorem ModuleCall.ofEntry_moved (entry : Outline.Entry Outline.Node) :
    ModuleCall.ofEntry (Outline.entryMoved f entry) = (ModuleCall.ofEntry entry).moved f := by
  obtain ⟨key, position, spacing, value, endLine⟩ := entry
  have hvalue := Value.ofNode_moved f (some key) (.ofModule key) value
  rw [Outline.entryMoved, ModuleCall.ofEntry, ModuleCall.ofEntry, ModuleCall.moved]
  cases value with
  | scalar s => rw [Outline.Node.moved, Value.moved, ← Scalar.ofOutline_moved]
  | _ =>
    rw [Outline.Node.moved] at hvalue ⊢
    rw [← hvalue]

theorem isTarget_moved (keywords : List String) (entry : Outline.Entry Outline.Node) :
    isTarget keywords (Outline.entryMoved f entry) = isTarget keywords entry := by
  simp [isTarget]

theorem flowRoleName?_moved (s : Outline.Scalar) :
    flowRoleName? (s.moved f) = (flowRoleName? s).map (Scalar.moved f) := by
  unfold flowRoleName?
  rw [show (s.moved f).raw = s.raw from rfl]
  cases Yaml.Value.read s.raw with
  | error e => rfl
  | ok value =>
    dsimp only
    rw [Option.map_map]
    rfl

theorem roleEntry_moved (entry : Outline.Entry Outline.Node) :
    roleEntry (Outline.entryMoved f entry) = entryMoved f (roleEntry entry) := by
  unfold roleEntry
  simp only [Outline.key_entryMoved, entryOf_moved]
  repeat' split
  all_goals rfl

theorem playEntry?_moved (entry : Outline.Entry Outline.Node) :
    playEntry? (Outline.entryMoved f entry) = ( playEntry? entry).map (entryMoved f) := by
  unfold playEntry?
  simp only [Outline.key_entryMoved, entryOf_moved]
  split <;> rfl

/-- The scalar under the last entry with a key moves with the entries. -/
theorem lastScalar_moved (key : String) (entries : List Entry) :
    (((entries.map (entryMoved f)).filter (·.key == key)).getLast?).bind (·.value.scalar?) =
      (((entries.filter (·.key == key)).getLast?).bind (·.value.scalar?)).map (Scalar.moved f) := by
  rw [List.filter_map, List.getLast?_map]
  simp only [Function.comp_def, key_entryMoved]
  cases (entries.filter (·.key == key)).getLast? with
  | none => rfl
  | some entry => simp

end Build

/-! ### Building with blank lines -/

/-- What a part of a task brings along, at its moved place. -/
def TaskPart.moved (r : Relocation) : TaskPart → TaskPart
  | .module call => .module (call.moved r.line)
  | .nested list => .nested (nestedMoved r list)
  | .entry e => .entry (entryMoved r.line e)

/-- A shape problem at its moved line. -/
def ShapeProblem.moved (f : Nat → Nat) : ShapeProblem → ShapeProblem
  | .itemNoMapping line => .itemNoMapping (f line)
  | .itemNoBlock line => .itemNoBlock (f line)
  | p => p

section Blanks

variable {r : Relocation} {source target : SourceLines}

theorem Include.ofItem?_moved (fits : r.Fits source target) (keywords : List String)
    (item : Outline.Item Outline.Node) :
    Include.ofItem? target keywords (Outline.itemMoved r.line item) =
      (Include.ofItem? source keywords item).map (Include.moved r) := by
  have htarget : isTarget keywords ∘ Outline.entryMoved r.line = isTarget keywords :=
    funext (isTarget_moved r.line keywords)
  unfold Include.ofItem?
  simp only [Outline.value_itemMoved, Outline.entries?_moved, Outline.position_itemMoved,
    Outline.endLine_itemMoved]
  cases item.value.entries? with
  | none => rfl
  | some entries =>
    simp only [Option.map_some, Option.bind_eq_bind, Option.bind_some, List.find?_map, htarget,
      List.eraseP_map]
    cases entries.find? (isTarget keywords) with
    | none => rfl
    | some found =>
      simp only [Option.map_some, Option.bind_some, Outline.value_entryMoved,
        Outline.scalar?_moved]
      cases found.value.scalar? with
      | none => rfl
      | some name =>
        simp only [Option.map_some, Option.bind_some, Option.pure_def, Include.moved,
          Outline.key_entryMoved, Outline.position_entryMoved, Outline.spacing_entryMoved,
          Scalar.ofOutline_moved, List.map_map]
        rw [show (item.position.moved r.line).line = r.line item.position.line from rfl, fits]
        simp only [Function.comp_def, optionEntry_moved]

theorem TaskOf.ofParts_moved (fits : r.Fits source target) (position : Position) (endLine : Nat)
    (parts : List (Field TaskFieldKind × TaskPart)) :
    TaskOf.ofParts target (position.moved r.line) (r.line endLine)
        (parts.map (Prod.map (Field.moved r.line) (TaskPart.moved r))) =
      taskMoved r (TaskOf.ofParts source position endLine parts) := by
  have hentries : (parts.map (Prod.map (Field.moved r.line) (TaskPart.moved r))).filterMap
      (fun p => p.2.entryOf?) =
        (parts.filterMap fun p => p.2.entryOf?).map (entryMoved r.line) := by
    refine filterMap_moved (fun p => ?_) parts
    obtain ⟨field, part⟩ := p
    cases part <;> rfl
  have hnested : (parts.map (Prod.map (Field.moved r.line) (TaskPart.moved r))).filterMap
      (fun p => p.2.nested?) = (parts.filterMap fun p => p.2.nested?).map (nestedMoved r) := by
    refine filterMap_moved (fun p => ?_) parts
    obtain ⟨field, part⟩ := p
    cases part <;> rfl
  have hmodule : (parts.map (Prod.map (Field.moved r.line) (TaskPart.moved r))).findSome?
      (fun p => p.2.module?) =
        (parts.findSome? fun p => p.2.module?).map (ModuleCall.moved r.line) := by
    refine findSome?_moved (fun p => ?_) parts
    obtain ⟨field, part⟩ := p
    cases part <;> rfl
  unfold TaskOf.ofParts
  simp only [hentries, hnested, hmodule, taskMoved, lastScalar_moved, nestedListsMoved_eq_map]
  rw [show (position.moved r.line).line = r.line position.line from rfl, fits, List.map_map,
    List.map_map]
  rfl

mutual

theorem taskItems_moved (fits : r.Fits source target) :
    ∀ n : Outline.Node,
      taskItems target (n.moved r.line) = taskItemsMoved r (taskItems source n)
  | .sequence _ items => by
    rw [Outline.Node.moved, taskItems, taskItems, taskItemsOf_moved fits]
  | .mapping _ _ => by simp only [Outline.Node.moved, taskItems, taskItemsMoved]
  | .scalar _ => by simp only [Outline.Node.moved, taskItems, taskItemsMoved]
  | .empty => by simp only [Outline.Node.moved, taskItems, taskItemsMoved]

theorem taskItemsOf_moved (fits : r.Fits source target) :
    ∀ items : List (Outline.Item Outline.Node),
      taskItemsOf target (Outline.itemsMoved r.line items) =
        taskItemsMoved r (taskItemsOf source items)
  | [] => by rw [Outline.itemsMoved, taskItemsOf, taskItemsOf, taskItemsMoved]
  | item :: rest => by
    rw [Outline.itemsMoved, taskItemsOf, taskItemsOf, taskItem?_moved fits item,
      taskItemsOf_moved fits rest]
    cases taskItem? source item with
    | none => rfl
    | some found =>
      dsimp only [Option.map_some]
      rw [taskItemsMoved]

theorem taskItem?_moved (fits : r.Fits source target) :
    ∀ item : Outline.Item Outline.Node,
      taskItem? target (Outline.itemMoved r.line item) =
        (taskItem? source item).map (TaskItem.moved r)
  | ⟨position, value, endLine⟩ => by
    have hinclude := Include.ofItem?_moved fits taskIncludes ⟨position, value, endLine⟩
    rw [Outline.itemMoved] at hinclude ⊢
    rw [taskItem?_eq, taskItem?_eq, hinclude]
    cases Include.ofItem? source taskIncludes ⟨position, value, endLine⟩ with
    | some statement => simp [TaskItem.moved]
    | none =>
      cases value with
      | mapping start entries =>
        simp only [Outline.Node.moved, Outline.Node.entries?, Option.map_none, Option.map_some,
          TaskItem.moved]
        rw [taskParts_moved fits false entries, TaskOf.ofParts_moved fits]
      | _ => simp only [Outline.Node.moved, Outline.Node.entries?, Option.map_none]

theorem taskParts_moved (fits : r.Fits source target) (found : Bool) :
    ∀ entries : List (Outline.Entry Outline.Node),
      taskParts target found (Outline.entriesMoved r.line entries) =
        (taskParts source found entries).map (Prod.map (Field.moved r.line) (TaskPart.moved r))
  | [] => by rw [Outline.entriesMoved, taskParts, taskParts, List.map_nil]
  | entry :: rest => by
    have hfound : ∀ part : TaskPart, (part.moved r).module?.isSome = part.module?.isSome := by
      intro part
      cases part <;> rfl
    rw [Outline.entriesMoved, taskParts, taskParts, taskPart_moved fits found entry, List.map_cons,
      Prod.map_snd, hfound, taskParts_moved fits _ rest]

theorem taskPart_moved (fits : r.Fits source target) (found : Bool) :
    ∀ entry : Outline.Entry Outline.Node,
      taskPart target found (Outline.entryMoved r.line entry) =
        Prod.map (Field.moved r.line) (TaskPart.moved r) (taskPart source found entry)
  | ⟨key, position, spacing, value, endLine⟩ => by
    have hmodule := ModuleCall.ofEntry_moved r.line ⟨key, position, spacing, value, endLine⟩
    have hoption := optionEntry_moved r.line ⟨key, position, spacing, value, endLine⟩
    have hitems := taskItems_moved fits value
    rw [Outline.entryMoved] at hmodule hoption ⊢
    rw [taskPart, taskPart, hmodule, hoption, hitems]
    split
    · split
      · simp only [Prod.map_apply, Field.moved, TaskPart.moved, nestedMoved]
      · rfl
    · rfl

end

theorem Role.ofItem?_moved (fits : r.Fits source target) (item : Outline.Item Outline.Node) :
    Role.ofItem? target (Outline.itemMoved r.line item) =
      (Role.ofItem? source item).map (Role.moved r) := by
  have hblank : target.blankLinesBefore (item.position.moved r.line).line =
      r.blank item.position.line (source.blankLinesBefore item.position.line) := fits _
  unfold Role.ofItem?
  simp only [Outline.value_itemMoved, Outline.position_itemMoved, Outline.endLine_itemMoved, hblank]
  cases item.value with
  | scalar s =>
    simp only [Outline.Node.moved]
    rw [show (s.moved r.line).style = s.style from rfl, flowRoleName?_moved]
    split <;> rfl
  | mapping position entries =>
    have hentries : (entries.map (Outline.entryMoved r.line)).map roleEntry =
        (entries.map roleEntry).map (entryMoved r.line) := by
      rw [List.map_map, List.map_map]
      exact List.map_congr_left fun entry _ => roleEntry_moved r.line entry
    have hname : ((entries.map roleEntry).map (entryMoved r.line)).findSome? (fun e =>
        if roleNameKeys.contains e.key then e.value.scalar? else none) =
          ((entries.map roleEntry).findSome? fun e =>
            if roleNameKeys.contains e.key then e.value.scalar? else none).map
              (Scalar.moved r.line) := by
      refine findSome?_moved (fun e => ?_) _
      simp only [key_entryMoved, value_entryMoved, scalar?_moved]
      split <;> rfl
    simp only [Outline.Node.moved, Outline.entriesMoved_eq_map, hentries, hname, Option.map_some,
      Role.moved]
    rfl
  | _ => simp only [Outline.Node.moved, Option.map_none]

theorem rolesOf_moved (fits : r.Fits source target) (n : Outline.Node) :
    rolesOf target (n.moved r.line) = (rolesOf source n).map (Role.moved r) := by
  cases n with
  | sequence position items =>
    rw [Outline.Node.moved, Outline.itemsMoved_eq_map, rolesOf, rolesOf]
    exact filterMap_moved (Role.ofItem?_moved fits) items
  | _ => simp only [Outline.Node.moved, rolesOf, List.map_nil]

theorem playSection?_moved (fits : r.Fits source target) (entry : Outline.Entry Outline.Node) :
    playSection? target (Outline.entryMoved r.line entry) =
      (playSection? source entry).map (PlaySection.moved r) := by
  unfold playSection?
  simp only [Outline.key_entryMoved, Outline.position_entryMoved, Outline.value_entryMoved,
    rolesOf_moved fits, taskItems_moved fits]
  split <;> rfl

theorem Play.ofItem_moved (fits : r.Fits source target) (item : Outline.Item Outline.Node) :
    Play.ofItem target (Outline.itemMoved r.line item) = (Play.ofItem source item).moved r := by
  have hraw : ((item.value.moved r.line).entries?).getD [] =
      (item.value.entries?.getD []).map (Outline.entryMoved r.line) := by
    rw [Outline.entries?_moved]
    cases item.value.entries? <;> rfl
  have hentries := filterMap_moved (playEntry?_moved r.line)
  have hsections := filterMap_moved (playSection?_moved (r := r) fits)
  have hblank : target.blankLinesBefore (item.position.moved r.line).line =
      r.blank item.position.line (source.blankLinesBefore item.position.line) := fits _
  unfold Play.ofItem
  simp only [Outline.value_itemMoved, Outline.position_itemMoved, Outline.endLine_itemMoved, hraw,
    hentries, hsections, hblank, lastScalar_moved, List.map_map, Play.moved]
  congr 1
  exact List.map_congr_left fun entry _ => by simp [Field.moved]

theorem Block.ofItem_moved (fits : r.Fits source target) (value : Yaml.Value)
    (item : Outline.Item Outline.Node) :
    Block.ofItem target value (Outline.itemMoved r.line item) =
      match Block.ofItem source value item with
      | .ok block => .ok (block.moved r)
      | .error problem => .error (problem.moved r.line) := by
  unfold Block.ofItem
  simp only [Play.ofItem_moved fits, Include.ofItem?_moved fits, Outline.position_itemMoved]
  split
  · rfl
  · split
    · rfl
    · cases Include.ofItem? source playIncludes item <;> rfl

/-- **The blocks move with the items.** Whether there are blocks at all does not
depend on where the lines are. -/
theorem blocksOf_moved (fits : r.Fits source target) (values : List Yaml.Value)
    (items : List (Outline.Item Outline.Node)) :
    blocksOf target values (items.map (Outline.itemMoved r.line)) =
      match blocksOf source values items with
      | .ok blocks => .ok (blocks.map (Block.moved r))
      | .error problem => .error (problem.moved r.line) := by
  induction values generalizing items with
  | nil => simp [blocksOf]
  | cons value values ih =>
    cases items with
    | nil => simp [blocksOf]
    | cons item items =>
      rw [List.map_cons, blocksOf, blocksOf, Block.ofItem_moved fits]
      cases Block.ofItem source value item with
      | error problem => rfl
      | ok block =>
        have hrest := ih items
        cases hblocks : blocksOf source values items with
        | error problem =>
          rw [hblocks] at hrest
          simp [hrest, bind, Except.bind]
        | ok blocks =>
          rw [hblocks] at hrest
          simp [hrest, bind, Except.bind, pure, Except.pure]

end Blanks

/-! ### Walking -/

section Walk

variable (r : Relocation)

mutual

theorem Value.visits_moved :
    ∀ v : Value, (v.moved r.line).visits = v.visits.map (Visit.moved r)
  | .scalar s => by
    rw [Value.moved, Value.visits, Value.visits]
    rfl
  | .mapping entries => by
    rw [Value.moved, Value.visits, Value.visits, visitsOfEntries_moved]
  | .sequence items => by rw [Value.moved, Value.visits, Value.visits, visitsOfValues_moved]
  | .null => by
    rw [Value.moved, Value.visits]
    rfl

theorem visitsOfEntries_moved :
    ∀ entries : List (EntryOf Value),
      visitsOfEntries (entriesMoved r.line entries) =
        (visitsOfEntries entries).map (Visit.moved r)
  | [] => by
    rw [entriesMoved, visitsOfEntries]
    rfl
  | entry :: rest => by
    rw [entriesMoved, visitsOfEntries, visitsOfEntries, visitsOfEntry_moved entry,
      visitsOfEntries_moved rest, List.map_append]

theorem visitsOfEntry_moved :
    ∀ entry : EntryOf Value,
      visitsOfEntry (entryMoved r.line entry) = (visitsOfEntry entry).map (Visit.moved r)
  | ⟨key, position, spacing, value, endLine, assigns⟩ => by
    rw [entryMoved, visitsOfEntry, visitsOfEntry, Value.visits_moved value, List.map_cons]
    simp only [Visit.alone, Visit.moved, Part.moved, entryMoved, Option.map_none]

theorem visitsOfValues_moved :
    ∀ values : List Value,
      visitsOfValues (valuesMoved r.line values) = (visitsOfValues values).map (Visit.moved r)
  | [] => by
    rw [valuesMoved, visitsOfValues]
    rfl
  | value :: rest => by
    rw [valuesMoved, visitsOfValues, visitsOfValues, Value.visits_moved value,
      visitsOfValues_moved rest, List.map_append]

end

theorem visitsOfEntries_map_moved (entries : List Entry) :
    visitsOfEntries (entries.map (entryMoved r.line)) =
      (visitsOfEntries entries).map (Visit.moved r) := by
  rw [← entriesMoved_eq_map, visitsOfEntries_moved]

theorem Include.visits_moved (i : Include) :
    (i.moved r).visits = i.visits.map (Visit.moved r) := by
  rw [Include.visits, Include.visits, List.map_cons, Include.moved, visitsOfEntries_map_moved]
  rfl

theorem ModuleCall.visits_moved (m : ModuleCall) :
    (m.moved r.line).visits = m.visits.map (Visit.moved r) := by
  rw [ModuleCall.visits, ModuleCall.visits, List.map_cons, ModuleCall.moved, Value.visits_moved]
  rfl

theorem Role.visits_moved (role : Role) :
    (role.moved r).visits = role.visits.map (Visit.moved r) := by
  obtain ⟨position, endLine, blank, name?, form, entries, flow?⟩ := role
  cases form with
  | bare => cases name? <;> rfl
  | mapping => exact visitsOfEntries_map_moved r entries
  | flow => cases flow? <;> rfl

theorem visitsOfRoles_moved (previous? : Option Part) (roles : List Role) :
    visitsOfRoles (previous?.map (Part.moved r)) (roles.map (Role.moved r)) =
      (visitsOfRoles previous? roles).map (Visit.moved r) := by
  induction roles generalizing previous? with
  | nil => rfl
  | cons role rest ih =>
    have hrest := ih (some (.role role))
    rw [List.map_cons, visitsOfRoles, visitsOfRoles, List.map_cons, List.map_append,
      Role.visits_moved, ← hrest]
    rfl

/-- What stands under a field moves with the task, if the walks of its nested
lists do. -/
theorem TaskOf.visitsOfField_moved (t : Task) (nested : List (String × List Visit))
    (field : Field TaskFieldKind) :
    (taskMoved r t).visitsOfField (nested.map (Prod.map id (List.map (Visit.moved r))))
        (field.moved r.line) =
      (t.visitsOfField nested field).map (Visit.moved r) := by
  have hentry : (taskMoved r t).entryOf? field.key =
      (t.entryOf? field.key).map (entryMoved r.line) := by
    rw [taskMoved]
    exact find?_key_moved r.line field.key t.entries
  have hlookup : (nested.map (Prod.map id (List.map (Visit.moved r)))).lookup field.key =
      (nested.lookup field.key).map (List.map (Visit.moved r)) := by
    induction nested with
    | nil => rfl
    | cons list rest ih =>
      obtain ⟨key, visits⟩ := list
      simp only [List.map_cons, Prod.map_apply, id, List.lookup_cons, ih]
      cases field.key == key <;> rfl
  have hmodule : (((taskMoved r t).module?.filter (·.name == field.key)).toList).flatMap
      ModuleCall.visits = (((t.module?.filter (·.name == field.key)).toList).flatMap
        ModuleCall.visits).map (Visit.moved r) := by
    rw [taskMoved]
    cases t.module? with
    | none => rfl
    | some m =>
      by_cases h : m.name == field.key
      · have hmoved : (m.moved r.line).name == field.key := h
        simp [Option.filter, h, hmoved, ModuleCall.visits_moved]
      · have hmoved : ¬((m.moved r.line).name == field.key) := h
        simp [Option.filter, h, hmoved]
  unfold TaskOf.visitsOfField
  rw [show (field.moved r.line).key = field.key from rfl, hentry, hlookup, hmodule]
  cases t.entryOf? field.key with
  | some entry => exact visitsOfEntry_moved r entry
  | none => cases nested.lookup field.key <;> rfl

theorem TaskItem.part_moved (item : TaskItem) : (item.moved r).part = item.part.moved r := by
  cases item <;> rw [TaskItem.moved] <;> rfl

mutual

theorem visitsOfItems_moved (previous? : Option Part) :
    ∀ items : List TaskItem,
      visitsOfItems (previous?.map (Part.moved r)) (taskItemsMoved r items) =
        (visitsOfItems previous? items).map (Visit.moved r)
  | [] => by
    rw [taskItemsMoved, visitsOfItems, visitsOfItems]
    rfl
  | item :: rest => by
    have hrest := visitsOfItems_moved (some item.part) rest
    rw [taskItemsMoved, visitsOfItems, visitsOfItems, List.map_cons, List.map_append,
      visitsOfItem_moved item, ← hrest, TaskItem.part_moved]
    rfl

theorem visitsOfItem_moved :
    ∀ item : TaskItem, visitsOfItem (item.moved r) = (visitsOfItem item).map (Visit.moved r)
  | .task t => by rw [TaskItem.moved, visitsOfItem, visitsOfItem, visitsOfTask_moved t]
  | .inclusion i => by rw [TaskItem.moved, visitsOfItem, visitsOfItem, Include.visits_moved]

theorem visitsOfTask_moved :
    ∀ t : TaskOf TaskItem, visitsOfTask (taskMoved r t) = (visitsOfTask t).map (Visit.moved r)
  | ⟨position, endLine, blank, name?, module?, fields, entries, nested⟩ => by
    let t : Task := ⟨position, endLine, blank, name?, module?, fields, entries, nested⟩
    have hnested : (taskMoved r t).nested = nestedListsMoved r nested := by rw [taskMoved]
    have hfields : (taskMoved r t).fields = fields.map (Field.moved r.line) := by rw [taskMoved]
    rw [visitsOfTask_eq, visitsOfTask_eq, hnested, hfields, visitsOfNested_moved nested,
      List.flatMap_map, List.map_flatMap]
    simp only [TaskOf.visitsOfField_moved]

theorem visitsOfNested_moved :
    ∀ lists : List (NestedOf TaskItem),
      visitsOfNested (nestedListsMoved r lists) =
        (visitsOfNested lists).map (Prod.map id (List.map (Visit.moved r)))
  | [] => by
    rw [nestedListsMoved, visitsOfNested]
    rfl
  | list :: rest => by
    rw [nestedListsMoved, visitsOfNested, visitsOfNested, visitsOfList_moved list,
      visitsOfNested_moved rest, List.map_cons]

theorem visitsOfList_moved :
    ∀ list : NestedOf TaskItem,
      visitsOfList (nestedMoved r list) =
        Prod.map id (List.map (Visit.moved r)) (visitsOfList list)
  | ⟨key, position, items⟩ => by
    rw [nestedMoved, visitsOfList, visitsOfList]
    exact congrArg (Prod.mk key) (visitsOfItems_moved none items)

end

theorem SectionItems.visits_moved (items : SectionItems) :
    (items.moved r).visits = items.visits.map (Visit.moved r) := by
  cases items with
  | tasks list => exact visitsOfItems_moved r none list
  | roles list => exact visitsOfRoles_moved r none list

variable {r}

/-- A section is found by its place: no two places may become one. -/
theorem Play.visitsOfField_moved (hr : Function.Injective r.line) (p : Play)
    (field : Field PlayFieldKind) :
    (p.moved r).visitsOfField (field.moved r.line) =
      (p.visitsOfField field).map (Visit.moved r) := by
  have hentry : (p.moved r).entryOf? field.key =
      (p.entryOf? field.key).map (entryMoved r.line) :=
    find?_key_moved r.line field.key p.entries
  have hsection : (p.moved r).sections.find? (·.position == (field.moved r.line).position) =
      (p.sections.find? (·.position == field.position)).map (PlaySection.moved r) := by
    rw [show (p.moved r).sections = p.sections.map (PlaySection.moved r) from rfl, List.find?_map]
    congr 2
    funext s
    rw [Bool.eq_iff_iff]
    simp only [Function.comp_apply, beq_iff_eq]
    exact Position.moved_inj hr
  unfold Play.visitsOfField
  rw [show (field.moved r.line).key = field.key from rfl, hentry, hsection]
  cases p.entryOf? field.key with
  | some entry => exact visitsOfEntry_moved r entry
  | none =>
    cases p.sections.find? (·.position == field.position) with
    | none => rfl
    | some s =>
      have hitems : (s.moved r).items.visits = s.items.visits.map (Visit.moved r) :=
        SectionItems.visits_moved r s.items
      simpa using hitems

theorem Play.visits_moved (hr : Function.Injective r.line) (p : Play) :
    (p.moved r).visits = p.visits.map (Visit.moved r) := by
  unfold Play.visits
  rw [show (p.moved r).fields = p.fields.map (Field.moved r.line) from rfl, List.flatMap_map,
    List.map_flatMap]
  simp only [Play.visitsOfField_moved hr]

theorem Block.part_moved (block : Block) : (block.moved r).part = block.part.moved r := by
  cases block <;> rfl

theorem Block.visits_moved (hr : Function.Injective r.line) (block : Block) :
    (block.moved r).visits = block.visits.map (Visit.moved r) := by
  cases block with
  | play p => exact p.visits_moved hr
  | inclusion i => exact i.visits_moved r

/-- **The walk moves with the blocks.** It meets the same parts in the same order,
each at its moved place. -/
theorem visitsOfBlocks_moved (hr : Function.Injective r.line) (previous? : Option Part)
    (blocks : List Block) :
    visitsOfBlocks (previous?.map (Part.moved r)) (blocks.map (Block.moved r)) =
      (visitsOfBlocks previous? blocks).map (Visit.moved r) := by
  induction blocks generalizing previous? with
  | nil => rfl
  | cons block rest ih =>
    have hrest := ih (some block.part)
    rw [List.map_cons, visitsOfBlocks, visitsOfBlocks, List.map_cons, List.map_append,
      Block.visits_moved hr, ← hrest, Block.part_moved]
    rfl

end Walk

/-! ### Counting -/

section Count

variable (r : Relocation)

mutual

theorem countItems_moved :
    ∀ items : List TaskItem, countItems (taskItemsMoved r items) = countItems items
  | [] => by rw [taskItemsMoved]
  | item :: rest => by
    rw [taskItemsMoved, countItems, countItems, countItem_moved item, countItems_moved rest]

theorem countItem_moved : ∀ item : TaskItem, countItem (item.moved r) = countItem item
  | .task t => by rw [TaskItem.moved, countItem, countItem, countTask_moved t]
  | .inclusion i => by rw [TaskItem.moved, countItem, countItem]

theorem countTask_moved : ∀ t : TaskOf TaskItem, countTask (taskMoved r t) = countTask t
  | ⟨_, _, _, _, _, _, _, nested⟩ => by
    rw [taskMoved, countTask, countTask, countNested_moved nested]

theorem countNested_moved :
    ∀ lists : List (NestedOf TaskItem), countNested (nestedListsMoved r lists) = countNested lists
  | [] => by rw [nestedListsMoved]
  | list :: rest => by
    rw [nestedListsMoved, countNested, countNested, countList_moved list, countNested_moved rest]

theorem countList_moved : ∀ list : NestedOf TaskItem, countList (nestedMoved r list) = countList list
  | ⟨_, _, items⟩ => by rw [nestedMoved, countList, countList, countItems_moved items]

end

theorem Play.taskCount_moved (p : Play) : (p.moved r).taskCount = p.taskCount := by
  unfold Play.taskCount
  rw [show (p.moved r).sections = p.sections.map (PlaySection.moved r) from rfl, List.foldl_map]
  congr 1
  funext count s
  obtain ⟨kind, position, items⟩ := s
  cases items with
  | tasks list => exact congrArg (count + ·) (countItems_moved r list)
  | roles list => rfl

theorem plays_moved (blocks : List Block) :
    (blocks.map (Block.moved r)).filterMap Block.play? =
      (blocks.filterMap Block.play?).map (Play.moved r) := by
  refine filterMap_moved (fun block => ?_) blocks
  cases block <;> rfl

end Count

end Playbook

end PlaybookStyle
