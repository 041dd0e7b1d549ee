/-
The order of keys in plays and tasks.

Keys have kinds with a fixed order. A key is misplaced if a key of a later kind
stands before it; it is named together with the first key of the furthest kind
reached. Options and parameters are sorted: a key is unsorted if it is smaller
than the key right before it.
-/

import PlaybookStyle.Rule.Basic

namespace PlaybookStyle.Rule

open Playbook

/-! ### Steps back -/

/-- The fields behind a field of a later kind, each with the first field of the
furthest kind before it. `furthest?` is that rank and key so far. -/
def misplaced {κ : Type} (rank : κ → Nat) (furthest? : Option (Nat × String)) :
    List (Playbook.Field κ) → List (Playbook.Field κ × String)
  | [] => []
  | field :: rest =>
    match furthest? with
    | none => misplaced rank (some (rank field.kind, field.key)) rest
    | some (reached, key) =>
      if rank field.kind < reached then (field, key) :: misplaced rank furthest? rest
      else if rank field.kind = reached then misplaced rank furthest? rest
      else misplaced rank (some (rank field.kind, field.key)) rest

/-- The keys smaller than the key before them, with that key. -/
def unsorted : List (String × Position) → List (String × String × Position)
  | first :: second :: rest =>
    if second.1 < first.1 then (second.1, first.1, second.2) :: unsorted (second :: rest)
    else unsorted (second :: rest)
  | _ => []

/-- The keys of one kind with their places. -/
def keysOfKind {κ : Type} [DecidableEq κ] (kind : κ) (fields : List (Playbook.Field κ)) :
    List (String × Position) :=
  (fields.filter (·.kind = kind)).map fun field => (field.key, field.position)

/-! ### Plays -/

def playOrderRemarks (p : Play) : List Remark :=
  (misplaced PlayFieldKind.rank none p.fields).map fun (field, key) =>
    ⟨field.position, s!"Section '{field.key}' should appear before '{key}'",
      some "Order host blocks as: hosts, host options, pre_tasks, roles, tasks, post_tasks, handlers"⟩

def playOptionRemarks (p : Play) : List Remark :=
  (unsorted (keysOfKind .option p.fields)).map fun (key, previous, position) =>
    ⟨position, s!"Host option '{key}' should be sorted alphabetically before '{previous}'", none⟩

def hostBlockOrder : Rule where
  id := "host-block-order"
  description :=
    "Host block sections follow the fixed order and host options are sorted alphabetically"
  category := .ordering
  severity := .error
  kinds := [.play]
  remarks _ visit :=
    match visit.part with
    | .play p => playOrderRemarks p ++ playOptionRemarks p
    | _ => []

/-! ### Tasks -/

def taskOrderRemarks (t : Task) : List Remark :=
  (misplaced TaskFieldKind.rank none t.fields).map fun (field, key) =>
    ⟨field.position, s!"Field '{field.key}' should appear before '{key}'",
      some "Order task fields as: name, vars, module, loop, options"⟩

def parameterRemarks (m : ModuleCall) : List Remark :=
  (unsorted ((m.params?.getD []).map fun e => (e.key, e.position))).map
    fun (key, previous, position) =>
      ⟨position,
        s!"Parameter '{key}' of module '{m.name}' should be sorted alphabetically before '{previous}'",
        none⟩

def taskOptionRemarks (t : Task) : List Remark :=
  (unsorted (keysOfKind .option t.fields)).map fun (key, previous, position) =>
    ⟨position, s!"Task option '{key}' should be sorted alphabetically before '{previous}'", none⟩

def taskFieldOrder : Rule where
  id := "task-field-order"
  description :=
    "Task fields follow the order name, vars, module, loop, options; options and module parameters are sorted alphabetically"
  category := .ordering
  severity := .warning
  kinds := [.task]
  remarks _ visit :=
    match visit.part with
    | .task t =>
      taskOrderRemarks t ++ t.module?.toList.flatMap parameterRemarks ++ taskOptionRemarks t
    | _ => []

end PlaybookStyle.Rule
