/-
Parameters of modules and roles are block mappings.

A module that takes a command line may have it as a text, but not options of its
own among the words; every other module has no text at all.
-/

import PlaybookStyle.Rule.Basic
import PlaybookStyle.Playbook.Kind

namespace PlaybookStyle.Rule

open Playbook Text

/-- Modules whose argument is a command line. -/
def commandModules : List String :=
  ["command", "shell", "raw", "script", "win_command", "win_shell", "meta"]

/-- Options of such a module that may hide in the command line. -/
def commandOptions : List String :=
  ["chdir=", "creates=", "removes=", "executable=", "warn=", "stdin=", "argv="]

/-- The text of a module's arguments should be a mapping. -/
def isInlineArgument (takesCommand : Bool) (args : Scalar) : Bool :=
  if args.style = .flow then true
  else if takesCommand then commandOptions.any (contains args.text)
  else trim args.text.toList ≠ []

def moduleRemark? (m : ModuleCall) : Option Remark :=
  match m.args with
  | .scalar args =>
    let takesCommand := commandModules.contains (shortModuleName m.name)
    if isInlineArgument takesCommand args then
      let message :=
        if takesCommand then
          s!"Options of module '{m.name}' should be given under 'args' as a multi-line mapping"
        else
          s!"Parameters of module '{m.name}' should be a multi-line mapping, not an inline string"
      some ⟨args.position, message, some "Put each parameter on its own line as 'key: value'"⟩
    else none
  | _ => none

def roleRemark? (r : Role) : Option Remark :=
  if r.form = .flow then
    let name := (r.name?.map (·.text)).getD "role"
    some ⟨(r.flow?.map (·.position)).getD r.position,
      s!"Parameters of role '{name}' should be a multi-line mapping",
      some "Use '- role: name' followed by one parameter per line"⟩
  else none

def mapSyntax : Rule where
  id := "map-syntax"
  description :=
    "Module and role parameters are written as multi-line mappings, not inline strings"
  category := .syntaxCheck
  severity := .error
  kinds := [.module, .role]
  remarks _ visit :=
    match visit.part with
    | .module m => (moduleRemark? m).toList
    | .role r => (roleRemark? r).toList
    | _ => []

end PlaybookStyle.Rule
