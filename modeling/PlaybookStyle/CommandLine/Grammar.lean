/-
Which arguments a command takes, and what each does.

A command changes a value of its own type `α` by every argument it is given. An
option is written `--long`, `--long=value`, `--long value` or, with a letter,
`-l`, `-lvalue`, `-l=value`; what stands alone is a positional argument or a
command.
-/

import PlaybookStyle.Text.Search

namespace PlaybookStyle.CommandLine

/-! ### What can be wrong -/

/-- What is wrong with a list of arguments. -/
inductive Problem where
  | unknownArgument (text : String)
  | unknownCommand (name : String)
  /-- Given twice, but allowed once. -/
  | repeated (argument : String)
  | missingValue (argument : String)
  /-- A value that is none of the few that are possible. -/
  | unlistedValue (value argument : String)
  | refusedValue (value argument reason : String)
  /-- A value for an option that takes none. -/
  | unwantedValue (value argument : String)
  | missingArgument (argument : String)
  | missingCommand (program : String)
deriving DecidableEq, Repr

def Problem.message : Problem → String
  | unknownArgument text => s!"unexpected argument '{text}' found"
  | unknownCommand name => s!"unrecognized subcommand '{name}'"
  | repeated argument => s!"the argument '{argument}' cannot be used multiple times"
  | missingValue argument => s!"a value is required for '{argument}' but none was supplied"
  | unlistedValue value argument => s!"invalid value '{value}' for '{argument}'"
  | refusedValue value argument reason => s!"invalid value '{value}' for '{argument}': {reason}"
  | unwantedValue value argument =>
    s!"unexpected value '{value}' for '{argument}' found; no more were expected"
  | missingArgument argument =>
    "the following required arguments were not provided:\n  " ++ argument
  | missingCommand program => s!"'{program}' requires a subcommand but one was not provided"

/-- What a value is found to be, other than right. -/
inductive Objection where
  | empty
  | unlisted
  | refused (reason : String)
deriving DecidableEq, Repr

def Objection.problem (objection : Objection) (value argument : String) : Problem :=
  match objection with
  | empty => .missingValue argument
  | unlisted => if value.isEmpty then .missingValue argument else .unlistedValue value argument
  | refused reason => .refusedValue value argument reason

/-- Why a command is not carried out. Help and versions are those of a command,
or of the program. -/
inductive Stop where
  | help (command? : Option String)
  | version (command? : Option String)
  /-- There is nothing to go by. -/
  | nothing
  | problem (problem : Problem)
deriving DecidableEq, Repr

/-! ### Options and positional arguments -/

/-- Reads a value; gives the change that it stands for. -/
abbrev Reader (α : Type) : Type := String → Except Objection (α → α)

inductive Action (α : Type) where
  | help
  | version
  /-- Given at most once. -/
  | flag (change : α → α)
  /-- Given any number of times. -/
  | count (change : α → α)
  /-- With a value, which usage calls by the name of its place. -/
  | value (place : String) (repeatable : Bool) (read : Reader α)

/-- An option. -/
structure Switch (α : Type) where
  long : String
  letter? : Option Char := none
  action : Action α
  about : String

/-- An option as messages show it. -/
def Switch.shown {α : Type} (s : Switch α) : String :=
  match s.action with
  | .value place _ _ => s!"--{s.long} <{place}>"
  | .count _ => s!"--{s.long}..."
  | _ => s!"--{s.long}"

/-- What stands alone. -/
structure Positional (α : Type) where
  shown : String
  repeatable : Bool
  required : Bool
  read : Reader α

structure Grammar (α : Type) where
  /-- The command, unless it is the whole program. -/
  command? : Option String
  /-- The commands that may follow. -/
  commands : List String := []
  switches : List (Switch α)
  positional? : Option (Positional α) := none
  /-- Values for options, by long name, to be read where the option is not given. -/
  fallbacks : List (String × String) := []

def helpSwitch {α : Type} : Switch α := ⟨"help", some 'h', .help, "Print help"⟩

def versionSwitch {α : Type} : Switch α := ⟨"version", some 'V', .version, "Print version"⟩

/-! ### Parts of a larger value -/

variable {α β : Type}

/-- A reader for a part of a value, given how to change the part. -/
def Reader.within (lift : (α → α) → β → β) (read : Reader α) : Reader β := fun text =>
  (read text).map lift

def Action.within (lift : (α → α) → β → β) : Action α → Action β
  | help => .help
  | version => .version
  | flag change => .flag (lift change)
  | count change => .count (lift change)
  | value place repeatable read => .value place repeatable (Reader.within lift read)

def Switch.within (lift : (α → α) → β → β) (s : Switch α) : Switch β :=
  ⟨s.long, s.letter?, s.action.within lift, s.about⟩

def Positional.within (lift : (α → α) → β → β) (p : Positional α) : Positional β :=
  ⟨p.shown, p.repeatable, p.required, Reader.within lift p.read⟩

/-! ### Help -/

/-- The help for a command of a program: its usage and its options. -/
def Grammar.help (g : Grammar α) (program : String) : List String :=
  let name := " ".intercalate (program :: g.command?.toList)
  let behind := (g.positional?.map Positional.shown).toList ++
    if g.commands.isEmpty then [] else ["<COMMAND>"]
  let left (s : Switch α) : String :=
    match s.letter? with
    | some letter => s!"-{letter}, {s.shown}"
    | none => "    " ++ s.shown
  let width := g.switches.foldl (fun width s => max width (left s).length) 0
  let line (s : Switch α) : String :=
    "  " ++ left s ++ "".pushn ' ' (width - (left s).length) ++ "  " ++ s.about
  let commands := if g.commands.isEmpty then [] else
    ["", "Commands:"] ++ g.commands.map fun command => "  " ++ command
  ["Usage: " ++ " ".intercalate (name :: "[OPTIONS]" :: behind)] ++ commands ++
    ["", "Options:"] ++ g.switches.map line

end PlaybookStyle.CommandLine
