/-
The commands, with their arguments.

`check` lints files, `rules` lists the rules, `completions` tells how to set up
a shell. Some options may stand before a command as well as behind it; what
stands behind it counts then.
-/

import PlaybookStyle.CommandLine.Reading
import PlaybookStyle.Configuration.Load

namespace PlaybookStyle.CommandLine

/-- The name of the program. -/
def program : String := "playstyle"

/-- The version of the program. -/
def programVersion : String := "0.1.0"

/-! ### Values -/

/-- A value that may be any text. -/
def anyText {α : Type} (change : String → α → α) : Reader α := fun text => .ok (change text)

/-- A path; it has at least one character. -/
def somePath {α : Type} (change : String → α → α) : Reader α := fun text =>
  if text.isEmpty then .error .empty else .ok (change text)

/-- One of a few words. -/
def oneOf {α β : Type} (words : List (String × β)) (change : β → α → α) : Reader α := fun text =>
  match words.lookup text with
  | some value => .ok (change value)
  | none => .error .unlisted

/-- A word of a setting, refused as a bad setting is. -/
def settingWord {α β : Type} (parse : String → Except UnknownWord β) (change : β → α → α) :
    Reader α := fun text =>
  match parse text with
  | .ok value => .ok (change value)
  | .error word => .error (.refused (Failure.badSetting word.message).text)

/-- A span of time. -/
def someTime {α : Type} (change : Nat → α → α) : Reader α := fun text =>
  match Duration.read text with
  | .ok span => .ok (change span)
  | .error refusal => .error (.refused refusal.message)

/-- The names in a text between commas; some may be empty. -/
def namesOf (text : String) : List String := (Text.pieces ',' text.toList).map String.ofList

/-! ### Options of the whole program -/

inductive Format where
  | human
  | json
deriving DecidableEq, Repr, Inhabited

structure Common where
  verbosity : Nat := 0
  format? : Option Format := none
  config? : Option String := none
  noColor : Bool := false
deriving DecidableEq, Repr

instance : Inhabited Common := ⟨{}⟩

namespace Common

/-- The most that verbosity counts. -/
def maximalVerbosity : Nat := 3

/-- Options before a command, with those behind it over them. -/
def overlay (before behind : Common) : Common where
  verbosity := if behind.verbosity > 0 then behind.verbosity else before.verbosity
  format? := behind.format?.or before.format?
  config? := behind.config?.or before.config?
  noColor := before.noColor || behind.noColor

def switches : List (Switch Common) :=
  [⟨"verbose", some 'v', .count fun c => { c with verbosity := c.verbosity + 1 },
      "Verbosity level (-v, -vv, -vvv)"⟩,
    ⟨"output", none, .value "OUTPUT" false
      (oneOf [("human", .human), ("json", .json)] fun f c => { c with format? := some f }),
      "Output format: human or json"⟩,
    ⟨"config", some 'c', .value "CONFIG" false
      (somePath fun path c => { c with config? := some path }),
      "Path to configuration file"⟩,
    ⟨"no-color", none, .flag fun c => { c with noColor := true }, "Disable colored output"⟩]

end Common

/-- Values for the options of the whole program that the environment has. -/
def fallbacks (environment : Environment) : List (String × String) :=
  ((environment.lookup Configuration.fileVariable).map ("config", ·)).toList

/-! ### Checking files -/

structure CheckArguments where
  paths : List String := []
  enable : List String := []
  disable : List String := []
  /-- Severities for single rules, as they were written. -/
  severities : List String := []
  extensions? : Option ExtensionPolicy := none
  failOn? : Option FailOn := none
  timeout? : Option Nat := none
  exclude : List String := []
deriving DecidableEq, Repr

instance : Inhabited CheckArguments := ⟨{}⟩

/-- What is wrong with a severity for a single rule. -/
inductive SeverityProblem where
  | noLevel (entry : String)
  | badLevel (entry : String) (word : UnknownWord)
deriving DecidableEq, Repr

def SeverityProblem.message : SeverityProblem → String
  | noLevel entry => s!"Invalid severity override '{entry}' (expected rule-id=level)"
  | badLevel entry word =>
    s!"Invalid severity override '{entry}': {(Failure.badSetting word.message).text}"

/-- The rule and the severity that an entry `rule=level` sets. -/
def gradeOf (entry : String) : Except SeverityProblem (String × Severity) :=
  match Text.splitAround ['='] entry.toList with
  | none => .error (.noLevel entry)
  | some (rule, level) =>
    match Severity.parse (String.ofList level) with
    | .ok severity => .ok (String.ofList (Text.trim rule), severity)
    | .error word => .error (.badLevel entry word)

namespace CheckArguments

def switches : List (Switch CheckArguments) :=
  [⟨"enable", none, .value "ENABLE" true
      (anyText fun text a => { a with enable := a.enable ++ namesOf text }),
      "Only run these rules"⟩,
    ⟨"disable", none, .value "DISABLE" true
      (anyText fun text a => { a with disable := a.disable ++ namesOf text }),
      "Skip these rules"⟩,
    ⟨"severity", none, .value "SEVERITY" true
      (anyText fun text a => { a with severities := a.severities ++ [text] }),
      "Override a rule's severity (rule-id=level)"⟩,
    ⟨"extensions", none, .value "EXTENSIONS" false
      (settingWord ExtensionPolicy.parse fun e a => { a with extensions? := some e }),
      "Accepted YAML extensions (yml-only or yml+yaml)"⟩,
    ⟨"fail-on", none, .value "FAIL_ON" false
      (settingWord FailOn.parse fun f a => { a with failOn? := some f }),
      "Lowest severity that fails the run (error, warning or none)"⟩,
    ⟨"timeout", none, .value "TIMEOUT" false
      (someTime fun span a => { a with timeout? := some span }),
      "Per-file evaluation budget (e.g. 5s)"⟩,
    ⟨"exclude", none, .value "EXCLUDE" true
      (anyText fun text a => { a with exclude := a.exclude ++ [text] }),
      "Exclude paths matching this glob pattern"⟩]

def positional : Positional CheckArguments :=
  ⟨"[PATHS]...", true, false, somePath fun path a => { a with paths := a.paths ++ [path] }⟩

/-- The paths to look at: the current directory unless others are given. -/
def inputs (a : CheckArguments) : List String := if a.paths.isEmpty then ["."] else a.paths

/-- Settings with the arguments set over them. Lists become longer, single
settings are taken where they are given. -/
def settings (a : CheckArguments) (base : Settings) : Except SeverityProblem Settings := do
  let grades ← a.severities.mapM gradeOf
  return { base with
    onlyRules := base.onlyRules ++ a.enable
    skipRules := base.skipRules ++ a.disable
    excludePaths := base.excludePaths ++ a.exclude
    grades := base.grades.overlay grades
    extensions := a.extensions?.getD base.extensions
    failOn := a.failOn?.getD base.failOn
    timeout? := a.timeout?.or base.timeout? }

/-- The command alone, without the options of the whole program. -/
def grammar : Grammar CheckArguments where
  command? := some "check"
  switches := switches ++ [helpSwitch]
  positional? := some positional

def parse (arguments : List String) : Except Stop CheckArguments := grammar.read {} arguments

end CheckArguments

/-! ### The other commands -/

structure RulesArguments where
  category? : Option String := none
deriving DecidableEq, Repr

instance : Inhabited RulesArguments := ⟨{}⟩

def RulesArguments.switches : List (Switch RulesArguments) :=
  [⟨"category", none, .value "CATEGORY" false
      (anyText fun text a => { a with category? := some text }),
      "Only list rules of this category"⟩]

inductive Shell where
  | bash
  | elvish
  | fish
  | powershell
  | zsh
deriving DecidableEq, Repr, Inhabited

def Shell.words : List (String × Shell) :=
  [("bash", bash), ("elvish", elvish), ("fish", fish), ("powershell", powershell), ("zsh", zsh)]

structure CompletionsArguments where
  shell? : Option Shell := none
  instructions : Bool := false
deriving DecidableEq, Repr

instance : Inhabited CompletionsArguments := ⟨{}⟩

namespace CompletionsArguments

def switches : List (Switch CompletionsArguments) :=
  [⟨"instructions", none, .flag fun a => { a with instructions := true },
      "Print installation instructions instead of the script"⟩]

def positional : Positional CompletionsArguments :=
  ⟨"<SHELL>", false, true, oneOf Shell.words fun shell a => { a with shell? := some shell }⟩

end CompletionsArguments

/-! ### The program -/

inductive Command where
  | check (arguments : CheckArguments)
  | rules (arguments : RulesArguments)
  | completions (arguments : CompletionsArguments)
deriving DecidableEq, Repr, Inhabited

structure Invocation where
  common : Common
  command : Command
deriving DecidableEq, Repr, Inhabited

/-- The commands of the program; the last one tells about the others. -/
def commandNames : List String := ["check", "rules", "completions", "help"]

def programGrammar (environment : Environment) : Grammar Common where
  command? := none
  commands := commandNames
  switches := Common.switches ++ [helpSwitch, versionSwitch]
  fallbacks := fallbacks environment

/-- The grammar of a command, with the options of the whole program. -/
def commandGrammar {α : Type} (environment : Environment) (name : String)
    (switches : List (Switch α)) (positional? : Option (Positional α)) :
    Grammar (Common × α) where
  command? := some name
  switches :=
    switches.map (·.within fun change pair => (pair.1, change pair.2)) ++
      Common.switches.map (·.within fun change pair => (change pair.1, pair.2)) ++
      [helpSwitch, versionSwitch]
  positional? := positional?.map (·.within fun change pair => (pair.1, change pair.2))
  fallbacks := fallbacks environment

/-- What `help` is asked for: the program, or a command by its name. -/
def helpFor : List String → Stop
  | [] => .help none
  | name :: rest =>
    if commandNames.contains name then
      match rest with
      | [] => .help (some name)
      | unknown :: _ => .problem (.unknownCommand unknown)
    else .problem (.unknownCommand name)

/-- Reads a command with its arguments. -/
def readCommand (environment : Environment) (name : String) (arguments : List String) :
    Except Stop (Common × Command) :=
  let grammar {α : Type} := @commandGrammar α environment name
  match name with
  | "check" => do
    let (common, a) ←
      (grammar CheckArguments.switches (some CheckArguments.positional)).read ({}, {}) arguments
    return (common, .check a)
  | "rules" => do
    let (common, a) ← (grammar RulesArguments.switches none).read ({}, {}) arguments
    return (common, .rules a)
  | "completions" => do
    let (common, a) ←
      (grammar CompletionsArguments.switches (some CompletionsArguments.positional)).read
        ({}, {}) arguments
    return (common, .completions a)
  | _ => .error (helpFor arguments)

/-- What the arguments of the program ask for. -/
def Invocation.parse (environment : Environment) (arguments : List String) :
    Except Stop Invocation := do
  let grammar := programGrammar environment
  let (r, command?) ← Reading.read { value := {} } grammar arguments
  match command? with
  | some (name, rest) =>
    let (behind, command) ← readCommand environment name rest
    let r ← r.finish grammar
    return ⟨r.value.overlay behind, command⟩
  | none =>
    let r ← r.finish grammar
    if r.given.isEmpty && grammar.fallbacks.isEmpty then throw .nothing
    else throw (.problem (.missingCommand program))

/-- The help for the program or for one of its commands. -/
def helpText (command? : Option String) : List String :=
  match command? with
  | some "check" =>
    (commandGrammar [] "check" CheckArguments.switches (some CheckArguments.positional)).help program
  | some "rules" => (commandGrammar [] "rules" RulesArguments.switches none).help program
  | some "completions" =>
    (commandGrammar [] "completions" CompletionsArguments.switches
      (some CompletionsArguments.positional)).help program
  | _ => (programGrammar []).help program

end PlaybookStyle.CommandLine
