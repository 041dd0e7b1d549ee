/-
Sessions: what a call of the program prints and how it ends.

A session sees a disk, an environment and arguments. It ends with 0 if all is
well, with 1 if findings make the run fail, and with 2 if something could not be
done.
-/

import PlaybookStyle.CommandLine.Completions
import PlaybookStyle.Files.Discovery
import PlaybookStyle.Output.Printer
import PlaybookStyle.Run

namespace PlaybookStyle.CommandLine

/-- What a call prints, and its exit code. Messages may tell how long it took. -/
structure Outcome where
  code : Nat
  output : List String := []
  messages : String → List String := fun _ => []

instance : Inhabited Outcome := ⟨{ code := 0 }⟩

/-- The exit code of a call that could not be carried out. -/
def failureCode : Nat := 2

/-- Where a call happens. -/
structure Surroundings where
  disk : Disk
  environment : Environment
  /-- The output goes to a terminal. -/
  terminal : Bool

/-! ### Arguments that are not carried out -/

/-- The name of the program with a command. -/
def fullName (command? : Option String) : String := "-".intercalate (program :: command?.toList)

def Stop.outcome : Stop → Outcome
  | help command? => { code := 0, output := helpText command? }
  | version command? => { code := 0, output := [s!"{fullName command?} {programVersion}"] }
  | nothing => { code := failureCode, messages := fun _ => helpText none }
  | problem p =>
    { code := failureCode
      messages := fun _ => ["error: " ++ p.message, "", "For more information, try '--help'."] }

/-! ### Commands -/

/-- The linter for settings and the files it is to look at, or why there are none. -/
def CheckArguments.plan (a : CheckArguments) (base : Settings) (disk : Disk) :
    Except String (Linter × List String) := do
  let settings ← (a.settings base).mapError SeverityProblem.message
  let linter ← (Linter.ofSettings settings).mapError Failure.text
  let files ← ((Files.Discovery.ofSettings settings).bind (·.files disk a.inputs)).mapError
    Failure.text
  return (linter, files)

/-- Lints the files and prints what was found. -/
def CheckArguments.outcome (a : CheckArguments) (base : Settings) (printer : Output.Printer)
    (disk : Disk) : Outcome :=
  match a.plan base disk with
  | .error message => { code := failureCode, messages := fun _ => [printer.error message] }
  | .ok (_, []) => { code := 0, messages := fun _ => [printer.warning "No playbook files found"] }
  | .ok (linter, files) =>
    let report := linter.run disk files
    let started := printer.info
      s!"Linting {files.length} file(s) with {linter.registry.rules.length} rule(s)"
    { code := report.exitCode linter.settings.failOn
      output := printer.findings report
      messages := fun elapsed => started ++ [printer.summary report elapsed] }

/-- A rule as a JSON object. -/
def ruleLine (settings : Settings) (rule : Rule) : String :=
  Json.writtenObject
    [("category", Json.writtenString rule.category.name),
      ("description", Json.writtenString rule.description),
      ("enabled", toString (settings.runs rule.id rule.category)),
      ("id", Json.writtenString rule.id),
      ("severity", Json.writtenString (settings.severityOf rule.id rule.severity).name)]

/-- A rule as a row of a table. -/
def ruleRow (settings : Settings) (rule : Rule) : List String :=
  let severity := (settings.severityOf rule.id rule.severity).name
  let mark := if settings.runs rule.id rule.category then "" else " (off)"
  [rule.id, rule.category.name, severity ++ mark, rule.description]

/-- Lists the built-in rules, all or those of a category. -/
def RulesArguments.outcome (a : RulesArguments) (settings : Settings) (printer : Output.Printer) :
    Outcome :=
  let rules := Registry.builtin.rules.filter fun rule =>
    a.category?.all fun category => rule.category.name == Text.lower category
  let output :=
    if printer.json then rules.map (ruleLine settings)
    else printer.table ["RULE", "CATEGORY", "SEVERITY", "DESCRIPTION"]
      (rules.map (ruleRow settings))
  { code := 0, output }

def CompletionsArguments.outcome (a : CompletionsArguments) : Outcome :=
  match a.shell? with
  | some shell => { code := 0, output := if a.instructions then shell.instructions else shell.script }
  | none => Stop.outcome (.problem (.missingArgument CompletionsArguments.positional.shown))

/-! ### The whole call -/

/-- The printer for a call. -/
def printerFor (s : Surroundings) (common : Common) (colors : Colors) : Output.Printer :=
  .of (s.terminal && !common.noColor && colors.enabled) (common.format? == some .json)
    (min common.verbosity Common.maximalVerbosity) colors s.environment

/-- The configuration file that is asked for. -/
def askedFile? (environment : Environment) (common : Common) : Option String :=
  common.config?.or (environment.lookup Configuration.fileVariable)

/-- Carries out a call. -/
def Invocation.outcome (i : Invocation) (s : Surroundings) : Outcome :=
  match Configuration.load s.disk s.environment (askedFile? s.environment i.common) with
  | .error problem =>
    { code := failureCode
      messages := fun _ => ["ERROR: Failed to load config: " ++ problem.message] }
  | .ok configuration =>
    let printer := printerFor s i.common configuration.colors
    match i.command with
    | .check a => a.outcome configuration.settings printer s.disk
    | .rules a => a.outcome configuration.settings printer
    | .completions a => a.outcome

/-- The paths that a call looks at, or that what it looks at is below. -/
def pathsInView (environment : Environment) (arguments : List String) : List String :=
  match Invocation.parse environment arguments with
  | .error _ => []
  | .ok i =>
    let inputs := match i.command with
      | .check a => a.inputs.map Files.Discovery.base
      | _ => []
    Configuration.sources (askedFile? environment i.common) environment ++ inputs

/-- What a call of the program with these arguments does. -/
def session (s : Surroundings) (arguments : List String) : Outcome :=
  match Invocation.parse s.environment arguments with
  | .error stop => stop.outcome
  | .ok invocation => invocation.outcome s

end PlaybookStyle.CommandLine
