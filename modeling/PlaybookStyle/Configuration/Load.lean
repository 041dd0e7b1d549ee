/-
Loading a configuration from its sources.

The sources are files, each set over the one before, and then the environment.
A file that is asked for has to be there and is the only one; other files may be
missing. The format of a file is told by its extension, or else found out.
-/

import PlaybookStyle.Configuration.Decode
import PlaybookStyle.Files.Tree
import PlaybookStyle.Finding.Failure
import PlaybookStyle.Json.Read
import PlaybookStyle.Toml.Read
import PlaybookStyle.Yaml.Referring

namespace PlaybookStyle

open Files

/-- The variables of an environment. -/
abbrev Environment : Type := List (String × String)

namespace Configuration

/-- The variable that names a configuration file. -/
def fileVariable : String := "PLAYSTYLE_CONFIG"

/-- The variables that are looked at. -/
def variableNames : List String :=
  ["HOME", "XDG_CONFIG_HOME", fileVariable, "PLAYSTYLE_FAIL_ON", "PLAYSTYLE_EXTENSIONS",
    "PLAYSTYLE_TIMEOUT", "PLAYSTYLE_MIN_SEVERITY", "PLAYSTYLE_NO_COLOR", "NO_COLOR"]

/-- Why there is no configuration. -/
inductive Problem where
  | missing (path : String)
  | unreadable (path : String) (fault : Fault)
  | unparsable (path : String)
  /-- A variable that holds what no setting can be. -/
  | badVariable (name : String) (reason : String)
deriving DecidableEq, Repr

def Problem.message : Problem → String
  | missing path => s!"Config file not found: {path}"
  | unreadable path fault => s!"Failed to read config file: {path}: {fault.message}"
  | unparsable path => s!"Failed to parse config file: {path}"
  | badVariable name reason => s!"Invalid {name}: {reason}"

/-! ### Files -/

/-- The configuration that the content of a file says. -/
def ofContent? (path content : String) : Option Configuration :=
  let toml := (Toml.read? content).bind ofValue?
  let yaml := (Yaml.Referring.read? content).bind ofValue?
  match Path.extension? path with
  | some "yml" | some "yaml" => yaml
  | some "json" => (Json.read? content).bind ofValue?
  | some "toml" => toml
  | _ => toml.or yaml

/-- The directory of a user's configuration files: a rooted one that the
environment names, or one in the user's home. -/
def userDirectory? (environment : Environment) : Option String :=
  match environment.lookup "XDG_CONFIG_HOME" with
  | some directory =>
    if Text.startsWith directory "/" then some directory else home?
  | none => home?
where
  home? := ((environment.lookup "HOME").filter (!·.isEmpty)).map (Path.join · ".config")

/-- The files to look at, the most general first. -/
def sources (asked? : Option String) (environment : Environment) : List String :=
  match asked? with
  | some path => [path]
  | none =>
    ["/etc/playstyle/playstyle.toml"] ++
      (userDirectory? environment).toList.map (Path.join · "playstyle/playstyle.toml") ++
      ["playstyle.toml", ".playstyle.toml"] ++
      (environment.lookup fileVariable).toList

/-- The configuration with the file at a path set over it, if there is one. -/
def mergeFile (disk : Disk) (configuration : Configuration) (path : String) :
    Except Problem Configuration :=
  if disk.exists? path then
    match disk.read path with
    | .error fault => .error (.unreadable path fault)
    | .ok content =>
      match ofContent? path content with
      | some layer => .ok (configuration.merge layer)
      | none => .error (.unparsable path)
  else .ok configuration

/-! ### The environment -/

/-- The setting that a variable names, if it is set. -/
def overrideOf? {α : Type} (environment : Environment) (name : String)
    (read : String → Except String α) : Except Problem (Option α) :=
  match environment.lookup name with
  | none => .ok none
  | some text =>
    match read text with
    | .ok value => .ok (some value)
    | .error reason => .error (.badVariable name reason)

/-- Reads a word; the reason why it cannot be is that of a bad setting. -/
def wordOr {α : Type} (parse : String → Except UnknownWord α) (text : String) :
    Except String α :=
  (parse text).mapError fun word => (Failure.badSetting word.message).text

/-- The configuration with the environment set over it. -/
def mergeEnvironment (c : Configuration) (environment : Environment) :
    Except Problem Configuration := do
  let failOn? ← overrideOf? environment "PLAYSTYLE_FAIL_ON" (wordOr FailOn.parse)
  let extensions? ← overrideOf? environment "PLAYSTYLE_EXTENSIONS" (wordOr ExtensionPolicy.parse)
  let timeout? ← overrideOf? environment "PLAYSTYLE_TIMEOUT" fun text =>
    (Duration.read text).mapError Duration.Refusal.message
  let minSeverity? ← overrideOf? environment "PLAYSTYLE_MIN_SEVERITY" (wordOr Severity.parse)
  let plain := ["NO_COLOR", "PLAYSTYLE_NO_COLOR"].any fun name =>
    (environment.lookup name).isSome
  return { c with
    settings := { c.settings with
      failOn := failOn?.getD c.settings.failOn
      extensions := extensions?.getD c.settings.extensions
      timeout? := timeout?.or c.settings.timeout?
      minSeverity := minSeverity?.getD c.settings.minSeverity }
    colors := { c.colors with enabled := c.colors.enabled && !plain } }

/-- The configuration from all sources; `asked?` is the only file if it is given. -/
def load (disk : Disk) (environment : Environment) (asked? : Option String) :
    Except Problem Configuration := do
  match asked?.filter (!disk.exists? ·) with
  | some path => throw (.missing path)
  | none =>
    let configuration ← (sources asked? environment).foldlM (mergeFile disk) {}
    configuration.mergeEnvironment environment

end Configuration

end PlaybookStyle
