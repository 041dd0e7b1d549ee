/-
Which file extensions count as canonical for YAML files.
-/

import PlaybookStyle.Path
import PlaybookStyle.Setting.Severity

namespace PlaybookStyle

open Text

inductive ExtensionPolicy where
  | ymlOnly
  | ymlYaml
deriving DecidableEq, Repr, Inhabited

namespace ExtensionPolicy

/-- The accepted extensions, the preferred one first. -/
def allowed : ExtensionPolicy → List String
  | ymlOnly => ["yml"]
  | ymlYaml => ["yml", "yaml"]

/-- The extension to suggest. -/
def preferred (_ : ExtensionPolicy) : String := "yml"

/-- The policy with exactly this name. -/
def ofName? : String → Option ExtensionPolicy
  | "yml-only" => some ymlOnly
  | "yml-yaml" | "yml+yaml" => some ymlYaml
  | _ => none

def parse (text : String) : Except UnknownWord ExtensionPolicy :=
  match lower (trimmed text) with
  | "yml" | "yml-only" => .ok ymlOnly
  | "yml+yaml" | "yml-yaml" | "yaml" => .ok ymlYaml
  | word => .error (.extensions word)

/-- The path has an accepted extension. -/
def accepts (policy : ExtensionPolicy) (path : String) : Bool :=
  (Path.extension? path).any policy.allowed.contains

end ExtensionPolicy

end PlaybookStyle
