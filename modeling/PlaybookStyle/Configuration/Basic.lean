/-
Configurations and how they are layered.

A configuration is what one source says: settings, colors and logging. A later
layer is set over an earlier one. Lists of names are joined without repeats;
other settings are taken from the later layer where it differs from the default,
colors and the log format always.
-/

import PlaybookStyle.Setting.Basic

namespace PlaybookStyle

/-- Colors by name. -/
structure Colors where
  enabled : Bool := true
  error : String := "red"
  warning : String := "yellow"
  info : String := "blue"
  location : String := "bright_white"
deriving DecidableEq, Repr

instance : Inhabited Colors := ⟨{}⟩

inductive LogFormat where
  | text
  | json
deriving DecidableEq, Repr, Inhabited

namespace LogFormat

def name : LogFormat → String
  | text => "text"
  | json => "json"

def ofName? : String → Option LogFormat
  | "text" => some text
  | "json" => some json
  | _ => none

end LogFormat

structure Logging where
  level? : Option String := none
  format : LogFormat := .text
deriving DecidableEq, Repr

instance : Inhabited Logging := ⟨{}⟩

structure Configuration where
  settings : Settings := {}
  colors : Colors := {}
  logging : Logging := {}
deriving DecidableEq, Repr

instance : Inhabited Configuration := ⟨{}⟩

/-! ### Layers -/

/-- A list followed by those elements of another that are not there yet. -/
def joined {α : Type} [BEq α] (earlier later : List α) : List α :=
  later.foldl (fun list x => if list.contains x then list else list ++ [x]) earlier

/-- The later value unless it is the default. -/
def preferred {α : Type} [DecidableEq α] (default earlier later : α) : α :=
  if later ≠ default then later else earlier

def Settings.merge (earlier later : Settings) : Settings :=
  let default : Settings := {}
  { skipRules := joined earlier.skipRules later.skipRules
    onlyRules := if later.onlyRules.isEmpty then earlier.onlyRules else later.onlyRules
    skipCategories := joined earlier.skipCategories later.skipCategories
    grades := earlier.grades.overlay later.grades
    minSeverity := preferred default.minSeverity earlier.minSeverity later.minSeverity
    extensions := preferred default.extensions earlier.extensions later.extensions
    failOn := preferred default.failOn earlier.failOn later.failOn
    timeout? := later.timeout?.or earlier.timeout?
    excludePaths := joined earlier.excludePaths later.excludePaths
    vaultMarkers := preferred default.vaultMarkers earlier.vaultMarkers later.vaultMarkers }

def Logging.merge (earlier later : Logging) : Logging where
  level? := later.level?.or earlier.level?
  format := later.format

def Configuration.merge (earlier later : Configuration) : Configuration where
  settings := earlier.settings.merge later.settings
  colors := later.colors
  logging := earlier.logging.merge later.logging

end PlaybookStyle
