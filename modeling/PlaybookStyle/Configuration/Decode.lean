/-
From a value of any format to a configuration.

Every field may be missing and unknown fields are passed over; a known field has
to hold what belongs there, or the whole is no configuration.
-/

import PlaybookStyle.Configuration.Basic
import PlaybookStyle.Configuration.Readable
import PlaybookStyle.Duration

namespace PlaybookStyle.Configuration

variable {α : Type} [Readable α]

/-- A span of time as a text. -/
def duration? (value : α) : Option Nat := do
  let text ← text? value
  (Duration.parse text).toOption

/-- The fields of settings, in the order of a list. -/
def settingsFields : List String :=
  ["skip_rules", "only_rules", "skip_categories", "severity_overrides", "min_severity",
    "extensions", "fail_on", "timeout", "exclude_paths", "vault_markers"]

def settings? (value : α) : Option Settings := do
  let fields ← fields? settingsFields value
  let default : Settings := {}
  let grades ← field fields "severity_overrides" (table? (word? Severity.ofName?)) []
  return {
    skipRules := ← field fields "skip_rules" (list? text?) default.skipRules
    onlyRules := ← field fields "only_rules" (list? text?) default.onlyRules
    skipCategories :=
      ← field fields "skip_categories" (list? (word? Category.ofName?)) default.skipCategories
    grades := Grades.ofList grades
    minSeverity := ← field fields "min_severity" (word? Severity.ofName?) default.minSeverity
    extensions := ← field fields "extensions" (word? ExtensionPolicy.ofName?) default.extensions
    failOn := ← field fields "fail_on" (word? FailOn.ofName?) default.failOn
    timeout? := ← field fields "timeout" (optional? duration?) default.timeout?
    excludePaths := ← field fields "exclude_paths" (list? text?) default.excludePaths
    vaultMarkers := ← field fields "vault_markers" (list? text?) default.vaultMarkers }

def colors? (value : α) : Option Colors := do
  let fields ← fields? ["enabled", "error", "warning", "info", "location"] value
  let default : Colors := {}
  return {
    enabled := ← field fields "enabled" boolean? default.enabled
    error := ← field fields "error" text? default.error
    warning := ← field fields "warning" text? default.warning
    info := ← field fields "info" text? default.info
    location := ← field fields "location" text? default.location }

def logging? (value : α) : Option Logging := do
  let fields ← fields? ["level", "format"] value
  return {
    level? := ← field fields "level" (optional? text?) none
    format := ← field fields "format" (word? LogFormat.ofName?) .text }

/-- The configuration that a value says. -/
def ofValue? (value : α) : Option Configuration := do
  let fields ← fields? ["lint", "colors", "logging"] value
  return {
    settings := ← field fields "lint" settings? {}
    colors := ← field fields "colors" colors? {}
    logging := ← field fields "logging" logging? {} }

end PlaybookStyle.Configuration
