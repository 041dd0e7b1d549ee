/-
Failures: why a file, a configuration or a registry could not be used.

A failure that concerns one file is reported as a finding of that file, under a
rule name of its own; the finding of a file that was read but not understood
leaves the path out of its message, because it already names the file.
-/

import PlaybookStyle.Duration
import PlaybookStyle.Finding.Diagnostic

namespace PlaybookStyle

inductive Failure where
  | unreadable (path message : String)
  /-- The text is not YAML. -/
  | unparsable (path message : String) (line? column? : Option Nat)
  /-- The text is YAML and no playbook. -/
  | malformed (path message : String) (line? : Option Nat)
  | duplicateRule (id : String)
  | unknownRule (id : String)
  | badSetting (message : String)
  | timedOut (path : String) (after : Nat)
  | aborted (path message : String)
deriving DecidableEq, Repr

namespace Failure

/-- The failure in words. -/
def text : Failure → String
  | unreadable path message => s!"Failed to read file '{path}': {message}"
  | unparsable path message _ _ => s!"YAML parsing error in '{path}': {message}"
  | malformed path message _ => s!"Malformed playbook '{path}': {message}"
  | duplicateRule id => s!"Duplicate rule id '{id}'"
  | unknownRule id => s!"Unknown rule id '{id}'"
  | badSetting message => s!"Rule configuration error: {message}"
  | timedOut path after => s!"Linting '{path}' timed out after {Duration.text after}"
  | aborted path message => s!"Internal error while linting '{path}': {message}"

/-- Only one file is concerned. -/
def isPerFile : Failure → Bool
  | unreadable .. | unparsable .. | malformed .. | timedOut .. | aborted .. => true
  | duplicateRule _ | unknownRule _ | badSetting _ => false

/-- The rule name under which a failure is reported. -/
def rule : Failure → String
  | unreadable .. => "read-error"
  | unparsable .. => "parse-error"
  | malformed .. => "malformed-playbook"
  | timedOut .. => "timeout"
  | aborted .. => "internal-error"
  | duplicateRule _ | unknownRule _ | badSetting _ => "configuration"

/-- The message of the finding. -/
def message : Failure → String
  | unreadable _ message => message
  | unparsable _ message _ _ => message
  | malformed _ message _ => message
  | failure => failure.text

/-- Where the finding stands; what is not known is one. -/
def position : Failure → Position
  | unparsable _ _ line? column? => ⟨line?.getD 1, column?.getD 1⟩
  | malformed _ _ line? => ⟨line?.getD 1, 1⟩
  | _ => .start

/-- The finding that reports a failure for a file. -/
def toDiagnostic (failure : Failure) (file : String) : Diagnostic where
  file := file
  position := failure.position
  rule := failure.rule
  severity := .error
  category := .syntaxCheck
  message := failure.message
  suggestion? := none

end Failure

end PlaybookStyle
