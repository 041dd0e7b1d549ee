/-
Linters: settings together with a registry that has every rule they name.

`Linter.findings` puts the rules of the registry to every part of a playbook, in
the order of the walk, and grades and selects what they say. `Linter.check` does
so for the content of a file and makes it a sorted report; `Linter.lint` makes a
failure a report too.
-/

import PlaybookStyle.Playbook.Load
import PlaybookStyle.Report
import PlaybookStyle.Rule.Registry

namespace PlaybookStyle

open Playbook

/-! ### Findings of a rule -/

/-- What a rule says about a file, as a finding. -/
def Rule.finding (rule : Rule) (settings : Settings) (path : String) (remark : Remark) :
    Diagnostic where
  file := path
  position := remark.position
  rule := rule.id
  severity := settings.severityOf rule.id rule.severity
  category := rule.category
  message := remark.message
  suggestion? := remark.suggestion?

/-- The reported findings of a rule at one visit, if it runs. -/
def Rule.findings (rule : Rule) (settings : Settings) (path : String) (visit : Visit) :
    List Diagnostic :=
  if settings.runs rule.id rule.category then
    ((rule.remarks settings.conventions visit).map (rule.finding settings path)).filter
      fun finding => settings.reports finding.severity
  else []

/-- The reported findings of all rules at one visit. -/
def Registry.findingsAt (registry : Registry) (settings : Settings) (path : String)
    (visit : Visit) : List Diagnostic :=
  (registry.rulesFor visit.part.kind).flatMap fun rule => rule.findings settings path visit

/-- The reported findings about a playbook in the order of the walk. -/
def Registry.findings (registry : Registry) (settings : Settings) (playbook : Playbook) :
    List Diagnostic :=
  playbook.visits.flatMap (registry.findingsAt settings playbook.path)

/-! ### Linters -/

structure Linter where
  settings : Settings
  registry : Registry
  /-- Every rule that the settings name is registered. -/
  known : ∀ id ∈ settings.namedRules, registry.contains id

namespace Linter

/-- The linter for a registry; refused for the first name that is not in it. -/
def of (settings : Settings) (registry : Registry) : Except Failure Linter :=
  match h : settings.namedRules.find? (!registry.contains ·) with
  | some id => .error (.unknownRule id)
  | none =>
    .ok ⟨settings, registry, fun id hid => by simpa using List.find?_eq_none.1 h id hid⟩

/-- The linter with the built-in rules. -/
def ofSettings (settings : Settings) : Except Failure Linter := of settings .builtin

/-- The report on the content of a file, or why it is no playbook. -/
def check (linter : Linter) (path content : String) : Except Failure Report :=
  match Playbook.load path content with
  | .error failure => .error failure
  | .ok playbook =>
    let findings := linter.registry.findings linter.settings playbook
    .ok (Report.sorted ⟨findings, [path], [], playbook.playCount, playbook.taskCount⟩)

/-- The report on the content of a file; a failure is reported as a finding. -/
def lint (linter : Linter) (path content : String) : Report :=
  match linter.check path content with
  | .ok report => report
  | .error failure => .ofFailure path failure

end Linter

end PlaybookStyle
