/-
Reports: the findings about a number of files.

Reports are merged in any order and sorted once. Sorting is stable and drops a
finding that equals the one before it; paths are compared as paths. A report
tells how a run ends: badly if a file could not be looked at, with a failure if
a finding reaches the threshold, well in every other case.
-/

import PlaybookStyle.Finding.Failure
import PlaybookStyle.Json.Written
import PlaybookStyle.Path.Sorted

namespace PlaybookStyle

structure Report where
  diagnostics : List Diagnostic
  /-- The files that were looked at, the failed ones among them. -/
  files : List String
  failed : List String
  plays : Nat
  tasks : Nat
deriving DecidableEq, Repr, Inhabited

namespace Report

def empty : Report := ⟨[], [], [], 0, 0⟩

/-- The report on a file that could not be looked at. -/
def ofFailure (path : String) (failure : Failure) : Report :=
  ⟨[failure.toDiagnostic path], [path], [path], 0, 0⟩

/-! ### Putting reports together -/

def add (r : Report) (diagnostics : List Diagnostic) : Report :=
  { r with diagnostics := r.diagnostics ++ diagnostics }

def merge (a b : Report) : Report where
  diagnostics := a.diagnostics ++ b.diagnostics
  files := a.files ++ b.files
  failed := a.failed ++ b.failed
  plays := a.plays + b.plays
  tasks := a.tasks + b.tasks

theorem merge_assoc (a b c : Report) : (a.merge b).merge c = a.merge (b.merge c) := by
  simp [merge, Nat.add_assoc]

def sortedDiagnostics (diagnostics : List Diagnostic) : List Diagnostic :=
  dropRepeats Diagnostic.same (diagnostics.mergeSort Diagnostic.notAfter)

/-- The report in its order, without repeats. -/
def sorted (r : Report) : Report :=
  { r with
    diagnostics := sortedDiagnostics r.diagnostics
    files := Path.sorted r.files
    failed := Path.sorted r.failed }

/-! ### What a report tells -/

def count (r : Report) (severity : Severity) : Nat :=
  r.diagnostics.countP (·.severity = severity)

def hasErrors (r : Report) : Bool := r.diagnostics.any (·.severity = .error)

/-- The exit code of a run with this report. -/
def exitCode (r : Report) (failOn : FailOn) : Nat :=
  if !r.failed.isEmpty then 2
  else if r.diagnostics.any fun d => failOn.fails d.severity then 1
  else 0

def summary (r : Report) : String :=
  let failed := if r.failed.isEmpty then "" else s!", {r.failed.length} file(s) failed"
  s!"Analyzed {r.files.length} file(s), {r.plays} play(s), {r.tasks} task(s): " ++
    s!"{r.count .error} error(s), {r.count .warning} warning(s), {r.count .info} info" ++ failed

/-- One line for every finding. -/
def lines (r : Report) : List String := r.diagnostics.map Diagnostic.text

end Report

/-- A finding as a JSON object on one line. -/
def Diagnostic.json (d : Diagnostic) : String :=
  Json.writtenObject
    [("file", Json.writtenString d.file),
      ("line", toString d.position.line),
      ("column", toString d.position.column),
      ("rule_id", Json.writtenString d.rule),
      ("severity", Json.writtenString d.severity.name),
      ("category", Json.writtenString d.category.name),
      ("message", Json.writtenString d.message),
      ("suggestion", (d.suggestion?.map Json.writtenString).getD "null")]

def Report.jsonLines (r : Report) : List String := r.diagnostics.map Diagnostic.json

end PlaybookStyle
