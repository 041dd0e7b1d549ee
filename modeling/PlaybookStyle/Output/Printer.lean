/-
What is printed: findings and tables on one stream, messages on the other.

A printer writes for people or as JSON lines, painted or plain. Every function
gives the lines to print; nothing is printed here.
-/

import PlaybookStyle.Configuration.Basic
import PlaybookStyle.Output.Paint
import PlaybookStyle.Output.Table
import PlaybookStyle.Report

namespace PlaybookStyle.Output

structure Printer where
  painted : Bool
  json : Bool
  verbosity : Nat
  colors : Colors
deriving DecidableEq, Repr, Inhabited

namespace Printer

/-- The printer for an environment: a variable can forbid paint. -/
def of (painted json : Bool) (verbosity : Nat) (colors : Colors)
    (environment : List (String × String)) : Printer where
  painted := painted && (environment.lookup "NO_COLOR").isNone
  json := json
  verbosity := verbosity
  colors := colors

/-- A text in a style, if the printer paints. -/
def paint (p : Printer) (hue : Hue) (bold : Bool) (text : String) : String :=
  if p.painted then Style.paint ⟨⟨hue, false⟩, bold⟩ text else text

/-- The color of a severity; an unknown name stands for white. -/
def severityColor (p : Printer) (severity : Severity) : Color :=
  let name := match severity with
    | .error => p.colors.error
    | .warning => p.colors.warning
    | .info => p.colors.info
  (Color.ofName? name).getD ⟨.white, false⟩

/-- The color of places; an unknown name stands for bright white. -/
def locationColor (p : Printer) : Color := (Color.ofName? p.colors.location).getD ⟨.white, true⟩

/-! ### Findings -/

/-- The line of a finding: its place in bold, its rule in the color of its severity. -/
def finding (p : Printer) (d : Diagnostic) : String :=
  if p.painted then
    let place := Style.paint ⟨p.locationColor, true⟩
      s!"{d.file}:{d.position.line}:{d.position.column}"
    let rule := Style.paint ⟨p.severityColor d.severity, false⟩ s!"[{d.rule}]"
    s!"{place}: {rule} {d.message}"
  else d.text

/-- The line of a suggestion, when details are wanted. -/
def suggestion (p : Printer) (d : Diagnostic) : List String :=
  if p.verbosity ≥ 1 then
    d.suggestion?.toList.map fun text => "    " ++ p.paint .cyan false "help:" ++ " " ++ text
  else []

/-- The lines for all findings of a report. -/
def findings (p : Printer) (r : Report) : List String :=
  if p.json then r.jsonLines else r.diagnostics.flatMap fun d => p.finding d :: p.suggestion d

/-! ### Messages -/

/-- A message as a JSON object. -/
def jsonMessage (kind text : String) : String :=
  Json.writtenObject
    [("message", Json.writtenString text), ("type", Json.writtenString kind)]

def error (p : Printer) (text : String) : String :=
  if p.json then jsonMessage "error" text else p.paint .red true "ERROR:" ++ " " ++ text

def warning (p : Printer) (text : String) : String :=
  if p.json then jsonMessage "warning" text else p.paint .yellow true "WARNING:" ++ " " ++ text

/-- A remark on what is going on, for people who want details. -/
def info (p : Printer) (text : String) : List String :=
  if p.verbosity < 1 || p.json then [] else [p.paint .blue false "INFO:" ++ " " ++ text]

/-- The summary of a report and the time it took. -/
def summary (p : Printer) (r : Report) (elapsed : String) : String :=
  if p.json then
    Json.writtenObject
      [("errors", toString (r.count .error)), ("failed_files", toString r.failed.length),
        ("files", toString r.files.length), ("info", toString (r.count .info)),
        ("type", Json.writtenString "summary"), ("warnings", toString (r.count .warning))]
  else
    let hue := if r.hasErrors || !r.failed.isEmpty then Hue.red
      else if r.diagnostics.isEmpty then .green else .yellow
    p.paint hue true s!"{r.summary} in {elapsed}"

/-! ### Tables -/

/-- The lines of a table; its headings are painted. -/
def table (p : Printer) (headings : List String) (rows : List (List String)) : List String :=
  let widths := columnWidths headings rows
  let line := rowLine widths headings
  (if p.painted then Style.paint ⟨⟨.white, true⟩, true⟩ line else line) ::
    rows.map (rowLine widths)

end Printer

/-- A time in milliseconds, as it is shown behind a summary. -/
def elapsedText (milliseconds : Nat) : String :=
  let seconds := milliseconds / 1000
  if seconds ≥ 60 then s!"{seconds / 60}m {seconds % 60}s"
  else if seconds > 0 then
    let rest := toString (milliseconds % 1000 + 1000)
    s!"{seconds}." ++ String.ofList (rest.toList.drop 1) ++ "s"
  else s!"{milliseconds}ms"

/-- Lines with their ends. -/
def joinLines (lines : List String) : String := String.join (lines.map (· ++ "\n"))

end PlaybookStyle.Output
