/-
Findings: what is wrong, where, and how to mend it.

`Diagnostic.same` is equality with paths compared as paths; `Diagnostic.compare`
is the order of reports: path, line, column, rule.
-/

import PlaybookStyle.Path
import PlaybookStyle.Setting.Severity
import PlaybookStyle.Source.Position

namespace PlaybookStyle

structure Diagnostic where
  file : String
  position : Position
  rule : String
  severity : Severity
  category : Category
  message : String
  suggestion? : Option String
deriving DecidableEq, Repr, Inhabited

namespace Diagnostic

/-- The finding as one line: place, rule and message. -/
def text (d : Diagnostic) : String :=
  s!"{d.file}:{d.position.line}:{d.position.column}: [{d.rule}] {d.message}"

/-- The order of reports. -/
def compare (a b : Diagnostic) : Ordering :=
  (Path.compare a.file b.file).then <|
    (Ord.compare a.position.line b.position.line).then <|
      (Ord.compare a.position.column b.position.column).then <|
        Ord.compare a.rule b.rule

/-- Not after the other in the order of reports. -/
def notAfter (a b : Diagnostic) : Bool := compare a b != .gt

/-- All parts agree, the files as paths. -/
def same (a b : Diagnostic) : Bool :=
  Path.same a.file b.file && { a with file := b.file } == b

end Diagnostic

end PlaybookStyle
