/-
Runs: one report on many files.
-/

import PlaybookStyle.Files.Tree
import PlaybookStyle.Linter

namespace PlaybookStyle.Linter

/-- The report on the file at a path. -/
def lintFile (linter : Linter) (disk : Disk) (path : String) : Report :=
  match disk.read path with
  | .ok content => linter.lint path content
  | .error fault => .ofFailure path (.unreadable path fault.message)

/-- The report on all files, sorted once at the end. -/
def run (linter : Linter) (disk : Disk) (paths : List String) : Report :=
  ((paths.map (linter.lintFile disk)).foldl Report.merge .empty).sorted

end PlaybookStyle.Linter
