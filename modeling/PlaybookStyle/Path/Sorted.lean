/-
Sorted lists without repeats.

`dropRepeats` takes out what equals the element before it; behind a stable sort
that leaves the first of all equal elements. `Path.sorted` does so for paths.
-/

import PlaybookStyle.Path

namespace PlaybookStyle

/-- A list without the elements that equal the one before them. -/
def dropRepeats {α : Type} (same : α → α → Bool) : List α → List α
  | first :: second :: rest =>
    if same first second then dropRepeats same (first :: rest)
    else first :: dropRepeats same (second :: rest)
  | rest => rest
termination_by list => list.length

/-- Paths in ascending order, each once. -/
def Path.sorted (paths : List String) : List String :=
  dropRepeats Path.same (paths.mergeSort fun a b => Path.compare a b != .gt)

end PlaybookStyle
