/-
Tables of text: columns as wide as their longest cell, two blanks between them.

The width of a column counts the bytes of its cells, while a cell is filled up
by its characters; cells beyond the headings are left out.
-/

import PlaybookStyle.Text.Search

namespace PlaybookStyle.Output

open Text

/-- A cell filled up with spaces to a number of characters. -/
def filled (width : Nat) (cell : String) : String :=
  cell ++ String.ofList (List.replicate (width - cell.toList.length) ' ')

/-- Column widths that also fit the cells of a row. -/
def widened : List Nat → List String → List Nat
  | width :: widths, cell :: cells => max width cell.utf8ByteSize :: widened widths cells
  | widths, _ => widths

/-- The widths of the columns. -/
def columnWidths (headings : List String) (rows : List (List String)) : List Nat :=
  rows.foldl widened (headings.map String.utf8ByteSize)

/-- A row as a line, without blanks at its end. -/
def rowLine (widths : List Nat) (cells : List String) : String :=
  String.ofList (trimEnd ("  ".intercalate (List.zipWith filled widths cells)).toList)

end PlaybookStyle.Output
