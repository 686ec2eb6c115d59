import PrecedenceGrammar.Table.Basic

/-!
# Table text

A table is written as a header line and one line for each row.  Every column is
one character wider than its widest cell, and lines have no trailing blanks.
-/

namespace PrecedenceGrammar

/-- The widths of the columns of a grid: the lengths of their longest cells. -/
def columnWidths : List (List Text) → List Nat
  | [] => []
  | [line] => line.map (·.length)
  | line :: later => List.zipWith max (line.map (·.length)) (columnWidths later)

/-- A line of a grid, its cells padded to one more than the column widths. -/
def gridLine (widths : List Nat) (line : List Text) : Text :=
  Text.trimEnd (List.zipWith (fun width cell => Text.padEnd (width + 1) cell) widths line).flatten

def gridText (grid : List (List Text)) : Text :=
  let widths := columnWidths grid
  grid.flatMap fun line => gridLine widths line ++ ['\n']

namespace Table

/-- The cells of a written table: a header of column symbols after an empty
cell, and each row symbol before its relations. -/
def grid (table : Table) (rows columns : List Symbol) : List (List Text) :=
  ([] :: columns.map (·.text)) ::
    rows.map fun row => row.text :: columns.map fun column => (table.relation row column).text

/-- The text of a table.  The rows are the alphabet and the start marker, the
columns the alphabet and the end marker; without an alphabet the table's own
rows and columns are used. -/
def text (table : Table) : Option (List Symbol) → Text
  | some alphabet =>
    gridText (table.grid (alphabet ++ [.startMarker]) (alphabet ++ [.endMarker]))
  | none => gridText (table.grid table.rows table.columns)

end Table

end PrecedenceGrammar
