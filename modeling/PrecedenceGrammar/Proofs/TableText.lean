import Mathlib.Data.List.TakeWhile
import PrecedenceGrammar.Table.Layout

/-!
# The lines of a written table

Every line of a written table shows a symbol, so none is empty, and cells hold no
white space but spaces, so none is broken.
-/

namespace PrecedenceGrammar

namespace Text

/-- A line with something on it. -/
structure IsFullLine (line : Text) : Prop where
  nonempty : line ≠ []
  unbroken : '\n' ∉ line

/-- Spaces are the only white space of a text. -/
def Plain (text : Text) : Prop :=
  ∀ character ∈ text, isWhiteSpace character = true → character = ' '

theorem plain_of_all
    {text : Text}
    (all : text.all (fun character => !isWhiteSpace character || character == ' ') = true) :
    text.Plain := by
  intro character member white
  have kept := List.all_eq_true.mp all character member
  simpa [white] using kept

theorem Plain.unbroken
    {text : Text} (plain : text.Plain) :
    '\n' ∉ text := by
  intro broken
  have same := plain '\n' broken (by decide)
  exact absurd same (by decide)

theorem trimEnd_subset (text : Text) : trimEnd text ⊆ text := by
  intro character member
  rw [trimEnd, List.mem_reverse] at member
  exact List.mem_reverse.mp (List.dropWhile_subset _ member)

theorem trimEnd_ne_nil
    {text : Text} {character : Char} (member : character ∈ text)
    (visible : isWhiteSpace character = false) :
    trimEnd text ≠ [] := by
  intro empty
  rw [trimEnd, List.reverse_eq_nil_iff, List.dropWhile_eq_nil_iff] at empty
  rw [empty character (List.mem_reverse.mpr member)] at visible
  cases visible

end Text

namespace Symbol

/-- A symbol that is shown as one character which can be seen. -/
def IsVisible (symbol : Symbol) : Prop :=
  ∃ character, symbol.text = [character] ∧ isWhiteSpace character = false

theorem isVisible_startMarker : IsVisible .startMarker := ⟨'^', rfl, by decide⟩

theorem isVisible_endMarker : IsVisible .endMarker := ⟨'$', rfl, by decide⟩

theorem isVisible_of_ofChar?
    {character : Char} {symbol : Symbol} (read : ofChar? character = some symbol) :
    symbol.IsVisible := by
  refine ⟨character, text_of_ofChar? read, ?_⟩
  rw [← Bool.not_eq_true]
  intro white
  simp [ofChar?, white] at read

theorem IsVisible.plain
    {symbol : Symbol} (visible : symbol.IsVisible) :
    symbol.text.Plain := by
  obtain ⟨character, text_eq, visible⟩ := visible
  rw [text_eq]
  intro other member white
  rw [List.mem_singleton.mp member, visible] at white
  cases white

theorem IsVisible.unbroken
    {symbol : Symbol} (visible : symbol.IsVisible) :
    '\n' ∉ symbol.text :=
  visible.plain.unbroken

end Symbol

theorem Relation.plain_text (relation : Relation) : relation.text.Plain := by
  apply Text.plain_of_all
  rcases relation with ⟨_ | _, _ | _, _ | _⟩ <;> decide

/-- The lines of the text of a grid, without their line feeds. -/
def gridLines (grid : List (List Text)) : List Text :=
  grid.map (gridLine (columnWidths grid))

theorem gridText_eq (grid : List (List Text)) :
    gridText grid = (gridLines grid).flatMap (· ++ ['\n']) := by
  rw [gridLines, List.flatMap_map]
  rfl

theorem length_columnWidths
    {grid : List (List Text)} {size : Nat} (nonempty : grid ≠ [])
    (sized : ∀ line ∈ grid, line.length = size) :
    (columnWidths grid).length = size := by
  induction grid with
  | nil => exact absurd rfl nonempty
  | cons line later induction =>
      obtain ⟨first, rest⟩ := List.forall_mem_cons.mp sized
      cases later with
      | nil => rw [columnWidths, List.length_map, first]
      | cons next later =>
          rw [columnWidths, List.length_zipWith, List.length_map, first,
            induction (List.cons_ne_nil _ _) rest, Nat.min_self]
          exact List.cons_ne_nil _ _

/-- The cells of a line, each padded to one more than its column width. -/
def paddedCells (widths : List Nat) (line : List Text) : List Text :=
  List.zipWith (fun width cell => Text.padEnd (width + 1) cell) widths line

theorem gridLine_eq (widths : List Nat) (line : List Text) :
    gridLine widths line = Text.trimEnd (paddedCells widths line).flatten :=
  rfl

theorem paddedCells_cons_cons (width : Nat) (widths : List Nat) (cell : Text) (line : List Text) :
    paddedCells (width :: widths) (cell :: line) =
      Text.padEnd (width + 1) cell :: paddedCells widths line :=
  rfl

/-- The padded cells of a line hold what its cells hold, and blanks. -/
theorem mem_paddedCells
    {widths : List Nat} {line : List Text} {character : Char}
    (member : character ∈ (paddedCells widths line).flatten) :
    character = ' ' ∨ ∃ cell ∈ line, character ∈ cell := by
  induction line generalizing widths with
  | nil => simp [paddedCells] at member
  | cons cell later induction =>
      cases widths with
      | nil => simp [paddedCells] at member
      | cons width widths =>
          rw [paddedCells_cons_cons, List.flatten_cons, Text.padEnd, List.mem_append,
            List.mem_append] at member
          rcases member with (inCell | blank) | inLater
          · exact Or.inr ⟨cell, List.mem_cons_self, inCell⟩
          · exact Or.inl (List.eq_of_mem_replicate blank)
          · rcases induction inLater with blank | ⟨other, isCell, inCell⟩
            · exact Or.inl blank
            · exact Or.inr ⟨other, List.mem_cons_of_mem _ isCell, inCell⟩

theorem subset_paddedCells
    {widths : List Nat} {line : List Text} {cell : Text}
    (enough : line.length ≤ widths.length) (member : cell ∈ line) :
    cell ⊆ (paddedCells widths line).flatten := by
  induction line generalizing widths with
  | nil => cases member
  | cons first later induction =>
      cases widths with
      | nil => cases enough
      | cons width widths =>
          rw [paddedCells_cons_cons, List.flatten_cons, Text.padEnd, List.append_assoc]
          rcases List.mem_cons.mp member with rfl | further
          · exact List.subset_append_left _ _
          · have inLater := induction (Nat.le_of_succ_le_succ enough) further
            intro character inCell
            exact List.mem_append_right _ (List.mem_append_right _ (inLater inCell))

theorem plain_paddedCells
    {line : List Text} (widths : List Nat) (plain : ∀ cell ∈ line, cell.Plain) :
    Text.Plain (paddedCells widths line).flatten := by
  intro character member white
  rcases mem_paddedCells member with blank | ⟨cell, isCell, inCell⟩
  · exact blank
  · exact plain cell isCell character inCell white

theorem isFullLine_gridLine
    {widths : List Nat} {line : List Text} {symbol : Symbol}
    (enough : line.length ≤ widths.length) (plain : ∀ cell ∈ line, cell.Plain)
    (visible : symbol.IsVisible) (shown : symbol.text ∈ line) :
    (gridLine widths line).IsFullLine where
  nonempty := by
    obtain ⟨character, text_eq, visible⟩ := visible
    rw [text_eq] at shown
    exact Text.trimEnd_ne_nil (subset_paddedCells enough shown List.mem_cons_self) visible
  unbroken broken := (plain_paddedCells widths plain).unbroken (Text.trimEnd_subset _ broken)

namespace Table

/-- The cells of the header: the column symbols after an empty cell. -/
def headerCells (columns : List Symbol) : List Text :=
  [] :: columns.map (·.text)

/-- The cells of a row: its relations after the row symbol. -/
def rowCells (table : Table) (columns : List Symbol) (row : Symbol) : List Text :=
  row.text :: columns.map fun column => (table.relation row column).text

theorem grid_eq (table : Table) (rows columns : List Symbol) :
    table.grid rows columns = headerCells columns :: rows.map (table.rowCells columns) :=
  rfl

theorem length_of_mem_grid
    {table : Table} {rows columns : List Symbol} {line : List Text}
    (member : line ∈ table.grid rows columns) :
    line.length = columns.length + 1 := by
  rcases List.mem_cons.mp member with rfl | isRow
  · simp
  · obtain ⟨row, _, rfl⟩ := List.mem_map.mp isRow
    simp

variable {table : Table} {rows columns : List Symbol}

theorem plain_headerCells
    (visible : ∀ column ∈ columns, column.IsVisible) :
    ∀ cell ∈ headerCells columns, cell.Plain := by
  intro cell isCell
  rcases List.mem_cons.mp isCell with rfl | isColumn
  · exact List.forall_mem_nil _
  · obtain ⟨column, listed, rfl⟩ := List.mem_map.mp isColumn
    exact (visible column listed).plain

theorem plain_rowCells
    {row : Symbol} (visible : row.IsVisible) :
    ∀ cell ∈ table.rowCells columns row, cell.Plain := by
  intro cell isCell
  rcases List.mem_cons.mp isCell with rfl | isRelation
  · exact visible.plain
  · obtain ⟨column, _, rfl⟩ := List.mem_map.mp isRelation
    exact Relation.plain_text _

theorem plain_of_mem_grid
    {line : List Text} (visibleRows : ∀ row ∈ rows, row.IsVisible)
    (visibleColumns : ∀ column ∈ columns, column.IsVisible)
    (member : line ∈ table.grid rows columns) :
    ∀ cell ∈ line, cell.Plain := by
  rcases List.mem_cons.mp member with rfl | isRow
  · exact plain_headerCells visibleColumns
  · obtain ⟨row, listed, rfl⟩ := List.mem_map.mp isRow
    exact plain_rowCells (visibleRows row listed)

/-- The header shows the end marker and every other line its row. -/
theorem exists_symbol_of_mem_grid
    {line : List Text} (visibleRows : ∀ row ∈ rows, row.IsVisible)
    (ended : .endMarker ∈ columns) (member : line ∈ table.grid rows columns) :
    ∃ symbol : Symbol, symbol.IsVisible ∧ symbol.text ∈ line := by
  rcases List.mem_cons.mp member with rfl | isRow
  · exact ⟨.endMarker, Symbol.isVisible_endMarker,
      List.mem_cons_of_mem _ (List.mem_map_of_mem ended)⟩
  · obtain ⟨row, listed, rfl⟩ := List.mem_map.mp isRow
    exact ⟨row, visibleRows row listed, List.mem_cons_self⟩

theorem isFullLine_of_mem_gridLines
    {text : Text} (visibleRows : ∀ row ∈ rows, row.IsVisible)
    (visibleColumns : ∀ column ∈ columns, column.IsVisible) (ended : .endMarker ∈ columns)
    (isText : text ∈ gridLines (table.grid rows columns)) :
    text.IsFullLine := by
  obtain ⟨line, member, rfl⟩ := List.mem_map.mp isText
  obtain ⟨symbol, visible, shown⟩ := exists_symbol_of_mem_grid visibleRows ended member
  have widths_length : (columnWidths (table.grid rows columns)).length = columns.length + 1 :=
    length_columnWidths (List.cons_ne_nil _ _) fun _ => length_of_mem_grid
  have enough := (length_of_mem_grid member).trans_le widths_length.ge
  exact isFullLine_gridLine enough (plain_of_mem_grid visibleRows visibleColumns member)
    visible shown

section Alphabets

variable {symbols : List Symbol}

theorem isVisible_rows
    (visible : ∀ symbol ∈ symbols, symbol.IsVisible) :
    ∀ row ∈ symbols ++ [.startMarker], row.IsVisible :=
  List.forall_mem_append.mpr ⟨visible, List.forall_mem_singleton.mpr Symbol.isVisible_startMarker⟩

theorem isVisible_columns
    (visible : ∀ symbol ∈ symbols, symbol.IsVisible) :
    ∀ column ∈ symbols ++ [.endMarker], column.IsVisible :=
  List.forall_mem_append.mpr ⟨visible, List.forall_mem_singleton.mpr Symbol.isVisible_endMarker⟩

/-- Without an alphabet, the rows and columns of a grammar's table stand in the
order of appearance. -/
theorem text_ofEndSets (grammar : Grammar) (sets : EndSets) (alphabet : Option (List Symbol)) :
    (ofEndSets grammar sets).text alphabet =
      gridText ((ofEndSets grammar sets).grid (alphabet.getD grammar.symbols ++ [.startMarker])
        (alphabet.getD grammar.symbols ++ [.endMarker])) := by
  cases alphabet with
  | none => rw [text, rows_ofEndSets, columns_ofEndSets, Option.getD_none]
  | some symbols => rfl

/-- The text of a grammar's table, in the order of appearance or any other
order of visible symbols, is made of full lines. -/
theorem exists_text_lines
    {grammar : Grammar} (sets : EndSets) {alphabet : Option (List Symbol)}
    (visible : ∀ symbol ∈ alphabet.getD grammar.symbols, symbol.IsVisible) :
    ∃ lines : List Text,
      (ofEndSets grammar sets).text alphabet = lines.flatMap (· ++ ['\n']) ∧
        ∀ line ∈ lines, line.IsFullLine := by
  have ended : .endMarker ∈ alphabet.getD grammar.symbols ++ [.endMarker] :=
    List.mem_append_right _ List.mem_cons_self
  rw [text_ofEndSets, gridText_eq]
  exact ⟨_, rfl, fun _ =>
    isFullLine_of_mem_gridLines (isVisible_rows visible) (isVisible_columns visible) ended⟩

end Alphabets

end Table

end PrecedenceGrammar
