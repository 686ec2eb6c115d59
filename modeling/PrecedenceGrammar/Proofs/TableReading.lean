import Mathlib.Data.List.Forall2
import PrecedenceGrammar.Proofs.RightmostDerivations
import PrecedenceGrammar.Proofs.TableText

/-!
# Reading a written table

The symbols in the header of a written table mark where the columns begin.  What
a line has between two of these marks are the signs of one relation, however wide
the columns are and wherever the line ends.
-/

namespace PrecedenceGrammar

namespace Text

def withoutSpaces (text : Text) : Text :=
  text.filter (· != ' ')

/-- The offsets of the characters of a header that are not spaces. -/
def offsets (header : Text) : List Nat :=
  header.findIdxs (· != ' ')

/-- The parts of a line from each offset up to the next one, and from the last one
up to the end of the line. -/
def cut (line : Text) : List Nat → List Text
  | [] => []
  | offset :: later => (line.take (later.headD line.length)).drop offset :: cut line later

/-- A text of one character that is not a space. -/
def IsMark (text : Text) : Prop :=
  ∃ character, text = [character] ∧ character ≠ ' '

/-- What a line has below each character of a header, without spaces. -/
def readCells (header line : Text) : List Text :=
  (cut line (offsets header)).map withoutSpaces

example : readCells "  a   b $".toList "a <>= >".toList = [['<', '>', '='], ['>'], []] := by
  decide

theorem withoutSpaces_append (first later : Text) :
    withoutSpaces (first ++ later) = withoutSpaces first ++ withoutSpaces later :=
  List.filter_append first later

section Spaces

variable {line spaces : Text}

theorem withoutSpaces_eq_nil
    (blank : ∀ character ∈ spaces, character = ' ') :
    withoutSpaces spaces = [] := by
  rw [withoutSpaces, List.filter_eq_nil_iff]
  simpa using blank

theorem withoutSpaces_append_spaces
    (blank : ∀ character ∈ spaces, character = ' ') :
    withoutSpaces (line ++ spaces) = withoutSpaces line := by
  rw [withoutSpaces_append, withoutSpaces_eq_nil blank, List.append_nil]

theorem offsets_append_spaces
    (blank : ∀ character ∈ spaces, character = ' ') :
    offsets (line ++ spaces) = offsets line := by
  have none : ∀ start, spaces.findIdxs (· != ' ') start = [] := by
    intro start
    rw [List.findIdxs_eq_nil_iff]
    simpa using blank
  rw [offsets, List.findIdxs_append, none, List.append_nil, offsets]

/-- Spaces at the end of a line are in no part that is cut from it. -/
theorem cut_append_spaces
    (blank : ∀ character ∈ spaces, character = ' ') (marks : List Nat) :
    (cut (line ++ spaces) marks).map withoutSpaces = (cut line marks).map withoutSpaces := by
  induction marks with
  | nil => rfl
  | cons offset later induction =>
      rw [cut, cut, List.map_cons, List.map_cons, induction]
      congr 1
      cases later with
      | nil =>
          simp only [List.headD_nil, List.take_length]
          rw [List.drop_append]
          exact withoutSpaces_append_spaces fun character member =>
            blank character (List.mem_of_mem_drop member)
      | cons next later =>
          simp only [List.headD_cons]
          rw [List.take_append, List.drop_append]
          exact withoutSpaces_append_spaces fun character member =>
            blank character (List.mem_of_mem_take (List.mem_of_mem_drop member))

/-- Trimming takes spaces only from the end of a plain text. -/
theorem Plain.exists_trimEnd_append
    (plain : line.Plain) :
    ∃ spaces : Text, (∀ character ∈ spaces, character = ' ') ∧ trimEnd line ++ spaces = line := by
  refine ⟨(line.reverse.takeWhile isWhiteSpace).reverse, ?_, ?_⟩
  · intro character member
    rw [List.mem_reverse] at member
    apply plain character
    · exact List.mem_reverse.mp (List.takeWhile_subset _ member)
    · exact List.mem_takeWhile_imp member
  · rw [trimEnd, ← List.reverse_append, List.takeWhile_append_dropWhile, List.reverse_reverse]

theorem withoutSpaces_trimEnd
    (plain : line.Plain) :
    withoutSpaces (trimEnd line) = withoutSpaces line := by
  obtain ⟨spaces, blank, split⟩ := plain.exists_trimEnd_append
  rw [← withoutSpaces_append_spaces blank, split]

theorem offsets_trimEnd
    (plain : line.Plain) :
    offsets (trimEnd line) = offsets line := by
  obtain ⟨spaces, blank, split⟩ := plain.exists_trimEnd_append
  rw [← offsets_append_spaces blank, split]

theorem cut_trimEnd
    (plain : line.Plain) (marks : List Nat) :
    (cut (trimEnd line) marks).map withoutSpaces = (cut line marks).map withoutSpaces := by
  obtain ⟨spaces, blank, split⟩ := plain.exists_trimEnd_append
  rw [← cut_append_spaces blank, split]

end Spaces

theorem splitOn_ended_lines
    {lines : List Text} (unbroken : ∀ line ∈ lines, '\n' ∉ line) :
    (lines.flatMap (· ++ ['\n'])).splitOn '\n' = lines ++ [[]] := by
  induction lines with
  | nil => rfl
  | cons line later induction =>
      obtain ⟨first, rest⟩ := List.forall_mem_cons.mp unbroken
      have other : ∀ character ∈ line, (character == '\n') = false := by
        intro character member
        rw [beq_eq_false_iff_ne]
        rintro rfl
        exact first member
      rw [List.flatMap_cons, List.append_assoc, List.singleton_append, List.splitOn,
        List.splitOnP_append_cons_of_forall_mem other '\n' (beq_self_eq_true _),
        ← List.splitOn, induction rest, List.cons_append]

theorem ended_lines_injective
    {first second : List Text} (firstUnbroken : ∀ line ∈ first, '\n' ∉ line)
    (secondUnbroken : ∀ line ∈ second, '\n' ∉ line)
    (same : first.flatMap (· ++ ['\n']) = second.flatMap (· ++ ['\n'])) :
    first = second := by
  have sameLines := congrArg (List.splitOn '\n') same
  rw [splitOn_ended_lines firstUnbroken, splitOn_ended_lines secondUnbroken] at sameLines
  exact List.append_cancel_right sameLines

end Text

open Text (withoutSpaces offsets cut readCells)

namespace Relation

/-- The text of a relation without the blank that stands for none. -/
def signs (relation : Relation) : Text :=
  if relation.isEmpty then [] else relation.text

theorem withoutSpaces_text (relation : Relation) :
    withoutSpaces relation.text = relation.signs := by
  rcases relation with ⟨_ | _, _ | _, _ | _⟩ <;> decide

theorem signs_injective {first second : Relation} (same : first.signs = second.signs) :
    first = second := by
  obtain ⟨less, equal, greater⟩ := first
  obtain ⟨otherLess, otherEqual, otherGreater⟩ := second
  revert less equal greater otherLess otherEqual otherGreater
  decide

end Relation

section Columns

variable {widths : List Nat} {cells : List Text}

/-- Each cell is at most as long as its column is wide. -/
abbrev Fits (widths : List Nat) (cells : List Text) : Prop :=
  List.Forall₂ (fun width cell => cell.length ≤ width) widths cells

/-- Where columns of the given widths begin, with a space after each of them. -/
def columnOffsets : Nat → List Nat → List Nat
  | _, [] => []
  | start, width :: widths => start :: columnOffsets (start + (width + 1)) widths

theorem head?_columnOffsets
    {start : Nat} (nonempty : widths ≠ []) :
    (columnOffsets start widths).head? = some start := by
  cases widths with
  | nil => exact absurd rfl nonempty
  | cons => rfl

theorem length_padEnd
    {width : Nat} {cell : Text} (fits : cell.length ≤ width) :
    (Text.padEnd (width + 1) cell).length = width + 1 := by
  rw [Text.padEnd, List.length_append, List.length_replicate]
  omega

theorem withoutSpaces_padEnd (width : Nat) (cell : Text) :
    withoutSpaces (Text.padEnd width cell) = withoutSpaces cell :=
  Text.withoutSpaces_append_spaces fun _ => List.eq_of_mem_replicate

theorem map_withoutSpaces_paddedCells
    (fits : Fits widths cells) :
    (paddedCells widths cells).map withoutSpaces = cells.map withoutSpaces := by
  induction fits with
  | nil => rfl
  | cons _ _ induction =>
      rw [paddedCells_cons_cons, List.map_cons, List.map_cons, induction, withoutSpaces_padEnd]

theorem withoutSpaces_paddedCells
    (fits : Fits widths cells) :
    withoutSpaces (paddedCells widths cells).flatten = (cells.map withoutSpaces).flatten := by
  rw [withoutSpaces, List.filter_flatten]
  exact congrArg List.flatten (map_withoutSpaces_paddedCells fits)

/-- Cutting a line at its column offsets gives its padded cells: a column begins
where the cell before it ends, and the last cell ends with the line. -/
theorem cut_paddedCells
    (fits : Fits widths cells) (before : Text) :
    cut (before ++ (paddedCells widths cells).flatten) (columnOffsets before.length widths) =
      paddedCells widths cells := by
  induction fits generalizing before with
  | nil => rfl
  | @cons width cell widths cells fit later induction =>
      have size := length_padEnd fit
      have laterCells := induction (before ++ Text.padEnd (width + 1) cell)
      rw [List.length_append, size, List.append_assoc] at laterCells
      rw [paddedCells_cons_cons, columnOffsets, cut, List.flatten_cons, laterCells]
      congr 1
      have ends : (columnOffsets (before.length + (width + 1)) widths).headD
          (before ++ (Text.padEnd (width + 1) cell ++ (paddedCells widths cells).flatten)).length =
            (before ++ Text.padEnd (width + 1) cell).length := by
        cases later with
        | nil => simp [columnOffsets, paddedCells]
        | cons => rw [columnOffsets, List.headD_cons, List.length_append, size]
      rw [ends, ← List.append_assoc, List.take_left, List.drop_left]

/-- A header with one mark in each column has them where the columns begin. -/
theorem findIdxs_paddedCells
    (fits : Fits widths cells)
    (marks : ∀ cell ∈ cells, cell.IsMark) (start : Nat) :
    (paddedCells widths cells).flatten.findIdxs (· != ' ') start = columnOffsets start widths := by
  induction fits generalizing start with
  | nil => rfl
  | @cons width cell widths cells fit _ induction =>
      obtain ⟨⟨character, rfl, notSpace⟩, rest⟩ := List.forall_mem_cons.mp marks
      have notBlank : (character != ' ') = true := by simpa using notSpace
      have first : (Text.padEnd (width + 1) [character]).findIdxs (· != ' ') start = [start] := by
        rw [Text.padEnd, List.singleton_append, List.findIdxs_cons, if_pos notBlank]
        congr 1
        rw [List.findIdxs_eq_nil_iff]
        intro other member
        simp [List.eq_of_mem_replicate member]
      rw [paddedCells_cons_cons, List.flatten_cons, List.findIdxs_append, first,
        length_padEnd fit, induction rest, columnOffsets, List.singleton_append]

end Columns

section Widths

theorem Fits.max
    {widths others : List Nat} {cells : List Text} (fits : Fits widths cells)
    (size : others.length = widths.length) :
    Fits (List.zipWith max widths others) cells := by
  induction fits generalizing others with
  | nil => exact .nil
  | cons fit _ induction =>
      cases others with
      | nil => cases size
      | cons other others =>
          exact .cons (fit.trans (Nat.le_max_left _ _)) (induction (Nat.succ.inj size))

/-- The widths of the columns leave room for every line of a grid. -/
theorem fits_columnWidths
    {grid : List (List Text)} {size : Nat} (sized : ∀ line ∈ grid, line.length = size) :
    ∀ line ∈ grid, Fits (columnWidths grid) line := by
  have own : ∀ line : List Text, Fits (line.map (·.length)) line := by
    intro line
    rw [Fits, List.forall₂_map_left_iff, List.forall₂_same]
    exact fun _ _ => Nat.le_refl _
  induction grid with
  | nil => exact List.forall_mem_nil _
  | cons line later induction =>
      obtain ⟨first, rest⟩ := List.forall_mem_cons.mp sized
      cases later with
      | nil => exact List.forall_mem_singleton.mpr (own line)
      | cons next later =>
          have size_eq : (columnWidths (next :: later)).length = (line.map (·.length)).length := by
            rw [length_columnWidths (List.cons_ne_nil _ _) rest, List.length_map, first]
          rw [columnWidths, List.forall_mem_cons]
          · refine ⟨(own line).max size_eq, ?_⟩
            intro other member
            rw [List.zipWith_comm_of_comm Nat.max_comm]
            exact (induction rest other member).max size_eq.symm
          · exact List.cons_ne_nil _ _

end Widths

section Lines

variable {widths : List Nat} {header cells : List Text}

theorem offsets_header
    (fits : Fits widths header) (marks : ∀ cell ∈ header, cell.IsMark) :
    offsets (paddedCells (1 :: widths) ([] :: header)).flatten = columnOffsets 2 widths := by
  rw [offsets, paddedCells_cons_cons, List.flatten_cons, List.findIdxs_append,
    findIdxs_paddedCells fits marks]
  rfl

/-- Where its columns begin a line has its cells. -/
theorem cut_line
    {first : Text} (fits : Fits (1 :: widths) (first :: cells)) :
    (cut (paddedCells (1 :: widths) (first :: cells)).flatten (columnOffsets 2 widths)).map
      withoutSpaces = cells.map withoutSpaces := by
  obtain ⟨short, cellsFit⟩ := List.forall₂_cons.mp fits
  have marked := cut_paddedCells cellsFit (Text.padEnd 2 first)
  rw [length_padEnd short] at marked
  rw [paddedCells_cons_cons, List.flatten_cons, marked, map_withoutSpaces_paddedCells cellsFit]

end Lines

theorem Symbol.IsVisible.isMark
    {symbol : Symbol} (visible : symbol.IsVisible) :
    symbol.text.IsMark := by
  obtain ⟨character, text_eq, notWhite⟩ := visible
  refine ⟨character, text_eq, ?_⟩
  rintro rfl
  exact absurd notWhite (by decide)

theorem Symbol.IsVisible.withoutSpaces_text
    {symbol : Symbol} (visible : symbol.IsVisible) :
    withoutSpaces symbol.text = symbol.text := by
  obtain ⟨character, text_eq, notSpace⟩ := visible.isMark
  rw [text_eq, withoutSpaces, List.filter_eq_self]
  simpa using notSpace

namespace Table

open Grammar (sums)

variable {table : Table} {rows columns : List Symbol}

/-- What is read from the lines of a written table.  The header shows the columns, the
first of them at the third character, and each line the relations of one row. -/
structure ReadsBack (table : Table) (rows columns : List Symbol) (header : Text)
    (lines : List Text) : Prop where
  unbroken : ∀ line ∈ header :: lines, '\n' ∉ line
  trimmed : ∀ line ∈ header :: lines, line.Trimmed
  symbols : withoutSpaces header = Symbol.textOf columns
  first : (offsets header).head? = some 2
  signs : lines.map (readCells header) =
    rows.map fun row => columns.map fun column => (table.relation row column).signs

section Lines

variable {widths : List Nat}

theorem withoutSpaces_header
    (fits : Fits widths (headerCells columns)) (visible : ∀ column ∈ columns, column.IsVisible) :
    withoutSpaces (gridLine widths (headerCells columns)) = Symbol.textOf columns := by
  have kept : (columns.map (·.text)).map withoutSpaces = columns.map (·.text) := by
    rw [List.map_map]
    apply List.map_congr_left
    intro column listed
    exact (visible column listed).withoutSpaces_text
  rw [gridLine_eq, Text.withoutSpaces_trimEnd (plain_paddedCells _ (plain_headerCells visible)),
    withoutSpaces_paddedCells fits, headerCells, List.map_cons, kept, List.flatten_cons,
    ← List.flatMap_def]
  rfl

theorem offsets_gridLine_header
    (fits : Fits (1 :: widths) (headerCells columns))
    (visible : ∀ column ∈ columns, column.IsVisible) :
    offsets (gridLine (1 :: widths) (headerCells columns)) = columnOffsets 2 widths := by
  have marks : ∀ cell ∈ columns.map (·.text), cell.IsMark := by
    intro cell member
    obtain ⟨column, listed, rfl⟩ := List.mem_map.mp member
    exact (visible column listed).isMark
  rw [gridLine_eq, Text.offsets_trimEnd (plain_paddedCells _ (plain_headerCells visible))]
  exact offsets_header (List.forall₂_cons.mp fits).2 marks

theorem readCells_gridLine
    {row : Symbol} (headerFits : Fits (1 :: widths) (headerCells columns))
    (visible : ∀ column ∈ columns, column.IsVisible)
    (fits : Fits (1 :: widths) (table.rowCells columns row)) (visibleRow : row.IsVisible) :
    readCells (gridLine (1 :: widths) (headerCells columns))
        (gridLine (1 :: widths) (table.rowCells columns row)) =
      columns.map fun column => (table.relation row column).signs := by
  rw [readCells, offsets_gridLine_header headerFits visible, gridLine_eq,
    Text.cut_trimEnd (plain_paddedCells _ (plain_rowCells visibleRow)), rowCells, cut_line fits,
    List.map_map]
  apply List.map_congr_left
  intro column _
  exact Relation.withoutSpaces_text _

end Lines

/-- The column of the row symbols is one character wide. -/
theorem exists_columnWidths_rows
    (table : Table) (columns : List Symbol) (some_rows : rows ≠ [])
    (visible : ∀ row ∈ rows, row.IsVisible) :
    ∃ widths, columnWidths (rows.map (table.rowCells columns)) = 1 :: widths := by
  induction rows with
  | nil => exact absurd rfl some_rows
  | cons row later induction =>
      obtain ⟨⟨character, text_eq, _⟩, rest⟩ := List.forall_mem_cons.mp visible
      cases later with
      | nil => simp [columnWidths, rowCells, text_eq]
      | cons next later =>
          obtain ⟨widths, widths_eq⟩ := induction (List.cons_ne_nil _ _) rest
          rw [List.map_cons] at widths_eq
          rw [List.map_cons, List.map_cons, columnWidths, widths_eq]
          · simp [rowCells, text_eq]
          · exact List.cons_ne_nil _ _

theorem exists_columnWidths_grid
    (table : Table) (columns : List Symbol) (some_rows : rows ≠ [])
    (visible : ∀ row ∈ rows, row.IsVisible) :
    ∃ widths, columnWidths (table.grid rows columns) = 1 :: widths := by
  obtain ⟨widths, widths_eq⟩ := table.exists_columnWidths_rows columns some_rows visible
  obtain ⟨row, later, rfl⟩ := List.exists_cons_of_ne_nil some_rows
  rw [List.map_cons] at widths_eq
  rw [grid_eq, List.map_cons, columnWidths, widths_eq]
  · simp [headerCells]
  · exact List.cons_ne_nil _ _

theorem readsBack_gridLines
    (table : Table) (some_rows : rows ≠ []) (visibleRows : ∀ row ∈ rows, row.IsVisible)
    (visibleColumns : ∀ column ∈ columns, column.IsVisible) (ended : .endMarker ∈ columns) :
    ∃ header lines, gridLines (table.grid rows columns) = header :: lines ∧
      table.ReadsBack rows columns header lines := by
  obtain ⟨widths, widths_eq⟩ := table.exists_columnWidths_grid columns some_rows visibleRows
  have fits : ∀ line ∈ table.grid rows columns, Fits (1 :: widths) line := by
    rw [← widths_eq]
    exact fits_columnWidths fun _ => length_of_mem_grid
  rw [grid_eq] at fits
  obtain ⟨headerFits, rowsFit⟩ := List.forall_mem_cons.mp fits
  have lines_eq : gridLines (table.grid rows columns) =
      gridLine (1 :: widths) (headerCells columns) ::
        rows.map fun row => gridLine (1 :: widths) (table.rowCells columns row) := by
    rw [gridLines, widths_eq, grid_eq, List.map_cons, List.map_map]
    rfl
  refine ⟨_, _, lines_eq, ?unbroken, ?trimmed, withoutSpaces_header headerFits visibleColumns,
    ?first, ?signs⟩
  case unbroken =>
    rw [← lines_eq]
    intro line member
    exact (isFullLine_of_mem_gridLines visibleRows visibleColumns ended member).unbroken
  case trimmed =>
    rw [← lines_eq]
    intro line member
    obtain ⟨cells, _, rfl⟩ := List.mem_map.mp member
    exact Text.trimmed_trimEnd _
  case first =>
    rw [offsets_gridLine_header headerFits visibleColumns]
    apply head?_columnOffsets
    rintro rfl
    have no_columns := List.forall₂_nil_left_iff.mp (List.forall₂_cons.mp headerFits).2
    rw [List.map_eq_nil_iff.mp no_columns] at ended
    cases ended
  case signs =>
    rw [List.map_map]
    apply List.map_congr_left
    intro row member
    exact readCells_gridLine headerFits visibleColumns (rowsFit _ (List.mem_map_of_mem member))
      (visibleRows row member)

theorem exists_readsBack
    (grammar : Grammar) (alphabet : Option (List Symbol))
    (visible : ∀ symbol ∈ alphabet.getD grammar.symbols, symbol.IsVisible) :
    ∃ header lines,
      (ofGrammar grammar).text alphabet = (header :: lines).flatMap (· ++ ['\n']) ∧
      (ofGrammar grammar).ReadsBack (alphabet.getD grammar.symbols ++ [.startMarker])
        (alphabet.getD grammar.symbols ++ [.endMarker]) header lines := by
  obtain ⟨header, lines, lines_eq, readsBack⟩ := readsBack_gridLines (ofGrammar grammar)
    (List.concat_ne_nil _ _) (isVisible_rows visible) (isVisible_columns visible)
    (List.mem_append_right _ List.mem_cons_self)
  refine ⟨header, lines, ?_, readsBack⟩
  rw [ofGrammar, text_ofEndSets, gridText_eq]
  exact congrArg _ lines_eq

/-- The signs that are read decide the relations. -/
theorem ReadsBack.relation_eq
    {other : Table} {header : Text} {lines : List Text} {row column : Symbol}
    (reads : table.ReadsBack rows columns header lines)
    (otherReads : other.ReadsBack rows columns header lines)
    (isRow : row ∈ rows) (isColumn : column ∈ columns) :
    other.relation row column = table.relation row column := by
  have sameLines := otherReads.signs.symm.trans reads.signs
  have sameCells := List.map_inj_left.mp sameLines row isRow
  exact Relation.signs_injective (List.map_inj_left.mp sameCells column isColumn)

/-- The text of a grammar's table, in the order of appearance or any other order of
visible symbols, is read back as the relations of the shown cells.  So tables with
the same text in the same order agree on these cells. -/
theorem text_readsBack
    (grammar : Grammar) (alphabet : Option (List Symbol))
    (visible : ∀ symbol ∈ alphabet.getD grammar.symbols, symbol.IsVisible) :
    let symbols := alphabet.getD grammar.symbols
    let table := ofGrammar grammar
    (∃ header lines, table.text alphabet = (header :: lines).flatMap (· ++ ['\n']) ∧
      table.ReadsBack (symbols ++ [.startMarker]) (symbols ++ [.endMarker]) header lines) ∧
    ∀ (other : Grammar) (otherAlphabet : Option (List Symbol)),
      otherAlphabet.getD other.symbols = symbols →
      (ofGrammar other).text otherAlphabet = table.text alphabet →
      ∀ row ∈ symbols ++ [.startMarker], ∀ column ∈ symbols ++ [.endMarker],
        (ofGrammar other).relation row column = table.relation row column := by
  intro symbols table
  refine ⟨exists_readsBack grammar alphabet visible, ?_⟩
  intro other otherAlphabet sameSymbols sameText row isRow column isColumn
  obtain ⟨header, lines, text_eq, reads⟩ := exists_readsBack grammar alphabet visible
  obtain ⟨otherHeader, otherLines, otherText_eq, otherReads⟩ :=
    exists_readsBack other otherAlphabet (sameSymbols ▸ visible)
  rw [text_eq, otherText_eq] at sameText
  cases Text.ended_lines_injective otherReads.unbroken reads.unbroken sameText
  rw [sameSymbols] at otherReads
  exact reads.relation_eq otherReads isRow isColumn

/-- A part of the symbols in an order of their own.  A cell of two signs is beside
blank ones, and one of the lines ends with its row symbol. -/
theorem sums_text_readsBack :
    let alphabet : List Symbol := [.terminal '*', .nonterminal 'T', .terminal '+']
    (∀ symbol ∈ alphabet, symbol.IsVisible) ∧
      ∃ header lines,
        (ofGrammar sums).text (some alphabet) = (header :: lines).flatMap (· ++ ['\n']) ∧
        withoutSpaces header = ['*', 'T', '+', '$'] ∧
        lines.map (readCells header) = [
          [[], [], [], []],
          [['='], [], ['>'], ['>']],
          [[], ['<', '='], [], []],
          [[], ['<'], [], []]] := by
  intro alphabet
  have visible : ∀ symbol ∈ alphabet, symbol.IsVisible := by
    have shown : ∀ symbol ∈ alphabet, Symbol.ofChar? (symbol.text.headD ' ') = some symbol := by
      decide
    exact fun symbol member => Symbol.isVisible_of_ofChar? (shown symbol member)
  have relations :
      ((alphabet ++ [Symbol.startMarker]).map fun row => (alphabet ++ [Symbol.endMarker]).map
        fun column => ((ofGrammar sums).relation row column).signs) = [
          [[], [], [], []],
          [['='], [], ['>'], ['>']],
          [[], ['<', '='], [], []],
          [[], ['<'], [], []]] := by
    decide +kernel
  obtain ⟨header, lines, text_eq, reads⟩ := (text_readsBack sums (some alphabet) visible).1
  exact ⟨visible, header, lines, text_eq, reads.symbols, reads.signs.trans relations⟩

end Table

end PrecedenceGrammar
