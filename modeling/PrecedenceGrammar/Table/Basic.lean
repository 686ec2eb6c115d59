import PrecedenceGrammar.EndSets

/-!
# Precedence tables

A table relates the symbols of a grammar and the start marker, its rows, to the
symbols and the end marker, its columns.  A pair without a cell is unrelated.
-/

namespace PrecedenceGrammar

/-- The cells of a table row by row; every row has a cell for every column. -/
structure Table where
  columns : List Symbol
  lines : List (Symbol × List (Symbol × Relation))
  deriving DecidableEq

namespace Table

def rows (table : Table) : List Symbol :=
  table.lines.map (·.1)

def relation (table : Table) (row column : Symbol) : Relation :=
  match table.lines.lookup row with
  | some cells => (cells.lookup column).getD .empty
  | none => .empty

def relations (table : Table) : List Relation :=
  table.lines.flatMap fun line => line.2.map (·.2)

end Table

namespace Grammar

/-- The symbols that follow a symbol in a body. -/
def successors (pairs : List (Symbol × Symbol)) (symbol : Symbol) : List Symbol :=
  (pairs.filter fun pair => pair.1 == symbol).map (·.2)

/-- The symbols that a symbol is less than: those that begin what its
successors derive.  The start marker is less than the start symbol and what
begins it. -/
def lessThan (grammar : Grammar) (sets : EndSets) (successors : List Symbol)
    (symbol : Symbol) : List Symbol :=
  successors.flatMap (sets.derived .leading) ++
    if symbol = .startMarker then
      grammar.start :: sets.derived .leading grammar.start
    else
      []

/-- The symbols that a symbol is greater than: the terminals that begin what
may follow a nonterminal which the symbol ends.  A symbol that ends the start
symbol is greater than the end marker. -/
def greaterThan (grammar : Grammar) (sets : EndSets) (pairs : List (Symbol × Symbol))
    (symbol : Symbol) : List Symbol :=
  (pairs.filter fun pair => (sets.derived .trailing pair.1).contains symbol).flatMap
      (fun pair => (sets.ofSymbol .leading pair.2).filter (·.isTerminal)) ++
    if symbol = grammar.start ∨ symbol ∈ sets.derived .trailing grammar.start then
      [.endMarker]
    else
      []

def tableLine (grammar : Grammar) (sets : EndSets) (pairs : List (Symbol × Symbol))
    (columns : List Symbol) (row : Symbol) : List (Symbol × Relation) :=
  let equal := successors pairs row
  let less := grammar.lessThan sets equal row
  let greater := grammar.greaterThan sets pairs row
  columns.map fun column =>
    (column, ⟨less.contains column, equal.contains column, greater.contains column⟩)

end Grammar

namespace Table

def ofEndSets (grammar : Grammar) (sets : EndSets) : Table :=
  let pairs := grammar.adjacentPairs
  let symbols := grammar.symbols
  let columns := symbols ++ [.endMarker]
  { columns
    lines := (symbols ++ [Symbol.startMarker]).map fun row =>
      (row, grammar.tableLine sets pairs columns row) }

def ofGrammar (grammar : Grammar) : Table :=
  ofEndSets grammar (EndSets.ofGrammar grammar)

private theorem lookup_map_pair {β : Type} (keys : List Symbol) (value : Symbol → β)
    (key : Symbol) :
    (keys.map fun item => (item, value item)).lookup key =
      if key ∈ keys then some (value key) else none := by
  induction keys with
  | nil => rfl
  | cons first later induction =>
    by_cases same : key = first
    · subst same
      simp
    · have different : (key == first) = false := by simpa using same
      simp [List.lookup_cons, different, same, induction]

theorem rows_ofEndSets (grammar : Grammar) (sets : EndSets) :
    (ofEndSets grammar sets).rows = grammar.symbols ++ [.startMarker] := by
  simp [rows, ofEndSets, Function.comp_def]

theorem columns_ofEndSets (grammar : Grammar) (sets : EndSets) :
    (ofEndSets grammar sets).columns = grammar.symbols ++ [.endMarker] := rfl

/-- A cell holds the relations that its row symbol has to its column symbol. -/
theorem relation_ofEndSets (grammar : Grammar) (sets : EndSets) {row column : Symbol}
    (isRow : row ∈ (ofEndSets grammar sets).rows)
    (isColumn : column ∈ (ofEndSets grammar sets).columns) :
    let equal := Grammar.successors grammar.adjacentPairs row
    (ofEndSets grammar sets).relation row column =
      ⟨(grammar.lessThan sets equal row).contains column, equal.contains column,
        (grammar.greaterThan sets grammar.adjacentPairs row).contains column⟩ := by
  rw [rows_ofEndSets] at isRow
  rw [columns_ofEndSets] at isColumn
  simp only [relation, ofEndSets, Grammar.tableLine, lookup_map_pair, if_pos isRow,
    if_pos isColumn, Option.getD_some]

/-- Outside of the rows and the columns there are no relations. -/
theorem relation_ofEndSets_outside (grammar : Grammar) (sets : EndSets) {row column : Symbol}
    (outside : row ∉ (ofEndSets grammar sets).rows ∨
      column ∉ (ofEndSets grammar sets).columns) :
    (ofEndSets grammar sets).relation row column = .empty := by
  rw [rows_ofEndSets, columns_ofEndSets] at outside
  by_cases isRow : row ∈ grammar.symbols ++ [Symbol.startMarker]
  · have notColumn : column ∉ grammar.symbols ++ [Symbol.endMarker] :=
      outside.resolve_left (not_not_intro isRow)
    simp only [relation, ofEndSets, Grammar.tableLine, lookup_map_pair, if_pos isRow,
      if_neg notColumn, Option.getD_none]
  · simp only [relation, ofEndSets, lookup_map_pair, if_neg isRow]

end Table

end PrecedenceGrammar
