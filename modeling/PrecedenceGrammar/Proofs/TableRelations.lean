import PrecedenceGrammar.Proofs.Saturation
import PrecedenceGrammar.Table.Basic

/-!
# The meaning of the cells

Less, equal and greater are described by bodies and by what productions bring
to either side, without the lists that a table is built from.  The cells of a
grammar's own table hold exactly these relations.
-/

namespace PrecedenceGrammar

namespace Grammar

/-- Some body has the one symbol just before the other. -/
def Adjacent (grammar : Grammar) (left right : Symbol) : Prop :=
  ∃ production ∈ grammar.productions, ∃ before after,
    production.body = before ++ left :: right :: after

/-- The right symbol begins what stands behind the left one. -/
def Less (grammar : Grammar) (left right : Symbol) : Prop :=
  (∃ next, grammar.Adjacent left next ∧ grammar.Reaches .leading next right) ∨
    left = .startMarker ∧
      (right = grammar.start ∨ grammar.Reaches .leading grammar.start right)

/-- The left symbol ends what stands before the terminal on the right, or
before the end of the text. -/
def Greater (grammar : Grammar) (left right : Symbol) : Prop :=
  (right.isTerminal = true ∧ ∃ ended next, grammar.Adjacent ended next ∧
      grammar.Reaches .trailing ended left ∧
      (right = next ∨ grammar.Reaches .leading next right)) ∨
    right = .endMarker ∧
      (left = grammar.start ∨ grammar.Reaches .trailing grammar.start left)

/-- Less or equal: the pair does not end a body. -/
def Shifts (grammar : Grammar) (left right : Symbol) : Prop :=
  grammar.Less left right ∨ grammar.Adjacent left right

variable {grammar : Grammar}

private theorem mem_zip_tail_iff
    {symbols : List Symbol} {left right : Symbol} :
    (left, right) ∈ symbols.zip symbols.tail ↔
      ∃ before after, symbols = before ++ left :: right :: after := by
  constructor
  · intro member
    induction symbols with
    | nil => simp at member
    | cons first later induction =>
        cases later with
        | nil => simp at member
        | cons second later =>
            rcases List.mem_cons.mp member with here | further
            · cases here
              exact ⟨[], later, rfl⟩
            · obtain ⟨before, after, split⟩ := induction further
              exact ⟨first :: before, after, by rw [split]; rfl⟩
  · intro neighbours
    obtain ⟨before, after, rfl⟩ := neighbours
    induction before with
    | nil => simp
    | cons first before induction =>
        cases before with
        | nil => simp
        | cons second before => exact List.mem_cons_of_mem _ induction

theorem mem_adjacentPairs_iff
    {left right : Symbol} :
    (left, right) ∈ grammar.adjacentPairs ↔ grammar.Adjacent left right := by
  simp only [adjacentPairs, List.mem_eraseDups, List.mem_flatMap, mem_zip_tail_iff, Adjacent]

theorem mem_successors_iff
    {left right : Symbol} :
    right ∈ successors grammar.adjacentPairs left ↔ grammar.Adjacent left right := by
  rw [← mem_adjacentPairs_iff]
  simp [successors]

theorem Adjacent.isGrammarSymbol
    {left right : Symbol} (adjacent : grammar.Adjacent left right) :
    left.isGrammarSymbol = true ∧ right.isGrammarSymbol = true := by
  obtain ⟨production, member, before, after, split⟩ := adjacent
  have grammatical := (grammar.wellFormed production member).body_isGrammarSymbol
  rw [split] at grammatical
  exact ⟨grammatical left (by simp), grammatical right (by simp)⟩

theorem Adjacent.mem_symbols
    {left right : Symbol} (adjacent : grammar.Adjacent left right) :
    left ∈ grammar.symbols ∧ right ∈ grammar.symbols := by
  obtain ⟨production, member, before, after, split⟩ := adjacent
  simp only [mem_symbols_iff]
  exact ⟨⟨production, member, Or.inr (by simp [split])⟩,
    ⟨production, member, Or.inr (by simp [split])⟩⟩

theorem start_mem_symbols (grammar : Grammar) : grammar.start ∈ grammar.symbols := by
  obtain ⟨production, member, heads⟩ := grammar.start_isHead
  apply (grammar.mem_symbols_iff _).mpr
  exact ⟨production, member, Or.inl heads.symm⟩

theorem startMarker_not_mem_symbols (grammar : Grammar) :
    Symbol.startMarker ∉ grammar.symbols := by
  intro member
  cases isGrammarSymbol_of_mem_symbols member

theorem endMarker_not_mem_symbols (grammar : Grammar) :
    Symbol.endMarker ∉ grammar.symbols := by
  intro member
  cases isGrammarSymbol_of_mem_symbols member

theorem Less.mem_symbols
    {left right : Symbol} (less : grammar.Less left right) :
    (left ∈ grammar.symbols ∨ left = .startMarker) ∧ right ∈ grammar.symbols := by
  rcases less with ⟨next, adjacent, begins⟩ | ⟨isMarker, rfl | begins⟩
  · exact ⟨Or.inl adjacent.mem_symbols.1, begins.mem_symbols⟩
  · exact ⟨Or.inr isMarker, grammar.start_mem_symbols⟩
  · exact ⟨Or.inr isMarker, begins.mem_symbols⟩

theorem Greater.mem_symbols
    {left right : Symbol} (greater : grammar.Greater left right) :
    left ∈ grammar.symbols ∧ (right ∈ grammar.symbols ∨ right = .endMarker) := by
  rcases greater with ⟨_, ended, next, adjacent, ends, rfl | begins⟩ | ⟨isMarker, rfl | ends⟩
  · exact ⟨ends.mem_symbols, Or.inl adjacent.mem_symbols.2⟩
  · exact ⟨ends.mem_symbols, Or.inl begins.mem_symbols⟩
  · exact ⟨grammar.start_mem_symbols, Or.inr isMarker⟩
  · exact ⟨ends.mem_symbols, Or.inr isMarker⟩

theorem Shifts.mem_symbols
    {left right : Symbol} (shifts : grammar.Shifts left right) :
    (left ∈ grammar.symbols ∨ left = .startMarker) ∧ right ∈ grammar.symbols := by
  rcases shifts with less | adjacent
  · exact less.mem_symbols
  · exact ⟨Or.inl adjacent.mem_symbols.1, adjacent.mem_symbols.2⟩

theorem not_shifts_endMarker {left : Symbol} : ¬ grammar.Shifts left .endMarker := by
  intro shifts
  exact grammar.endMarker_not_mem_symbols shifts.mem_symbols.2

theorem isNonterminal_of_isHead
    {symbol : Symbol} (isHead : ∃ production ∈ grammar.productions, production.head = symbol) :
    symbol.isNonterminal = true := by
  obtain ⟨production, member, rfl⟩ := isHead
  exact (grammar.wellFormed production member).head_isNonterminal

theorem Reaches.isNonterminal
    {side : Side} {symbol found : Symbol} (reached : grammar.Reaches side symbol found) :
    symbol.isNonterminal = true :=
  isNonterminal_of_isHead reached.isHead

theorem mem_lessThan_iff
    {left right : Symbol} :
    right ∈ grammar.lessThan (EndSets.ofGrammar grammar)
        (successors grammar.adjacentPairs left) left ↔
      grammar.Less left right := by
  by_cases atStart : left = .startMarker
  · simp [lessThan, Less, mem_successors_iff, EndSets.mem_derived_iff, atStart]
  · simp [lessThan, Less, mem_successors_iff, EndSets.mem_derived_iff, atStart]

/-- A terminal begins a symbol when it is the symbol, or when it is brought to
the front of it. -/
theorem mem_ofSymbol_leading_iff
    {next found : Symbol} (terminal : found.isTerminal = true) :
    found ∈ (EndSets.ofGrammar grammar).ofSymbol .leading next ↔
      found = next ∨ grammar.Reaches .leading next found := by
  unfold EndSets.ofSymbol
  split
  · next nonterminal =>
    have different : found ≠ next := by
      intro same
      rw [same, Symbol.isTerminal_of_isNonterminal nonterminal] at terminal
      cases terminal
    simp [EndSets.mem_derived_iff, different]
  · next settled =>
    have unreached : ¬ grammar.Reaches .leading next found :=
      fun reached => settled reached.isNonterminal
    simp [unreached]

theorem mem_greaterThan_iff
    {left right : Symbol} :
    right ∈ grammar.greaterThan (EndSets.ofGrammar grammar) grammar.adjacentPairs left ↔
      grammar.Greater left right := by
  have within : (∃ pair ∈ grammar.adjacentPairs,
        left ∈ (EndSets.ofGrammar grammar).derived .trailing pair.1 ∧
          right ∈ (EndSets.ofGrammar grammar).ofSymbol .leading pair.2 ∧
            right.isTerminal = true) ↔
      right.isTerminal = true ∧ ∃ ended next, grammar.Adjacent ended next ∧
        grammar.Reaches .trailing ended left ∧
        (right = next ∨ grammar.Reaches .leading next right) := by
    constructor
    · intro follows
      obtain ⟨⟨ended, next⟩, pair, ends, begins, terminal⟩ := follows
      exact ⟨terminal, ended, next, mem_adjacentPairs_iff.mp pair,
        EndSets.mem_derived_iff.mp ends, (mem_ofSymbol_leading_iff terminal).mp begins⟩
    · intro follows
      obtain ⟨terminal, ended, next, adjacent, ends, begins⟩ := follows
      exact ⟨⟨ended, next⟩, mem_adjacentPairs_iff.mpr adjacent,
        EndSets.mem_derived_iff.mpr ends, (mem_ofSymbol_leading_iff terminal).mpr begins,
        terminal⟩
  have atEnd : right ∈ (if left = grammar.start ∨
        left ∈ (EndSets.ofGrammar grammar).derived .trailing grammar.start then
          [Symbol.endMarker] else []) ↔
      right = .endMarker ∧
        (left = grammar.start ∨ grammar.Reaches .trailing grammar.start left) := by
    rw [← EndSets.mem_derived_iff]
    split
    · next ends => simp [ends]
    · next free => simp [free]
  rw [greaterThan, List.mem_append, atEnd, Greater, ← within]
  simp only [List.mem_flatMap, List.mem_filter, List.contains_iff_mem, and_assoc]

end Grammar

namespace Table

variable {grammar : Grammar} {left right : Symbol}

private theorem mem_rows_iff :
    left ∈ (ofGrammar grammar).rows ↔ left ∈ grammar.symbols ∨ left = .startMarker := by
  rw [ofGrammar, rows_ofEndSets]
  simp

private theorem mem_columns_iff :
    right ∈ (ofGrammar grammar).columns ↔ right ∈ grammar.symbols ∨ right = .endMarker := by
  rw [ofGrammar, columns_ofEndSets]
  simp

private theorem inside_of_shifts
    (shifts : grammar.Shifts left right) :
    left ∈ (ofGrammar grammar).rows ∧ right ∈ (ofGrammar grammar).columns :=
  ⟨mem_rows_iff.mpr shifts.mem_symbols.1, mem_columns_iff.mpr (Or.inl shifts.mem_symbols.2)⟩

private theorem inside_of_greater
    (greater : grammar.Greater left right) :
    left ∈ (ofGrammar grammar).rows ∧ right ∈ (ofGrammar grammar).columns :=
  ⟨mem_rows_iff.mpr (Or.inl greater.mem_symbols.1), mem_columns_iff.mpr greater.mem_symbols.2⟩

private theorem relation_inside
    (isRow : left ∈ (ofGrammar grammar).rows)
    (isColumn : right ∈ (ofGrammar grammar).columns) :
    (((ofGrammar grammar).relation left right).less = true ↔ grammar.Less left right) ∧
      (((ofGrammar grammar).relation left right).equal = true ↔
        grammar.Adjacent left right) ∧
      (((ofGrammar grammar).relation left right).greater = true ↔
        grammar.Greater left right) := by
  have cell := relation_ofEndSets grammar (EndSets.ofGrammar grammar) isRow isColumn
  simp only at cell
  rw [ofGrammar, cell]
  simp only [List.contains_iff_mem]
  exact ⟨Grammar.mem_lessThan_iff, Grammar.mem_successors_iff, Grammar.mem_greaterThan_iff⟩

private theorem relation_outside
    (outside : ¬ (left ∈ (ofGrammar grammar).rows ∧ right ∈ (ofGrammar grammar).columns)) :
    (ofGrammar grammar).relation left right = .empty :=
  relation_ofEndSets_outside grammar _ (not_and_or.mp outside)

/-- The cells of a grammar's own table hold exactly its relations. -/
theorem relation_ofGrammar_iff
    (grammar : Grammar) (left right : Symbol) :
    (((ofGrammar grammar).relation left right).less = true ↔ grammar.Less left right) ∧
      (((ofGrammar grammar).relation left right).equal = true ↔
        grammar.Adjacent left right) ∧
      (((ofGrammar grammar).relation left right).greater = true ↔
        grammar.Greater left right) := by
  by_cases inside : left ∈ (ofGrammar grammar).rows ∧ right ∈ (ofGrammar grammar).columns
  · exact relation_inside inside.1 inside.2
  · rw [relation_outside inside]
    have notLess : ¬ grammar.Less left right := fun less => inside (inside_of_shifts (Or.inl less))
    have notAdjacent : ¬ grammar.Adjacent left right :=
      fun adjacent => inside (inside_of_shifts (Or.inr adjacent))
    have notGreater : ¬ grammar.Greater left right :=
      fun greater => inside (inside_of_greater greater)
    simp [Relation.empty, notLess, notAdjacent, notGreater]

theorem less_ofGrammar_iff :
    ((ofGrammar grammar).relation left right).less = true ↔ grammar.Less left right :=
  (relation_ofGrammar_iff grammar left right).1

theorem equal_ofGrammar_iff :
    ((ofGrammar grammar).relation left right).equal = true ↔ grammar.Adjacent left right :=
  (relation_ofGrammar_iff grammar left right).2.1

theorem greater_ofGrammar_iff :
    ((ofGrammar grammar).relation left right).greater = true ↔ grammar.Greater left right :=
  (relation_ofGrammar_iff grammar left right).2.2

theorem shifts_ofGrammar_iff :
    ((ofGrammar grammar).relation left right).shifts = true ↔ grammar.Shifts left right := by
  rw [Relation.shifts, Bool.or_eq_true, less_ofGrammar_iff, equal_ofGrammar_iff, Grammar.Shifts]

/-- Whatever grammar a table is of, the end marker is never shifted. -/
theorem shifts_endMarker (grammar : Grammar) (left : Symbol) :
    ((ofGrammar grammar).relation left .endMarker).shifts = false := by
  rw [← Bool.not_eq_true, shifts_ofGrammar_iff]
  exact Grammar.not_shifts_endMarker

end Table

namespace Grammar

variable {grammar : Grammar} {left right : Symbol}

theorem not_adjacent_startMarker : ¬ grammar.Adjacent .startMarker right := by
  intro adjacent
  cases adjacent.isGrammarSymbol.1

theorem not_greater_startMarker : ¬ grammar.Greater .startMarker right := by
  intro greater
  exact grammar.startMarker_not_mem_symbols greater.mem_symbols.1

/-- A reduction only ever comes in front of a terminal or the end marker. -/
theorem not_greater_of_isNonterminal
    (nonterminal : right.isNonterminal = true) :
    ¬ grammar.Greater left right := by
  intro greater
  rcases greater with ⟨terminal, _⟩ | ⟨rfl, _⟩
  · rw [Symbol.isTerminal_of_isNonterminal nonterminal] at terminal
    cases terminal
  · cases nonterminal

/-- What begins the right symbol of a pair stands behind the left one as well. -/
theorem Shifts.less_of_reaches
    {found : Symbol} (shifts : grammar.Shifts left right)
    (begins : grammar.Reaches .leading right found) :
    grammar.Less left found := by
  rcases shifts with (⟨next, adjacent, path⟩ | ⟨isMarker, isStart | path⟩) | adjacent
  · exact Or.inl ⟨next, adjacent, path.trans begins⟩
  · subst right
    exact Or.inr ⟨isMarker, Or.inr begins⟩
  · exact Or.inr ⟨isMarker, Or.inr (path.trans begins)⟩
  · exact Or.inl ⟨right, adjacent, begins⟩

/-- What ends the left symbol of a pair is greater than a terminal on the
right. -/
theorem Shifts.greater_of_reaches
    {found : Symbol} (shifts : grammar.Shifts left right)
    (terminal : right.isTerminal = true)
    (ends : grammar.Reaches .trailing left found) :
    grammar.Greater found right := by
  rcases shifts with (⟨next, adjacent, path⟩ | ⟨isMarker, _⟩) | adjacent
  · exact Or.inl ⟨terminal, left, next, adjacent, ends, Or.inr path⟩
  · subst left
    cases ends.isNonterminal
  · exact Or.inl ⟨terminal, left, right, adjacent, ends, Or.inl rfl⟩

theorem less_startMarker_start (grammar : Grammar) :
    grammar.Less .startMarker grammar.start :=
  Or.inr ⟨rfl, Or.inl rfl⟩

theorem isStrictlyLess_startMarker
    {symbol : Symbol} (shifts : grammar.Shifts .startMarker symbol) :
    ((Table.ofGrammar grammar).relation .startMarker symbol).isStrictlyLess = true := by
  have less : grammar.Less .startMarker symbol := shifts.resolve_right not_adjacent_startMarker
  have isLess := Table.less_ofGrammar_iff.mpr less
  have notEqual : ((Table.ofGrammar grammar).relation .startMarker symbol).equal = false := by
    rw [← Bool.not_eq_true, Table.equal_ofGrammar_iff]
    exact not_adjacent_startMarker
  simp [Relation.isStrictlyLess, isLess, notEqual]

theorem greater_start_endMarker (grammar : Grammar) :
    grammar.Greater grammar.start .endMarker :=
  Or.inr ⟨rfl, Or.inl rfl⟩

end Grammar

namespace Table

/-- The start marker only ever shifts, and is next to nothing. -/
theorem relation_startMarker_left (grammar : Grammar) (right : Symbol) :
    ((ofGrammar grammar).relation .startMarker right).equal = false ∧
      ((ofGrammar grammar).relation .startMarker right).greater = false := by
  rw [← Bool.not_eq_true, ← Bool.not_eq_true, equal_ofGrammar_iff, greater_ofGrammar_iff]
  exact ⟨Grammar.not_adjacent_startMarker, Grammar.not_greater_startMarker⟩

/-- In front of the end marker there is nothing to shift. -/
theorem relation_endMarker_right (grammar : Grammar) (left : Symbol) :
    ((ofGrammar grammar).relation left .endMarker).less = false ∧
      ((ofGrammar grammar).relation left .endMarker).equal = false := by
  have unshifted := shifts_endMarker grammar left
  rw [Relation.shifts, Bool.or_eq_false_iff] at unshifted
  exact unshifted

end Table

end PrecedenceGrammar
