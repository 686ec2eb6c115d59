import PrecedenceGrammar.Proofs.RightmostDerivations
import PrecedenceGrammar.Proofs.SuitableGrammars

/-!
# What the verdict depends on

The relations between symbols come from the productions, and more productions
keep all of them, so a grammar is never of a worse type than one that has all
of its productions.  The start symbol only adds to the row of the start marker
and to the column of the end marker, where no two relations can meet, so the
type of a grammar is the same whichever symbol it starts with.
-/

namespace PrecedenceGrammar

/-- Every relation that holds in the first holds in the second as well. -/
structure Relation.Within (first second : Relation) : Prop where
  less : first.less = true → second.less = true
  equal : first.equal = true → second.equal = true
  greater : first.greater = true → second.greater = true

theorem Relation.Within.antisymm
    {first second : Relation} (forth : first.Within second) (back : second.Within first) :
    first = second := by
  cases first
  cases second
  rw [Relation.mk.injEq]
  exact ⟨Bool.eq_iff_iff.mpr ⟨forth.less, back.less⟩,
    Bool.eq_iff_iff.mpr ⟨forth.equal, back.equal⟩,
    Bool.eq_iff_iff.mpr ⟨forth.greater, back.greater⟩⟩

namespace GrammarType

/-- How far a type is from simple. -/
def severity : GrammarType → Nat
  | .simple => 0
  | .weak => 1
  | .unsuitable => 2

/-- Simple is the best type, and unsuitable the worst. -/
instance : LE GrammarType where
  le first second := first.severity ≤ second.severity

theorem le_antisymm
    {first second : GrammarType} (forth : first ≤ second) (back : second ≤ first) :
    first = second := by
  have same : first.severity = second.severity := Nat.le_antisymm forth back
  cases first <;> cases second <;> simp_all [severity]

theorem le_of_imp
    {first second : GrammarType} (simple : second = .simple → first = .simple)
    (suitable : second.allowsParsing = true → first.allowsParsing = true) :
    first ≤ second := by
  cases second with
  | simple =>
      rw [simple rfl]
      exact Nat.le_refl _
  | weak =>
      cases first with
      | simple => exact Nat.zero_le _
      | weak => exact Nat.le_refl _
      | unsuitable => cases suitable rfl
  | unsuitable =>
      show first.severity ≤ 2
      cases first <;> decide

end GrammarType

namespace Grammar

variable {first second : Grammar} {side : Side} {left right : Symbol}

theorem Adjacent.mono
    (included : first.productions ⊆ second.productions)
    (adjacent : first.Adjacent left right) :
    second.Adjacent left right := by
  obtain ⟨production, member, neighbours⟩ := adjacent
  exact ⟨production, included member, neighbours⟩

theorem Exposes.mono
    (included : first.productions ⊆ second.productions)
    (exposed : first.Exposes side left right) :
    second.Exposes side left right := by
  obtain ⟨body, member, atSide⟩ := exposes_iff.mp exposed
  exact exposes_iff.mpr ⟨body, included member, atSide⟩

theorem Reaches.mono
    (included : first.productions ⊆ second.productions)
    (reached : first.Reaches side left right) :
    second.Reaches side left right :=
  Relation.TransGen.mono (fun _ _ => Exposes.mono included) _ _ reached

/-- The start symbol matters to the row of the start marker only. -/
theorem Less.mono
    (included : first.productions ⊆ second.productions)
    (sameStart : left = .startMarker → first.start = second.start)
    (less : first.Less left right) :
    second.Less left right := by
  rcases less with ⟨next, adjacent, begins⟩ | ⟨isMarker, begins⟩
  · exact Or.inl ⟨next, adjacent.mono included, begins.mono included⟩
  · rw [sameStart isMarker] at begins
    exact Or.inr ⟨isMarker, begins.imp_right (Reaches.mono included)⟩

theorem Shifts.mono
    (included : first.productions ⊆ second.productions)
    (sameStart : left = .startMarker → first.start = second.start)
    (shifts : first.Shifts left right) :
    second.Shifts left right :=
  shifts.imp (Less.mono included sameStart) (Adjacent.mono included)

/-- The start symbol matters to the column of the end marker only. -/
theorem Greater.mono
    (included : first.productions ⊆ second.productions)
    (sameStart : right = .endMarker → first.start = second.start)
    (greater : first.Greater left right) :
    second.Greater left right := by
  rcases greater with ⟨terminal, ended, next, adjacent, ends, begins⟩ | ⟨isMarker, ends⟩
  · refine Or.inl ⟨terminal, ended, next, adjacent.mono included, ends.mono included, ?_⟩
    exact begins.imp_right (Reaches.mono included)
  · rw [sameStart isMarker] at ends
    exact Or.inr ⟨isMarker, ends.imp_right (Reaches.mono included)⟩

end Grammar

namespace Table

variable {first second : Grammar} {left right : Symbol}

/-- A cell keeps its relations when productions are added, and away from the
two markers also when the start symbol changes. -/
theorem relation_within
    (included : first.productions ⊆ second.productions)
    (sameStart : left = .startMarker ∨ right = .endMarker → first.start = second.start) :
    ((ofGrammar first).relation left right).Within ((ofGrammar second).relation left right) where
  less := by
    rw [less_ofGrammar_iff, less_ofGrammar_iff]
    exact Grammar.Less.mono included fun atStart => sameStart (Or.inl atStart)
  equal := by
    rw [equal_ofGrammar_iff, equal_ofGrammar_iff]
    exact Grammar.Adjacent.mono included
  greater := by
    rw [greater_ofGrammar_iff, greater_ofGrammar_iff]
    exact Grammar.Greater.mono included fun atEnd => sameStart (Or.inr atEnd)

theorem relation_eq_of_subset
    (forth : first.productions ⊆ second.productions)
    (back : second.productions ⊆ first.productions)
    (sameStart : left = .startMarker ∨ right = .endMarker → first.start = second.start) :
    (ofGrammar first).relation left right = (ofGrammar second).relation left right :=
  (relation_within forth sameStart).antisymm
    (relation_within back fun atMarker => (sameStart atMarker).symm)

theorem relation_ofGrammar_eq
    (same : first.productions = second.productions)
    (inner : left ≠ .startMarker) (innerColumn : right ≠ .endMarker) :
    (ofGrammar first).relation left right = (ofGrammar second).relation left right := by
  apply relation_eq_of_subset (fun _ member => same ▸ member) (fun _ member => same ▸ member)
  intro atMarker
  exact absurd atMarker (not_or.mpr ⟨inner, innerColumn⟩)

end Table

namespace Grammar

variable {first second : Grammar}

/-- Where a shift meets a reduction neither symbol is a marker, so the start
symbol is not involved. -/
theorem meet_mono
    (included : first.productions ⊆ second.productions)
    (shifts : first.Shifts left right) (greater : first.Greater left right) :
    (first.Less left right → second.Less left right) ∧ second.Greater left right := by
  constructor
  · apply Less.mono included
    rintro rfl
    exact absurd greater not_greater_startMarker
  · apply greater.mono included
    rintro rfl
    exact absurd shifts not_shifts_endMarker

theorem Exclusive.anti
    (included : first.productions ⊆ second.productions) (exclusive : second.Exclusive) :
    first.Exclusive := by
  apply exclusive_iff.mpr
  intro left right
  obtain ⟨notAdjacent, notGreater, neither⟩ := exclusive_iff.mp exclusive left right
  refine ⟨?_, ?_, ?_⟩
  · intro meet
    obtain ⟨less, adjacent⟩ := meet
    refine notAdjacent ⟨less.mono included ?_, adjacent.mono included⟩
    rintro rfl
    exact absurd adjacent not_adjacent_startMarker
  · intro meet
    obtain ⟨less, greater⟩ := meet
    obtain ⟨lessKept, greaterKept⟩ := meet_mono included (Or.inl less) greater
    exact notGreater ⟨lessKept less, greaterKept⟩
  · intro meet
    obtain ⟨adjacent, greater⟩ := meet
    exact neither ⟨adjacent.mono included, (meet_mono included (Or.inr adjacent) greater).2⟩

theorem Separates.anti
    (included : first.productions ⊆ second.productions) (separates : second.Separates) :
    first.Separates := by
  constructor
  · intro left right shifts greater
    obtain ⟨lessKept, greaterKept⟩ := meet_mono included shifts greater
    exact separates.not_greater left right (shifts.imp lessKept (Adjacent.mono included))
      greaterKept
  · intro production member other otherMember front before split shifts
    have grammatical : before.isGrammarSymbol = true := by
      apply (first.wellFormed other otherMember).body_isGrammarSymbol
      rw [split]
      exact List.mem_append_right _ List.mem_cons_self
    refine separates.no_suffix production (included member) other (included otherMember)
      front before split (shifts.mono included ?_)
    rintro rfl
    cases grammatical

/-- More productions never make the type of a grammar better. -/
theorem typeWith_ofGrammar_le
    (included : first.productions ⊆ second.productions) :
    first.typeWith (Table.ofGrammar first) ≤ second.typeWith (Table.ofGrammar second) := by
  apply GrammarType.le_of_imp
  · rw [typeWith_eq_simple_iff, typeWith_eq_simple_iff]
    exact Exclusive.anti included
  · rw [allowsParsing_iff_separates, allowsParsing_iff_separates]
    exact Separates.anti included

theorem typeWith_ofGrammar_eq
    (same : first.productions = second.productions) :
    first.typeWith (Table.ofGrammar first) = second.typeWith (Table.ofGrammar second) :=
  GrammarType.le_antisymm (typeWith_ofGrammar_le fun _ member => same ▸ member)
    (typeWith_ofGrammar_le fun _ member => same ▸ member)

/-- A grammar that has all productions of another one, in whatever order and
however often, is of no better type, whichever symbols the two start with.  With
one start symbol no cell loses a relation, so the order and the repetition of
productions change neither the type nor the cells. -/
theorem analysis_mono
    {first second : Grammar} (included : first.productions ⊆ second.productions) :
    first.analysis.type ≤ second.analysis.type ∧
      (first.start = second.start → ∀ row column,
        (first.analysis.table.relation row column).Within
          (second.analysis.table.relation row column)) ∧
      (second.productions ⊆ first.productions →
        first.analysis.type = second.analysis.type ∧
          (first.start = second.start → ∀ row column,
            first.analysis.table.relation row column =
              second.analysis.table.relation row column)) := by
  refine ⟨typeWith_ofGrammar_le included, ?_, ?_⟩
  · intro sameStart row column
    exact Table.relation_within included fun _ => sameStart
  · intro back
    refine ⟨GrammarType.le_antisymm (typeWith_ofGrammar_le included)
      (typeWith_ofGrammar_le back), ?_⟩
    intro sameStart row column
    exact Table.relation_eq_of_subset included back fun _ => sameStart

/-- The letter alone, declared twice, in the order opposite to that of the
sums. -/
def letters : Grammar where
  productions := [
    ⟨.nonterminal 'T', [.terminal 'a']⟩,
    ⟨.nonterminal 'E', [.nonterminal 'T']⟩,
    ⟨.nonterminal 'T', [.terminal 'a']⟩]
  start := .nonterminal 'E'
  wellFormed := by
    simp only [← Production.defect?_eq_none_iff]
    decide
  start_isHead := ⟨⟨.nonterminal 'E', [.nonterminal 'T']⟩, by decide, rfl⟩

/-- The sums have the letter, and with the others a pair that is less and equal. -/
theorem letters_analysis_mono :
    letters.productions ⊆ sums.productions ∧ letters.start = sums.start ∧
      letters.analysis.type = .simple ∧ sums.analysis.type = .weak ∧
      letters.analysis.type ≤ sums.analysis.type ∧
      (letters.analysis.table.relation (.terminal 'a') .endMarker).Within
        (sums.analysis.table.relation (.terminal 'a') .endMarker) := by
  have included : letters.productions ⊆ sums.productions := by decide
  obtain ⟨notWorse, cells, _⟩ := analysis_mono included
  exact ⟨included, rfl, by decide +kernel, by decide +kernel, notWorse, cells rfl _ _⟩

/-- The start symbol decides neither the type of a grammar nor the shape of its
table, nor any cell away from the two markers. -/
theorem analysis_withStart
    {grammar : Grammar} {start other : Symbol}
    (startDefined : grammar.isDefined start = true)
    (otherDefined : grammar.isDefined other = true) :
    ∃ first second, grammar.withStart start = .ok first ∧
      grammar.withStart other = .ok second ∧ first.withStart other = .ok second ∧
      first.start = start ∧ second.start = other ∧
      first.analysis.type = second.analysis.type ∧
      first.analysis.table.rows = second.analysis.table.rows ∧
      first.analysis.table.columns = second.analysis.table.columns ∧
      ∀ row column, row ≠ .startMarker → column ≠ .endMarker →
        first.analysis.table.relation row column =
          second.analysis.table.relation row column := by
  obtain ⟨first, started, firstProductions, firstStart⟩ := withStart_eq_ok startDefined
  obtain ⟨second, otherStarted, secondProductions, secondStart⟩ := withStart_eq_ok otherDefined
  have same : first.productions = second.productions :=
    firstProductions.trans secondProductions.symm
  have symbols_eq : first.symbols = second.symbols := by rw [symbols, symbols, same]
  refine ⟨first, second, started, otherStarted, ?_, firstStart, secondStart, ?_, ?_, ?_, ?_⟩
  · have stillDefined : first.isDefined other = true := by
      rw [isDefined, firstProductions]
      exact otherDefined
    obtain ⟨again, restarted, againProductions, againStart⟩ := withStart_eq_ok stillDefined
    rw [restarted, eq_of_productions_start (againProductions.trans same)
      (againStart.trans secondStart.symm)]
  · exact typeWith_ofGrammar_eq same
  · rw [analysis, analysis, Table.rows_ofEndSets, Table.rows_ofEndSets, symbols_eq]
  · rw [analysis, analysis, Table.columns_ofEndSets, Table.columns_ofEndSets, symbols_eq]
  · intro row column inner innerColumn
    exact Table.relation_ofGrammar_eq same inner innerColumn

/-- The sums, and the products among them. -/
theorem sums_analysis_withStart :
    ∃ first second, sums.withStart (.nonterminal 'E') = .ok first ∧
      sums.withStart (.nonterminal 'T') = .ok second ∧ first.start ≠ second.start ∧
      first.analysis.type = second.analysis.type ∧
      first.analysis.table.rows = second.analysis.table.rows ∧
      first.analysis.table.relation (.nonterminal 'T') (.terminal '+') =
        second.analysis.table.relation (.nonterminal 'T') (.terminal '+') := by
  have sumDefined : sums.isDefined (.nonterminal 'E') = true := by decide
  have productDefined : sums.isDefined (.nonterminal 'T') = true := by decide
  obtain ⟨first, second, started, otherStarted, _, firstStart, secondStart, sameType, sameRows,
    _, sameCells⟩ := analysis_withStart sumDefined productDefined
  refine ⟨first, second, started, otherStarted, ?_, sameType, sameRows, ?_⟩
  · rw [firstStart, secondStart]
    decide
  · exact sameCells _ _ (by decide) (by decide)

end Grammar

end PrecedenceGrammar
