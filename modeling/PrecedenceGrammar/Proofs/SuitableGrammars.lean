import PrecedenceGrammar.Classification
import PrecedenceGrammar.Proofs.TableRelations

/-!
# What the type of a grammar promises

A grammar that is simple or weak has no pair that both shifts and is greater,
and no body that can be mistaken for the end of a longer one.  For a simple
grammar the second promise is not checked, but follows from the first relation
of every pair being the only one.
-/

namespace PrecedenceGrammar

theorem precedingSymbol?_eq_some_iff
    {body longer : List Symbol} {before : Symbol} :
    precedingSymbol? body longer = some before ↔ ∃ front, longer = front ++ before :: body := by
  unfold precedingSymbol?
  split
  · next isSuffix =>
    obtain ⟨front, rfl⟩ := List.isSuffixOf_iff_suffix.mp isSuffix
    have cut : (front ++ body).take ((front ++ body).length - body.length) = front := by simp
    rw [cut, List.getLast?_eq_some_iff]
    constructor
    · intro lastOfFront
      obtain ⟨start, rfl⟩ := lastOfFront
      exact ⟨start, by simp⟩
    · intro precedes
      obtain ⟨start, split⟩ := precedes
      have regrouped : front ++ body = start ++ [before] ++ body := by simpa using split
      exact ⟨start, List.append_cancel_right regrouped⟩
  · next notSuffix =>
    constructor
    · intro impossible
      cases impossible
    · intro precedes
      obtain ⟨front, rfl⟩ := precedes
      have isSuffix : body.isSuffixOf (front ++ before :: body) = true :=
        List.isSuffixOf_iff_suffix.mpr ⟨front ++ [before], by simp⟩
      exact absurd isSuffix notSuffix

theorem Table.ambiguityIn?_eq_some_iff
    {table : Table} {production : Production} {longer : List Symbol} {found : Symbol × Symbol} :
    table.ambiguityIn? production longer = some found ↔
      ∃ front before, longer = front ++ before :: production.body ∧
        (table.relation before production.head).shifts = true ∧
        found = (before, production.head) := by
  simp only [ambiguityIn?, Option.bind_eq_some_iff, precedingSymbol?_eq_some_iff,
    Option.ite_none_right_eq_some, Option.some.injEq]
  constructor
  · intro ambiguous
    obtain ⟨before, ⟨front, split⟩, shifts, same⟩ := ambiguous
    exact ⟨front, before, split, shifts, same.symm⟩
  · intro ambiguous
    obtain ⟨front, before, split, shifts, same⟩ := ambiguous
    exact ⟨before, ⟨front, split⟩, shifts, same.symm⟩

/-- The suffix check finds nothing exactly when no body ends a longer one after
a symbol that its head may follow as well. -/
theorem Grammar.ambiguousSuffix?_eq_none_iff
    {grammar : Grammar} {table : Table} :
    grammar.ambiguousSuffix? table = none ↔
      ∀ production ∈ grammar.productions, ∀ other ∈ grammar.productions, ∀ front before,
        other.body = front ++ before :: production.body →
          (table.relation before production.head).shifts = false := by
  simp only [ambiguousSuffix?, List.findSome?_eq_none_iff]
  constructor
  · intro free production member other otherMember front before split
    by_contra shifts
    have found : table.ambiguityIn? production other.body = some (before, production.head) :=
      Table.ambiguityIn?_eq_some_iff.mpr
        ⟨front, before, split, eq_true_of_ne_false shifts, rfl⟩
    rw [free production member other otherMember] at found
    cases found
  · intro free production member other otherMember
    by_contra some_found
    obtain ⟨found, isFound⟩ := Option.ne_none_iff_exists'.mp some_found
    obtain ⟨front, before, split, shifts, _⟩ := Table.ambiguityIn?_eq_some_iff.mp isFound
    rw [free production member other otherMember front before split] at shifts
    cases shifts

theorem Table.relation_mem_relations
    {table : Table} {row column : Symbol}
    (related : table.relation row column ≠ .empty) :
    table.relation row column ∈ table.relations := by
  unfold relation at related ⊢
  split
  · next cells line =>
    rw [line] at related
    cases cell : cells.lookup column with
    | none => simp [cell] at related
    | some found =>
        obtain ⟨before, after, lines_eq, _⟩ := List.lookup_eq_some_iff.mp line
        obtain ⟨left, right, cells_eq, _⟩ := List.lookup_eq_some_iff.mp cell
        rw [relations, List.mem_flatMap]
        refine ⟨(row, cells), by simp [lines_eq], ?_⟩
        apply List.mem_map.mpr
        exact ⟨(column, found), by simp [cells_eq], rfl⟩
  · next line =>
    rw [line] at related
    exact absurd rfl related

/-- What a table lists are its cells. -/
theorem Table.exists_cell
    {grammar : Grammar} {relation : Relation}
    (listed : relation ∈ (ofGrammar grammar).relations) :
    ∃ left right, (ofGrammar grammar).relation left right = relation := by
  obtain ⟨line, isLine, inLine⟩ := List.mem_flatMap.mp listed
  obtain ⟨cell, inCells, rfl⟩ := List.mem_map.mp inLine
  obtain ⟨row, isRow, rfl⟩ := List.mem_map.mp isLine
  obtain ⟨column, isColumn, rfl⟩ := List.mem_map.mp inCells
  have rows_eq := rows_ofEndSets grammar (EndSets.ofGrammar grammar)
  have columns_eq := columns_ofEndSets grammar (EndSets.ofGrammar grammar)
  refine ⟨row, column, ?_⟩
  exact relation_ofEndSets grammar _ (rows_eq ▸ isRow) (columns_eq ▸ isColumn)

/-- What holds of all that a table lists holds of every pair, if it holds where
nothing is listed. -/
theorem Table.forall_mem_relations_iff
    {grammar : Grammar} (holds : Relation → Prop) (blank : holds .empty) :
    (∀ relation ∈ (ofGrammar grammar).relations, holds relation) ↔
      ∀ left right, holds ((ofGrammar grammar).relation left right) := by
  constructor
  · intro listed left right
    by_cases related : (ofGrammar grammar).relation left right = .empty
    · rw [related]
      exact blank
    · exact listed _ (relation_mem_relations related)
  · intro everywhere relation member
    obtain ⟨left, right, rfl⟩ := exists_cell member
    exact everywhere left right

namespace Grammar

variable {grammar : Grammar}

/-- The relations tell where a handle ends and where it begins. -/
structure Separates (grammar : Grammar) : Prop where
  not_greater : ∀ left right, grammar.Shifts left right → ¬ grammar.Greater left right
  no_suffix : ∀ production ∈ grammar.productions, ∀ other ∈ grammar.productions,
    ∀ front before, other.body = front ++ before :: production.body →
      ¬ grammar.Shifts before production.head

def Exclusive (grammar : Grammar) : Prop :=
  ∀ left right, ((Table.ofGrammar grammar).relation left right).width ≤ 1

/-- No pair asks for a shift and for a reduction. -/
def Decided (grammar : Grammar) : Prop :=
  ∀ left right, ((Table.ofGrammar grammar).relation left right).overlaps = false

theorem all_width_iff_exclusive :
    (Table.ofGrammar grammar).relations.all (·.width ≤ 1) = true ↔ grammar.Exclusive := by
  simp only [List.all_eq_true, decide_eq_true_eq]
  exact Table.forall_mem_relations_iff (fun relation => relation.width ≤ 1) (by decide)

theorem any_overlaps_eq_false_iff_decided :
    (Table.ofGrammar grammar).relations.any (·.overlaps) = false ↔ grammar.Decided := by
  simp only [List.any_eq_false, Bool.not_eq_true]
  exact Table.forall_mem_relations_iff (fun relation => relation.overlaps = false) (by decide)

/-- The type that a grammar has with the table of any other. -/
theorem typeWith_eq_simple_iff
    {other : Grammar} :
    grammar.typeWith (Table.ofGrammar other) = .simple ↔ other.Exclusive := by
  rw [← all_width_iff_exclusive]
  unfold typeWith diagnose
  split
  · next narrow => exact iff_of_true rfl narrow
  · next wide =>
    apply iff_of_false
    · intro simple
      split at simple
      · cases simple
      · split at simple <;> cases simple
    · exact wide

theorem typeWith_eq_weak_iff
    {other : Grammar} :
    grammar.typeWith (Table.ofGrammar other) = .weak ↔
      ¬ other.Exclusive ∧ other.Decided ∧
        grammar.ambiguousSuffix? (Table.ofGrammar other) = none := by
  rw [← all_width_iff_exclusive, ← any_overlaps_eq_false_iff_decided]
  unfold typeWith diagnose
  split
  · next narrow =>
    apply iff_of_false
    · intro weak
      cases weak
    · intro conditions
      exact conditions.1 narrow
  · next wide =>
    split
    · next overlapping =>
      apply iff_of_false
      · intro weak
        cases weak
      · intro conditions
        rw [conditions.2.1] at overlapping
        cases overlapping
    · next decided =>
      have apart := eq_false_of_ne_true decided
      split
      · next found =>
        apply iff_of_false
        · intro weak
          cases weak
        · intro conditions
          rw [conditions.2.2] at found
          cases found
      · next free => exact iff_of_true rfl ⟨wide, apart, free⟩

theorem exclusive_iff :
    grammar.Exclusive ↔ ∀ left right,
      ¬ (grammar.Less left right ∧ grammar.Adjacent left right) ∧
        ¬ (grammar.Less left right ∧ grammar.Greater left right) ∧
        ¬ (grammar.Adjacent left right ∧ grammar.Greater left right) := by
  simp only [Exclusive, Relation.width_le_one_iff, Table.less_ofGrammar_iff,
    Table.equal_ofGrammar_iff, Table.greater_ofGrammar_iff]

/-- If only one relation holds of any pair, then a body that ends a longer one
is less than what stands before it, which its head could not follow as well. -/
theorem Exclusive.separates
    (exclusive : grammar.Exclusive) :
    grammar.Separates := by
  constructor
  · intro left right shifts greater
    obtain ⟨_, notLess, notAdjacent⟩ := exclusive_iff.mp exclusive left right
    rcases shifts with less | adjacent
    · exact notLess ⟨less, greater⟩
    · exact notAdjacent ⟨adjacent, greater⟩
  · intro production member other otherMember front before split shifts
    cases body_eq : production.body with
    | nil => exact (grammar.wellFormed production member).body_ne_nil body_eq
    | cons first later =>
        rw [body_eq] at split
        have adjacent : grammar.Adjacent before first :=
          ⟨other, otherMember, front, later, split⟩
        have begins : grammar.Reaches .leading production.head first :=
          .single (exposes_iff.mpr ⟨production.body, member, by rw [body_eq]; rfl⟩)
        have less : grammar.Less before first := shifts.less_of_reaches begins
        exact (exclusive_iff.mp exclusive before first).1 ⟨less, adjacent⟩

theorem Decided.separates
    (decided : grammar.Decided)
    (free : grammar.ambiguousSuffix? (Table.ofGrammar grammar) = none) :
    grammar.Separates := by
  constructor
  · intro left right shifts greater
    have isShift := Table.shifts_ofGrammar_iff.mpr shifts
    have isGreater := Table.greater_ofGrammar_iff.mpr greater
    have apart := decided left right
    rw [Relation.overlaps, isShift, isGreater] at apart
    cases apart
  · intro production member other otherMember front before split shifts
    have refused := ambiguousSuffix?_eq_none_iff.mp free production member other otherMember
      front before split
    rw [Table.shifts_ofGrammar_iff.mpr shifts] at refused
    cases refused

theorem Separates.decided
    (separates : grammar.Separates) :
    grammar.Decided := by
  intro left right
  rw [← Bool.not_eq_true, Relation.overlaps, Bool.and_eq_true, Table.shifts_ofGrammar_iff,
    Table.greater_ofGrammar_iff, not_and]
  exact separates.not_greater left right

theorem Separates.ambiguousSuffix?_eq_none
    (separates : grammar.Separates) :
    grammar.ambiguousSuffix? (Table.ofGrammar grammar) = none := by
  apply ambiguousSuffix?_eq_none_iff.mpr
  intro production member other otherMember front before split
  rw [← Bool.not_eq_true, Table.shifts_ofGrammar_iff]
  exact separates.no_suffix production member other otherMember front before split

/-- Although a simple grammar is not put to the two checks for a weak one, a
grammar can be parsed exactly if it passes both. -/
theorem allowsParsing_iff_separates :
    (grammar.typeWith (Table.ofGrammar grammar)).allowsParsing = true ↔ grammar.Separates := by
  constructor
  · intro suitable
    cases type : grammar.typeWith (Table.ofGrammar grammar) with
    | simple => exact (typeWith_eq_simple_iff.mp type).separates
    | weak =>
        obtain ⟨_, decided, free⟩ := typeWith_eq_weak_iff.mp type
        exact decided.separates free
    | unsuitable =>
        rw [type] at suitable
        cases suitable
  · intro separates
    by_cases exclusive : grammar.Exclusive
    · rw [typeWith_eq_simple_iff.mpr exclusive]
      rfl
    · rw [typeWith_eq_weak_iff.mpr
        ⟨exclusive, separates.decided, separates.ambiguousSuffix?_eq_none⟩]
      rfl

theorem separates_of_allowsParsing
    (suitable : (grammar.typeWith (Table.ofGrammar grammar)).allowsParsing = true) :
    grammar.Separates :=
  allowsParsing_iff_separates.mp suitable

end Grammar

end PrecedenceGrammar
