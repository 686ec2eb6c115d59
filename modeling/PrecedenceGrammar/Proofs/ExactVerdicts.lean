import PrecedenceGrammar.Proofs.SimpleGrammars

/-!
# Exact verdicts

Each type is given under conditions on the cells of the table and on the ends of
the bodies alone, whichever grammar the table was made for.  The suffix check
looks at one place of the longer body, which is there whenever it is looked at,
and finds a pair exactly when a body and a longer one make it ambiguous.
-/

namespace PrecedenceGrammar

/-- A longer body with another one at its end has a place just before that one,
where the preceding symbol is looked up. -/
theorem precedingSymbol?_eq_getElem
    {body longer : List Symbol}
    (shorter : body.length < longer.length) (isSuffix : body <:+ longer) :
    ∃ place, place + body.length + 1 = longer.length ∧
      ∃ inBounds : place < longer.length, precedingSymbol? body longer = some longer[place] := by
  obtain ⟨front, rfl⟩ := isSuffix
  have nonempty : front ≠ [] := by
    rintro rfl
    simp at shorter
  obtain ⟨start, before, rfl⟩ := (List.eq_nil_or_concat' front).resolve_left nonempty
  refine ⟨start.length, by simp; omega, by simp, ?_⟩
  rw [precedingSymbol?_eq_some_iff]
  exact ⟨start, by simp⟩

/-- Nothing is looked up in any other two bodies. -/
theorem precedingSymbol?_eq_none
    {body longer : List Symbol}
    (unguarded : ¬ (body.length < longer.length ∧ body <:+ longer)) :
    precedingSymbol? body longer = none := by
  rw [Option.eq_none_iff_forall_ne_some]
  intro before found
  obtain ⟨front, rfl⟩ := precedingSymbol?_eq_some_iff.mp found
  apply unguarded
  exact ⟨by simp; omega, front ++ [before], by simp⟩

/-- What holds where there is no cell holds of every pair as soon as it holds of
all cells. -/
theorem Table.forall_relation_iff
    {grammar : Grammar} (holds : Relation → Prop) (blank : holds .empty) :
    let table := ofGrammar grammar
    (∀ left right, holds (table.relation left right)) ↔
      ∀ row ∈ table.rows, ∀ column ∈ table.columns, holds (table.relation row column) := by
  intro table
  constructor
  · intro everywhere row _ column _
    exact everywhere row column
  · intro inCells left right
    by_cases inside : left ∈ table.rows ∧ right ∈ table.columns
    · exact inCells left inside.1 right inside.2
    · have outside := relation_ofEndSets_outside grammar (EndSets.ofGrammar grammar)
        (not_and_or.mp inside)
      show holds ((ofEndSets grammar (EndSets.ofGrammar grammar)).relation left right)
      rw [outside]
      exact blank

theorem Relation.overlaps_eq_false_iff
    (relation : Relation) :
    relation.overlaps = false ↔
      ¬ (relation.greater = true ∧ (relation.less = true ∨ relation.equal = true)) := by
  rw [← Bool.not_eq_true, overlaps, shifts, Bool.and_eq_true, Bool.or_eq_true, and_comm]

namespace Grammar

variable {grammar other : Grammar} {table : Table} {before head : Symbol}

/-- A body of the head is the end of a longer one after the symbol, and the head
may follow that symbol. -/
def HasAmbiguousEnd (grammar : Grammar) (table : Table) (before head : Symbol) : Prop :=
  ∃ body longerHead front,
    ⟨head, body⟩ ∈ grammar.productions ∧
      ⟨longerHead, front ++ before :: body⟩ ∈ grammar.productions ∧
      ((table.relation before head).less = true ∨ (table.relation before head).equal = true)

theorem hasAmbiguousEnd_of_ambiguousSuffix?
    (found : grammar.ambiguousSuffix? table = some (before, head)) :
    grammar.HasAmbiguousEnd table before head := by
  obtain ⟨production, member, inner⟩ := List.exists_of_findSome?_eq_some found
  obtain ⟨⟨longerHead, longer⟩, longerMember, isFound⟩ := List.exists_of_findSome?_eq_some inner
  obtain ⟨front, _, rfl, shifts, same⟩ := Table.ambiguityIn?_eq_some_iff.mp isFound
  cases same
  rw [Relation.shifts, Bool.or_eq_true] at shifts
  exact ⟨production.body, longerHead, front, member, longerMember, shifts⟩

theorem ambiguousSuffix?_eq_none_iff_not_hasAmbiguousEnd :
    grammar.ambiguousSuffix? table = none ↔
      ¬ ∃ before head, grammar.HasAmbiguousEnd table before head := by
  constructor
  · intro free ambiguous
    obtain ⟨before, head, body, longerHead, front, member, longerMember, shifts⟩ := ambiguous
    have refused := ambiguousSuffix?_eq_none_iff.mp free _ member _ longerMember front before rfl
    rw [Relation.shifts, Bool.or_eq_false_iff] at refused
    obtain less | equal := shifts
    · exact absurd less (Bool.eq_false_iff.mp refused.1)
    · exact absurd equal (Bool.eq_false_iff.mp refused.2)
  · intro free
    rw [Option.eq_none_iff_forall_ne_some]
    intro found isFound
    exact free ⟨found.1, found.2, hasAmbiguousEnd_of_ambiguousSuffix? isFound⟩

theorem exclusive_iff_cells :
    other.Exclusive ↔
      let table := Table.ofGrammar other
      ∀ row ∈ table.rows, ∀ column ∈ table.columns,
        [(table.relation row column).less, (table.relation row column).equal,
          (table.relation row column).greater].count true ≤ 1 := by
  simp only [Exclusive, Relation.width_le_one_iff_count]
  exact Table.forall_relation_iff
    (fun relation => [relation.less, relation.equal, relation.greater].count true ≤ 1) (by decide)

theorem decided_iff_cells :
    other.Decided ↔
      let table := Table.ofGrammar other
      ∀ row ∈ table.rows, ∀ column ∈ table.columns,
        ¬ ((table.relation row column).greater = true ∧
          ((table.relation row column).less = true ∨
            (table.relation row column).equal = true)) := by
  simp only [Decided, Relation.overlaps_eq_false_iff]
  exact Table.forall_relation_iff (fun relation =>
    ¬ (relation.greater = true ∧ (relation.less = true ∨ relation.equal = true))) (by decide)

/-- The conditions of each type, for the table of any grammar, and what the
suffix check finds and where it looks. -/
theorem typeWith_exact (grammar other : Grammar) :
    let table := Table.ofGrammar other
    let relations row column := [(table.relation row column).less,
      (table.relation row column).equal, (table.relation row column).greater].count true
    let isSimple := ∀ row ∈ table.rows, ∀ column ∈ table.columns, relations row column ≤ 1
    let isWeak :=
      (∃ row ∈ table.rows, ∃ column ∈ table.columns, 2 ≤ relations row column) ∧
        (∀ row ∈ table.rows, ∀ column ∈ table.columns,
          ¬ ((table.relation row column).greater = true ∧
            ((table.relation row column).less = true ∨
              (table.relation row column).equal = true))) ∧
        ¬ ∃ before head, grammar.HasAmbiguousEnd table before head
    (grammar.typeWith table = .simple ↔ isSimple) ∧
      (grammar.typeWith table = .weak ↔ isWeak) ∧
      (grammar.typeWith table = .unsuitable ↔ ¬ isSimple ∧ ¬ isWeak) ∧
      ((grammar.ambiguousSuffix? table).isSome = true ↔
        ∃ before head, grammar.HasAmbiguousEnd table before head) ∧
      (∀ before head, grammar.ambiguousSuffix? table = some (before, head) →
        grammar.HasAmbiguousEnd table before head) ∧
      ∀ production ∈ grammar.productions, ∀ longer ∈ grammar.productions,
        let body := production.body
        let isEnd := body.length < longer.body.length ∧ body <:+ longer.body
        (isEnd → ∃ place, place + body.length + 1 = longer.body.length ∧
          ∃ inBounds : place < longer.body.length,
            precedingSymbol? body longer.body = some longer.body[place]) ∧
        (¬ isEnd → precedingSymbol? body longer.body = none) := by
  intro table relations isSimple isWeak
  have simple_iff : grammar.typeWith table = .simple ↔ isSimple :=
    typeWith_eq_simple_iff.trans exclusive_iff_cells
  have wide_iff : ¬ other.Exclusive ↔
      ∃ row ∈ table.rows, ∃ column ∈ table.columns, 2 ≤ relations row column := by
    rw [exclusive_iff_cells]
    simp only [not_forall, not_le, exists_prop]
    rfl
  have weak_iff : grammar.typeWith table = .weak ↔ isWeak := by
    rw [typeWith_eq_weak_iff, wide_iff, decided_iff_cells,
      ambiguousSuffix?_eq_none_iff_not_hasAmbiguousEnd]
  refine ⟨simple_iff, weak_iff, ?_, ?_, ?_, ?_⟩
  · rw [← simple_iff, ← weak_iff]
    cases grammar.typeWith table <;> decide
  · rw [Option.isSome_iff_ne_none, ne_eq, ambiguousSuffix?_eq_none_iff_not_hasAmbiguousEnd,
      not_not]
  · intro before head found
    exact hasAmbiguousEnd_of_ambiguousSuffix? found
  · intro production _ longer _ body isEnd
    constructor
    · intro guarded
      exact precedingSymbol?_eq_getElem guarded.1 guarded.2
    · intro unguarded
      exact precedingSymbol?_eq_none unguarded

/-- The last letter is the end of a longer body, after a letter that its own head
may follow. -/
example :
    (ofProductions [
        ⟨.nonterminal 'S', [.terminal 'a', .nonterminal 'A']⟩,
        ⟨.nonterminal 'S', [.terminal 'a', .terminal 'b']⟩,
        ⟨.nonterminal 'A', [.terminal 'b']⟩]).map (fun grammar =>
          grammar.ambiguousSuffix? (Table.ofGrammar grammar)) =
      .ok (some (.terminal 'a', .nonterminal 'A')) := by
  decide +kernel

end Grammar

end PrecedenceGrammar
