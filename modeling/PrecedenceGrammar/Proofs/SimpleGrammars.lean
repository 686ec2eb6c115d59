import PrecedenceGrammar.Proofs.ParserCompleteness
import PrecedenceGrammar.Proofs.ParserInvariant
import PrecedenceGrammar.Proofs.ParserSoundness

/-!
# Simple grammars

A grammar whose pairs hold one relation at most is called simple without any
further check.  It would pass the checks for a weak grammar as well, so both
types rest on the same two conditions, and under these the longest body at the
top of the stack is the handle wherever there is one.  In a simple grammar the
handle begins with a strictly less marker, so it is the whole basis.
-/

namespace PrecedenceGrammar

open PrecedenceGrammar.Symbol (lastOf Settled)

theorem Relation.width_le_one_iff_count (relation : Relation) :
    relation.width ≤ 1 ↔
      [relation.less, relation.equal, relation.greater].count true ≤ 1 := by
  rcases relation with ⟨_ | _, _ | _, _ | _⟩ <;> decide

namespace Grammar

/-- What tells a weak grammar from an unsuitable one: no cell asks for a shift
and for a reduction, and no body can be mistaken for the end of a longer one. -/
structure PassesChecks (grammar : Grammar) (table : Table) : Prop where
  decided : ∀ relation ∈ table.relations, relation.overlaps = false
  unambiguous : grammar.ambiguousSuffix? table = none

variable {grammar : Grammar}

theorem passesChecks_iff_separates :
    grammar.PassesChecks (Table.ofGrammar grammar) ↔ grammar.Separates := by
  have decided_iff : (∀ relation ∈ (Table.ofGrammar grammar).relations,
      relation.overlaps = false) ↔ grammar.Decided :=
    Table.forall_mem_relations_iff (fun relation => relation.overlaps = false) rfl
  constructor
  · intro passes
    exact (decided_iff.mp passes.decided).separates passes.unambiguous
  · intro separates
    exact ⟨decided_iff.mpr separates.decided, separates.ambiguousSuffix?_eq_none⟩

theorem exclusive_of_count
    (single : ∀ relation ∈ (Table.ofGrammar grammar).relations,
      [relation.less, relation.equal, relation.greater].count true ≤ 1) :
    grammar.Exclusive := by
  apply all_width_iff_exclusive.mp
  rw [List.all_eq_true]
  intro relation member
  exact decide_eq_true ((Relation.width_le_one_iff_count relation).mpr (single relation member))

/-- Wherever the stack holds a form up to the end of its handle, the handle is
at the end of the basis and is the longest body there. -/
theorem Separates.longestBody?_at_handle
    {before after : List Symbol} {production : Production} {stack : Stack}
    (separates : grammar.Separates) (member : production ∈ grammar.productions)
    (derivation : grammar.DerivesRightmost [grammar.start] (before ++ production.head :: after))
    (settled : Settled after) (marked : stack.Marked (Table.ofGrammar grammar))
    (symbols_eq : stack.symbols = before ++ production.body) :
    ∃ skipped head, stack.basis? = some (skipped ++ production.body) ∧
      grammar.longestBody? (skipped ++ production.body) = some (production.body, head) := by
  have marks := handleMarks_of_derivesRightmost derivation member settled
  obtain ⟨front, skipped, rfl, found⟩ := marks.exists_basis? member marked symbols_eq
  obtain ⟨head, isBody⟩ := exists_headOf? member
  exact ⟨skipped, head, found, marks.longestBody?_eq separates member isBody⟩

/-- If every cell holds one relation at most, the grammar passes both checks
that it is not put to.  So the grammars that can be parsed are just those that
pass the checks, and in all of them, simple or weak, the longest body at the end
of the basis is the handle when there is one. -/
theorem checks_of_single_relations (grammar : Grammar) :
    let table := Table.ofGrammar grammar
    ((∀ relation ∈ table.relations,
        [relation.less, relation.equal, relation.greater].count true ≤ 1) →
      grammar.typeWith table = .simple ∧ grammar.PassesChecks table) ∧
    (grammar.typeWith table ≠ .unsuitable ↔ grammar.PassesChecks table) ∧
    (grammar.typeWith table ≠ .unsuitable →
      ∀ before after production (stack : Stack), production ∈ grammar.productions →
        grammar.DerivesRightmost [grammar.start] (before ++ production.head :: after) →
        Settled after → stack.Marked table → stack.symbols = before ++ production.body →
        ∃ skipped head, stack.basis? = some (skipped ++ production.body) ∧
          grammar.longestBody? (skipped ++ production.body) = some (production.body, head)) := by
  intro table
  have suitable_iff : grammar.typeWith table ≠ .unsuitable ↔ grammar.Separates := by
    rw [← allowsParsing_iff_separates, GrammarType.allowsParsing, bne_iff_ne]
  refine ⟨?_, ?_, ?_⟩
  · intro single
    have exclusive := exclusive_of_count single
    exact ⟨typeWith_eq_simple_iff.mpr exclusive,
      passesChecks_iff_separates.mpr exclusive.separates⟩
  · rw [suitable_iff, passesChecks_iff_separates]
  · intro suitable before after production stack member derivation settled marked symbols_eq
    exact (suitable_iff.mp suitable).longestBody?_at_handle member derivation settled marked
      symbols_eq

/-- A body that ends a longer one, and a head that cannot stand where it does. -/
def endings : Grammar where
  productions := [
    ⟨.nonterminal 'S', [.terminal 'c', .nonterminal 'B']⟩,
    ⟨.nonterminal 'S', [.terminal 'a', .terminal 'b']⟩,
    ⟨.nonterminal 'B', [.terminal 'b']⟩]
  start := .nonterminal 'S'
  wellFormed := by
    simp only [← Production.defect?_eq_none_iff]
    decide
  start_isHead := ⟨_, List.mem_cons_self, rfl⟩

/-- The longer body is at the top of the stack, and is what is found there. -/
theorem endings_checks :
    let table := Table.ofGrammar endings
    let body : List Symbol := [.terminal 'a', .terminal 'b']
    let stack : Stack := [
      ⟨table.relation (.terminal 'a') (.terminal 'b'), .terminal 'b'⟩,
      ⟨table.relation .startMarker (.terminal 'a'), .terminal 'a'⟩]
    endings.PassesChecks table ∧
      ∃ skipped head, stack.basis? = some (skipped ++ body) ∧
        endings.longestBody? (skipped ++ body) = some (body, head) := by
  intro table body stack
  obtain ⟨passes, _, longest⟩ := checks_of_single_relations endings
  obtain ⟨simple, checks⟩ := passes (by decide +kernel)
  have suitable : endings.typeWith table ≠ .unsuitable := by
    rw [simple]
    decide
  refine ⟨checks, longest suitable [] [] ⟨.nonterminal 'S', body⟩ stack (by decide) .refl
    (by simp [Settled]) ⟨rfl, rfl, trivial⟩ rfl⟩

end Grammar

namespace Configuration

variable {grammar other : Grammar}

/-- A well marked stack, and only terminals in front of the end marker, which
is unread. -/
structure ReadsTerminals (configuration : Configuration) (table : Table) : Prop where
  wellMarked : configuration.stack.WellMarked table
  unfinished : configuration.Unfinished
  settled : Settled configuration.input.dropLast

theorem readsTerminals_initial (table : Table) (text : Text) :
    (initial (Symbol.terminals text)).ReadsTerminals table where
  wellMarked := Stack.wellMarked_nil table
  unfinished := unfinished_initial _
  settled := by simpa [initial] using Symbol.settled_terminals text

theorem Moves.readsTerminals
    {configuration next : Configuration} {action : Action}
    (moves : Moves grammar (Table.ofGrammar other) configuration action next)
    (reads : configuration.ReadsTerminals (Table.ofGrammar other)) :
    next.ReadsTerminals (Table.ofGrammar other) := by
  have unfinished := moves.unfinished (Table.shifts_endMarker other) reads.unfinished
  refine ⟨moves.wellMarked reads.wellMarked, unfinished, ?_⟩
  have settled := reads.settled
  cases action with
  | shift symbol =>
      rw [(moves.shift_form unfinished).2] at settled
      exact (Symbol.settled_cons_iff.mp settled).2
  | reduce body head =>
      rw [moves.reduce_form.1]
      exact settled

/-- A reduction from which a run goes on to accept takes a handle off the
stack. -/
theorem Moves.handleMarks_of_accepted
    {configuration next : Configuration} {body : List Symbol} {head : Symbol}
    {later : List Move}
    (moves : Moves grammar (Table.ofGrammar other) configuration (.reduce body head) next)
    (reads : configuration.ReadsTerminals (Table.ofGrammar other))
    (accepts : RunsTo grammar (Table.ofGrammar other) next later .accepted) :
    ∃ front, configuration.stack.symbols = front ++ body ∧
      next.stack.symbols = front ++ [head] ∧
      grammar.HandleMarks front ⟨head, body⟩ configuration.input.dropLast := by
  have nextReads := moves.readsTerminals reads
  have derivation := (accepts.accepted_rightmostDerivation (Table.shifts_endMarker other) rfl
    nextReads.unfinished nextReads.settled).1.derivesRightmost
  obtain ⟨sameInput, isBody, front, after, before⟩ := moves.reduce_form
  refine ⟨front, List.append_cancel_right before, ?_, ?_⟩
  · rw [form, sameInput, List.append_cons] at after
    exact List.append_cancel_right after
  · rw [after] at derivation
    exact Grammar.handleMarks_of_derivesRightmost derivation
      (grammar.mem_productions_of_headOf? isBody) reads.settled

end Configuration

namespace Grammar

variable {grammar : Grammar}

/-- If only one relation holds of any pair, the first symbol of a handle is
marked as strictly less. -/
theorem HandleMarks.isStrictlyLess_first
    {before after : List Symbol} {production : Production} {first : Symbol}
    (marks : grammar.HandleMarks before production after) (exclusive : grammar.Exclusive)
    (leads : production.body.head? = some first) :
    ((Table.ofGrammar grammar).relation (lastOf before) first).isStrictlyLess = true := by
  have less := marks.first_less first leads
  have isLess := Table.less_ofGrammar_iff.mpr less
  have notEqual : ((Table.ofGrammar grammar).relation (lastOf before) first).equal = false := by
    rw [← Bool.not_eq_true, Table.equal_ofGrammar_iff]
    intro adjacent
    exact (exclusive_iff.mp exclusive _ _).1 ⟨less, adjacent⟩
  simp [Relation.isStrictlyLess, isLess, notEqual]

/-- Then the basis of a stack that ends with a handle is the handle. -/
theorem HandleMarks.basis?_eq
    {before after : List Symbol} {production : Production} {stack : Stack}
    (marks : grammar.HandleMarks before production after) (exclusive : grammar.Exclusive)
    (member : production ∈ grammar.productions)
    (marked : stack.Marked (Table.ofGrammar grammar))
    (symbols_eq : stack.symbols = before ++ production.body) :
    stack.basis? = some production.body := by
  obtain ⟨first, later, body_eq⟩ := List.exists_cons_of_ne_nil (body_ne_nil member)
  rw [body_eq] at symbols_eq
  obtain ⟨upper, entry, below, rfl, rfl, rfl, rfl⟩ := Stack.exists_entry_of_symbols symbols_eq
  apply Stack.basis?_eq_some_iff.mpr
  refine ⟨upper, entry, below, rfl, ?_, ?_, body_eq⟩
  · rw [marked.marker_eq]
    apply marks.isStrictlyLess_first exclusive
    rw [body_eq]
    rfl
  · intro other inUpper
    obtain ⟨above, inner, rfl⟩ := List.append_of_mem inUpper
    obtain ⟨start, last, split⟩ :=
      (List.eq_nil_or_concat' (entry.symbol :: Stack.symbols inner)).resolve_left
        (List.cons_ne_nil _ _)
    rw [List.append_assoc] at marked
    have below_eq : Stack.symbols (inner ++ entry :: below) =
        (Stack.symbols below ++ start) ++ [last] := by
      rw [Stack.symbols_append, Stack.symbols_cons, List.append_assoc, List.singleton_append,
        split, List.append_assoc]
    have inside : production.body = start ++ last :: other.symbol :: Stack.symbols above := by
      rw [body_eq, Stack.symbols_append, Stack.symbols_cons, List.append_assoc,
        ← List.cons_append, split]
      simp
    exact isStrictlyLess_eq_false_of_body member marked below_eq inside

/-- In a simple grammar, each reduction on the way to an accepted text replaces
the whole basis by the head, so no shorter end of it is ever tried. -/
theorem reductions_of_simple
    {grammar : Grammar} {text : Text} {trace : Trace}
    (simple : grammar.typeWith (Table.ofGrammar grammar) = .simple)
    (parsed : grammar.parse (Table.ofGrammar grammar) (Symbol.terminals text) = .ok trace)
    (accepted : trace.outcome = .accepted) :
    ∀ configuration move,
      (configuration, move) ∈
        (grammar.run (Table.ofGrammar grammar) (Symbol.terminals text)).steps →
      ∀ body head, move.action = .reduce body head →
        configuration.stack.basis? = some body ∧ grammar.headOf? body = some head ∧
          ∃ front, configuration.stack.symbols = front ++ body ∧
            move.configuration.stack.symbols = front ++ [head] := by
  intro configuration move member body head isReduction
  have exclusive := typeWith_eq_simple_iff.mp simple
  have unshifted := Table.shifts_endMarker grammar
  obtain ⟨lines, outcome⟩ := trace
  cases accepted
  obtain ⟨moves, runs⟩ := (parse_accepted_iff unshifted).mp ⟨lines, parsed⟩
  rw [run_eq_of_runsTo unshifted runs] at member
  obtain ⟨reads, moved, later, accepts⟩ := runs.of_mem_steps
    (fun visited => visited.ReadsTerminals (Table.ofGrammar grammar))
    (fun _ _ _ step => step.readsTerminals) (Configuration.readsTerminals_initial _ text) member
  rw [isReduction] at moved
  have isBody := moved.reduce_form.2.1
  obtain ⟨front, before, after, marks⟩ := moved.handleMarks_of_accepted reads accepts
  refine ⟨?_, isBody, front, before, after⟩
  exact marks.basis?_eq exclusive (mem_productions_of_headOf? isBody) reads.wellMarked.marked
    before

/-- The longer of two bodies at the top of the stack is the whole basis. -/
theorem endings_reductions_of_simple :
    let table := Table.ofGrammar endings
    let body : List Symbol := [.terminal 'a', .terminal 'b']
    let stack : Stack := [
      ⟨table.relation (.terminal 'a') (.terminal 'b'), .terminal 'b'⟩,
      ⟨table.relation .startMarker (.terminal 'a'), .terminal 'a'⟩]
    endings.typeWith table = .simple ∧
      (∃ trace, endings.parse table (Symbol.terminals ['a', 'b']) = .ok trace ∧
        trace.outcome = .accepted) ∧
      stack.basis? = some body ∧ endings.headOf? body = some (.nonterminal 'S') := by
  intro table body stack
  have simple : endings.typeWith table = .simple := by decide +kernel
  have parsed : endings.parse table (Symbol.terminals ['a', 'b']) =
      .ok ⟨[['^', ' ', 'a', 'b', '$'], ['^', 'a', ' ', 'b', '$'], ['^', 'a', 'b', ' ', '$'],
        ['^', 'S', ' ', '$'], ['^', 'S', '$']], .accepted⟩ := by
    decide +kernel
  have isStep : (⟨stack, [.endMarker]⟩, ⟨.reduce body (.nonterminal 'S'),
      ⟨[⟨table.relation .startMarker (.nonterminal 'S'), .nonterminal 'S'⟩], [.endMarker]⟩⟩) ∈
      (endings.run table (Symbol.terminals ['a', 'b'])).steps := by
    decide +kernel
  obtain ⟨found, isBody, _⟩ := reductions_of_simple simple parsed rfl _ _ isStep _ _ rfl
  exact ⟨simple, ⟨_, parsed, rfl⟩, found, isBody⟩

/-- In a weak grammar a basis may end with a body that is shorter. -/
example :
    ∃ step ∈ (sums.run (Table.ofGrammar sums) (Symbol.terminals ['a', '+', 'a', '*', 'a'])).steps,
      step.1.stack.basis? = some [.nonterminal 'E', .terminal '+', .nonterminal 'T',
          .terminal '*', .terminal 'a'] ∧
        step.2.action = .reduce [.nonterminal 'T', .terminal '*', .terminal 'a']
          (.nonterminal 'T') := by
  decide +kernel

end Grammar

end PrecedenceGrammar
