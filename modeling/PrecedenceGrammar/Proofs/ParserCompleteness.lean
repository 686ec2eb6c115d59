import PrecedenceGrammar.Proofs.HandleUniqueness
import PrecedenceGrammar.Proofs.ParserRuns

/-!
# Completeness of the parser

In a grammar that can be parsed, the parser walks a rightmost derivation
backwards: it shifts up to the end of the handle, where greater first holds,
and what it reduces there is the handle.  So it accepts every text that can be
derived.
-/

namespace PrecedenceGrammar

open PrecedenceGrammar.Symbol (lastOf firstOf Settled)

namespace Stack

theorem top_eq_lastOf (stack : Stack) : top stack = lastOf (symbols stack) := by
  cases stack with
  | nil => rfl
  | cons entry below =>
      rw [symbols_cons, Symbol.lastOf_append_singleton]
      rfl

theorem Marked.marker_eq
    {table : Table} {upper below : Stack} {entry : StackEntry}
    (marked : Marked table (upper ++ entry :: below)) :
    entry.marker = table.relation (lastOf (symbols below)) entry.symbol := by
  rw [← top_eq_lastOf]
  exact marked.of_append.1

end Stack

namespace Grammar

variable {grammar : Grammar}

theorem exists_headOf?
    {production : Production} (member : production ∈ grammar.productions) :
    ∃ head, grammar.headOf? production.body = some head := by
  cases found : grammar.headOf? production.body with
  | none =>
      rw [headOf?, Option.map_eq_none_iff, List.find?_eq_none] at found
      exact absurd (by simp) (found production member)
  | some head => exact ⟨head, rfl⟩

theorem headOf?_of_distinctBodies
    {production : Production} (distinct : grammar.DistinctBodies)
    (member : production ∈ grammar.productions) :
    grammar.headOf? production.body = some production.head := by
  obtain ⟨head, found⟩ := exists_headOf? member
  rw [found, distinct production member _ (mem_productions_of_headOf? found) rfl]

/-- The marker of the lowest entry is strictly less. -/
theorem exists_isStrictlyLess
    {stack : Stack} (marked : stack.Marked (Table.ofGrammar grammar)) (nonempty : stack ≠ [])
    (shifts : (Symbol.startMarker :: stack.symbols).IsChain grammar.Shifts) :
    ∃ entry ∈ stack, entry.marker.isStrictlyLess = true := by
  obtain ⟨upper, entry, rfl⟩ := (List.eq_nil_or_concat' stack).resolve_left nonempty
  refine ⟨entry, by simp, ?_⟩
  rw [marked.marker_eq]
  rw [Stack.symbols_append] at shifts
  exact isStrictlyLess_startMarker (List.isChain_cons_cons.mp shifts).1

/-- Next to each other in a body symbols are equal, so no basis begins between
them. -/
theorem isStrictlyLess_eq_false_of_body
    {production : Production} {upper below : Stack} {entry : StackEntry}
    {front start back : List Symbol} {last : Symbol}
    (member : production ∈ grammar.productions)
    (marked : Stack.Marked (Table.ofGrammar grammar) (upper ++ entry :: below))
    (below_eq : below.symbols = front ++ [last])
    (inside : production.body = start ++ last :: entry.symbol :: back) :
    entry.marker.isStrictlyLess = false := by
  have adjacent : grammar.Adjacent last entry.symbol :=
    ⟨production, member, start, back, inside⟩
  have marker_eq := marked.marker_eq
  rw [below_eq, Symbol.lastOf_append_singleton] at marker_eq
  have equal := Table.equal_ofGrammar_iff.mpr adjacent
  rw [← marker_eq] at equal
  simp [Relation.isStrictlyLess, equal]

/-- The basis of a stack that ends with a handle ends with the handle. -/
theorem HandleMarks.exists_basis?
    {before after : List Symbol} {production : Production} {stack : Stack}
    (marks : grammar.HandleMarks before production after)
    (member : production ∈ grammar.productions)
    (marked : stack.Marked (Table.ofGrammar grammar))
    (symbols_eq : stack.symbols = before ++ production.body) :
    ∃ front skipped, before = front ++ skipped ∧
      stack.basis? = some (skipped ++ production.body) := by
  have nonempty : stack ≠ [] := by
    intro empty
    subst empty
    exact body_ne_nil member (List.append_eq_nil_iff.mp symbols_eq.symm).2
  obtain ⟨marker, inStack, starts⟩ := exists_isStrictlyLess marked nonempty
    (symbols_eq ▸ marks.shifts)
  obtain ⟨basis, found⟩ := Stack.exists_basis? inStack starts
  obtain ⟨upper, entry, below, rfl, isStart, _, rfl⟩ := Stack.basis?_eq_some_iff.mp found
  have split : Stack.symbols below ++ entry.symbol :: Stack.symbols upper =
      before ++ production.body := by
    rw [← symbols_eq, Stack.symbols_append, Stack.symbols_cons, List.append_assoc]
    rfl
  rcases List.append_eq_append_iff.mp split with
    ⟨skipped, before_eq, basis_eq⟩ | ⟨front, below_eq, body_eq⟩
  · exact ⟨Stack.symbols below, skipped, before_eq, by rw [found, basis_eq]⟩
  · rcases List.eq_nil_or_concat' front with rfl | ⟨start, last, rfl⟩
    · refine ⟨before, [], by simp, ?_⟩
      rw [found, body_eq]
      rfl
    · rw [← List.append_assoc] at below_eq
      have inside : production.body = start ++ last :: entry.symbol :: Stack.symbols upper := by
        simp [body_eq]
      rw [isStrictlyLess_eq_false_of_body member marked below_eq inside] at isStart
      cases isStart

/-- The longest body at the end of a basis that ends with a handle is the
handle. -/
theorem HandleMarks.longestBody?_eq
    {front skipped after : List Symbol} {production : Production} {head : Symbol}
    (marks : grammar.HandleMarks (front ++ skipped) production after)
    (separates : grammar.Separates) (member : production ∈ grammar.productions)
    (isBody : grammar.headOf? production.body = some head) :
    grammar.longestBody? (skipped ++ production.body) = some (production.body, head) := by
  apply (longestBody?_eq_some_iff _ _ _ _).mpr
  refine ⟨body_ne_nil member, isBody, skipped, rfl, ?_⟩
  intro start back skipped_eq nonempty
  cases found : grammar.headOf? (back ++ production.body) with
  | none => rfl
  | some other =>
      rw [skipped_eq, ← List.append_assoc] at marks
      have nothing := marks.front_eq_nil separates member (mem_productions_of_headOf? found) rfl
      exact absurd nothing nonempty

/-- What a stack that ends with a handle is reduced by is the handle. -/
theorem HandleMarks.reduce_eq
    {before after : List Symbol} {production : Production} {stack : Stack}
    (marks : grammar.HandleMarks before production after)
    (separates : grammar.Separates)
    (isBody : grammar.headOf? production.body = some production.head)
    (marked : stack.Marked (Table.ofGrammar grammar))
    (symbols_eq : stack.symbols = before ++ production.body) :
    stack.reduce grammar (Table.ofGrammar grammar) =
      .reduced production.body production.head
        (⟨(Table.ofGrammar grammar).relation
          (Stack.top (stack.drop production.body.length)) production.head,
          production.head⟩ :: stack.drop production.body.length) := by
  have member := mem_productions_of_headOf? isBody
  obtain ⟨front, skipped, rfl, basis_eq⟩ := marks.exists_basis? member marked symbols_eq
  have longest := marks.longestBody?_eq separates member isBody
  have related : ((Table.ofGrammar grammar).relation
      (Stack.top (stack.drop production.body.length)) production.head).isEmpty = false := by
    rw [Stack.top_eq_lastOf, Stack.symbols_drop symbols_eq]
    apply Relation.isEmpty_of_shifts
    exact Table.shifts_ofGrammar_iff.mpr marks.head_shifts
  simp [Stack.reduce, basis_eq, longest, related]

end Grammar

namespace Configuration

variable {grammar : Grammar}

/-- The symbols that were read are on the stack, with their markers, and the
others are in front of the end marker. -/
structure Reads (configuration : Configuration) (table : Table) (read unread : List Symbol) :
    Prop where
  marked : configuration.stack.Marked table
  symbols_eq : configuration.stack.symbols = read
  input_eq : configuration.input = unread ++ [.endMarker]

/-- The run from a configuration ends, and accepts. -/
def Accepts (grammar : Grammar) (table : Table) (configuration : Configuration) : Prop :=
  ∃ moves, RunsTo grammar table configuration moves .accepted

theorem Accepts.of_moves
    {table : Table} {configuration next : Configuration} {action : Action}
    (moves : Moves grammar table configuration action next)
    (accepts : Accepts grammar table next) :
    Accepts grammar table configuration := by
  obtain ⟨later, runs⟩ := accepts
  exact ⟨⟨action, next⟩ :: later, .moved moves runs⟩

theorem reads_initial (table : Table) (symbols : List Symbol) :
    (initial symbols).Reads table [] symbols :=
  ⟨trivial, rfl, rfl⟩

theorem Reads.top_eq
    {configuration : Configuration} {table : Table} {read unread : List Symbol}
    (reads : configuration.Reads table read unread) :
    configuration.stack.top = lastOf read := by
  rw [Stack.top_eq_lastOf, reads.symbols_eq]

theorem Reads.exists_input_eq
    {configuration : Configuration} {table : Table} {read unread : List Symbol}
    (reads : configuration.Reads table read unread) :
    ∃ later, configuration.input = firstOf unread :: later := by
  rw [reads.input_eq]
  cases unread with
  | nil => exact ⟨[], rfl⟩
  | cons first unread => exact ⟨unread ++ [.endMarker], rfl⟩

theorem Reads.shift
    {configuration : Configuration} {read unread : List Symbol} {next : Symbol}
    (reads : configuration.Reads (Table.ofGrammar grammar) read (next :: unread))
    (separates : grammar.Separates) (shifts : grammar.Shifts (lastOf read) next) :
    ∃ later, Moves grammar (Table.ofGrammar grammar) configuration (.shift next) later ∧
      later.Reads (Table.ofGrammar grammar) (read ++ [next]) unread := by
  have top_eq := reads.top_eq
  obtain ⟨marked, symbols_eq, input_eq⟩ := reads
  obtain ⟨stack, input⟩ := configuration
  simp only at marked symbols_eq input_eq top_eq
  subst input_eq
  rw [← top_eq] at shifts
  have notGreater : ((Table.ofGrammar grammar).relation stack.top next).greater = false := by
    rw [← Bool.not_eq_true, Table.greater_ofGrammar_iff]
    exact separates.not_greater _ _ shifts
  refine ⟨_, .shift (Table.shifts_ofGrammar_iff.mpr shifts) notGreater, ?_⟩
  exact ⟨⟨rfl, marked⟩, by rw [Stack.symbols_cons, symbols_eq], rfl⟩

/-- As long as the pairs shift, whether a run accepts is decided later. -/
theorem Reads.accepts_of_shifts
    {configuration : Configuration} {read gap unread : List Symbol}
    (reads : configuration.Reads (Table.ofGrammar grammar) read (gap ++ unread))
    (separates : grammar.Separates)
    (shifts : (Symbol.startMarker :: (read ++ gap)).IsChain grammar.Shifts)
    (accepted : ∀ later, later.Reads (Table.ofGrammar grammar) (read ++ gap) unread →
      Accepts grammar (Table.ofGrammar grammar) later) :
    Accepts grammar (Table.ofGrammar grammar) configuration := by
  induction gap generalizing configuration read with
  | nil =>
      rw [List.append_nil] at accepted
      exact accepted configuration reads
  | cons next gap induction =>
      have meets := (Symbol.isChain_startMarker_append_iff.mp shifts).2.2 next rfl
      obtain ⟨later, moves, laterReads⟩ := reads.shift separates meets
      rw [List.append_cons] at shifts accepted
      exact (induction laterReads shifts accepted).of_moves moves

theorem Reads.accepts_start
    {configuration : Configuration}
    (reads : configuration.Reads (Table.ofGrammar grammar) [grammar.start] []) :
    Accepts grammar (Table.ofGrammar grammar) configuration := by
  obtain ⟨_, symbols_eq, input_eq⟩ := reads
  obtain ⟨stack, input⟩ := configuration
  simp only at symbols_eq input_eq
  subst input_eq
  obtain ⟨⟨marker, symbol⟩, rfl⟩ : ∃ entry, stack = [entry] := by
    rw [← List.length_eq_one_iff, ← Stack.length_symbols, symbols_eq]
    rfl
  cases symbols_eq
  exact ⟨[], .halted (step_eq_halted_iff.mpr (halts_accepted grammar marker))⟩

/-- At the end of a handle a run accepts, or reduces the handle. -/
theorem Reads.accepts_or_reduce
    {configuration : Configuration} {before after : List Symbol} {production : Production}
    (reads : configuration.Reads (Table.ofGrammar grammar) (before ++ production.body) after)
    (separates : grammar.Separates)
    (isBody : grammar.headOf? production.body = some production.head)
    (marks : grammar.HandleMarks before production after) :
    Accepts grammar (Table.ofGrammar grammar) configuration ∨
      ∃ later, Moves grammar (Table.ofGrammar grammar) configuration
          (.reduce production.body production.head) later ∧
        later.Reads (Table.ofGrammar grammar) (before ++ [production.head]) after := by
  have top_eq := reads.top_eq
  obtain ⟨rest, starts⟩ := reads.exists_input_eq
  obtain ⟨marked, symbols_eq, input_eq⟩ := reads
  obtain ⟨stack, input⟩ := configuration
  simp only at marked symbols_eq input_eq top_eq starts
  subst starts
  have greater : ((Table.ofGrammar grammar).relation stack.top (firstOf after)).greater =
      true := by
    rw [top_eq]
    apply Table.greater_ofGrammar_iff.mpr
    exact marks.end_greater (grammar.mem_productions_of_headOf? isBody)
  cases complete : isComplete ⟨stack, firstOf after :: rest⟩ grammar.start with
  | true =>
      exact Or.inl ⟨[], .halted (step_eq_halted_iff.mpr (.accepted greater complete))⟩
  | false =>
      have reduction := marks.reduce_eq separates isBody marked symbols_eq
      refine Or.inr ⟨_, .reduce greater complete reduction, ⟨rfl, marked.drop _⟩, ?_, input_eq⟩
      rw [Stack.symbols_cons, Stack.symbols_drop symbols_eq]

end Configuration

namespace Grammar

variable {grammar : Grammar}

/-- What was read of a form up to a nonterminal does not reach beyond the body
that the last step wrote. -/
theorem read_within_handle
    {before body after read unread : List Symbol} (settled : Settled after)
    (nonterminal : ∀ last ∈ read.getLast?, last.isNonterminal = true)
    (same : before ++ body ++ after = read ++ unread) :
    ∃ gap, before ++ body = read ++ gap ∧ unread = gap ++ after := by
  rcases List.append_eq_append_iff.mp same with ⟨rest, read_eq, after_eq⟩ | within
  · rcases List.eq_nil_or_concat' rest with rfl | ⟨start, last, rfl⟩
    · exact ⟨[], by simpa using read_eq.symm, by simpa using after_eq.symm⟩
    · have isNonterminal := nonterminal last (by simp [read_eq])
      have inAfter : last ∈ after := by simp [after_eq]
      exact absurd inAfter (settled.not_mem isNonterminal)
  · exact within

/-- The parser accepts from wherever it is in a form that is derived from the
start symbol, by productions whose head it finds for their body, if it was not
beyond the end of the handle.  The last step of the derivation is the first
reduction of the run. -/
theorem accepts_of_derivesRightmost
    {kept : Grammar} {form : List Symbol} (separates : grammar.Separates)
    (found : ∀ production ∈ kept.productions,
      grammar.headOf? production.body = some production.head)
    (derivation : kept.DerivesRightmost [grammar.start] form) :
    ∀ (configuration : Configuration) (read unread : List Symbol), form = read ++ unread →
      (∀ last ∈ read.getLast?, last.isNonterminal = true) →
      configuration.Reads (Table.ofGrammar grammar) read unread →
      Configuration.Accepts grammar (Table.ofGrammar grammar) configuration := by
  have included : kept.productions ⊆ grammar.productions := by
    intro production member
    exact mem_productions_of_headOf? (found production member)
  induction derivation with
  | refl =>
      intro configuration read unread same _ reads
      have whole : configuration.Reads (Table.ofGrammar grammar) read (unread ++ []) := by
        simpa using reads
      apply whole.accepts_of_shifts separates
      · rw [← same]
        apply List.isChain_pair.mpr
        exact Or.inl grammar.less_startMarker_start
      · intro later laterReads
        rw [← same] at laterReads
        exact laterReads.accepts_start
  | tail derivation rewrite induction =>
      intro configuration read unread same nonterminal reads
      obtain ⟨before, after, production, member, settled⟩ := rewrite
      have isBody := found production member
      have widened := DerivesRightmost.mono included derivation
      have marks := handleMarks_of_derivesRightmost widened (included member) settled
      obtain ⟨gap, handle_eq, rfl⟩ := read_within_handle settled nonterminal same
      apply reads.accepts_of_shifts separates (handle_eq ▸ marks.shifts)
      intro later laterReads
      rw [← handle_eq] at laterReads
      rcases laterReads.accepts_or_reduce separates isBody marks with
        accepts | ⟨reduced, moves, reducedReads⟩
      · exact accepts
      · have isNonterminal := (kept.wellFormed production member).head_isNonterminal
        have accepts := induction reduced (before ++ [production.head]) after (by simp)
          (by simpa using isNonterminal) reducedReads
        exact accepts.of_moves moves

theorem runsTo_accepted_of_derives
    {kept : Grammar} {text : Text}
    (suitable : (grammar.typeWith (Table.ofGrammar grammar)).allowsParsing = true)
    (found : ∀ production ∈ kept.productions,
      grammar.headOf? production.body = some production.head)
    (derivation : kept.Derives [grammar.start] (Symbol.terminals text)) :
    ∃ moves, (Configuration.initial (Symbol.terminals text)).RunsTo grammar
      (Table.ofGrammar grammar) moves .accepted := by
  have separates := separates_of_allowsParsing suitable
  have rightmost := derivesRightmost_of_derives (Symbol.settled_terminals text) derivation
  have reads := Configuration.reads_initial (Table.ofGrammar grammar) (Symbol.terminals text)
  exact accepts_of_derivesRightmost separates found rightmost _ [] _ rfl (by simp) reads

/-- Every text that can be derived in a grammar that can be parsed, and whose
bodies tell the heads apart, is accepted after finitely many moves. -/
theorem parse_complete
    {text : Text}
    (suitable : (grammar.typeWith (Table.ofGrammar grammar)).allowsParsing = true)
    (distinct : grammar.DistinctBodies)
    (derivation : grammar.Derives [grammar.start] (Symbol.terminals text)) :
    (∃ moves, (Configuration.initial (Symbol.terminals text)).RunsTo grammar
        (Table.ofGrammar grammar) moves .accepted) ∧
      ∃ lines, grammar.parse (Table.ofGrammar grammar) (Symbol.terminals text) =
        .ok ⟨lines, .accepted⟩ := by
  have ends := runsTo_accepted_of_derives suitable
    (fun _ => headOf?_of_distinctBodies distinct) derivation
  exact ⟨ends, (parse_accepted_iff (Table.shifts_endMarker grammar)).mpr ends⟩

theorem sums_parse_complete :
    ∃ lines, sums.parse (Table.ofGrammar sums) (Symbol.terminals ['a', '+', 'a', '*', 'a']) =
      .ok ⟨lines, .accepted⟩ :=
  (parse_complete (by decide) (by decide)
    sums_rightmostDerivation.derivesRightmost.derives).2

end Grammar

end PrecedenceGrammar
