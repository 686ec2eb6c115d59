import PrecedenceGrammar.Proofs.ParserRuns
import PrecedenceGrammar.Proofs.RightmostDerivations

/-!
# What every stack of a run looks like

Whatever grammar the table is of, the parser only pushes a grammar symbol that
the symbol below it shifts, and nothing but a strictly less marker can be the
lowest one.  So a stack that is to be reduced has a basis, no run ends with its
input, and the last line of a trace tells its outcome.
-/

namespace PrecedenceGrammar

namespace Stack

/-- The stack as one list: the start marker, and above it each symbol on its
marker. -/
def cells (stack : Stack) : List Symbol :=
  .startMarker :: stack.reverse.flatMap fun entry => [.relation entry.marker, entry.symbol]

/-- Grammar symbols on markers that are the relations of the table and shift,
the lowest of them strictly less. -/
structure WellMarked (table : Table) (stack : Stack) : Prop where
  marked : stack.Marked table
  grammatical : ∀ entry ∈ stack, entry.symbol.isGrammarSymbol = true
  shifting : ∀ entry ∈ stack, entry.marker.isEmpty = false ∧ entry.marker.greater = false
  lowest : ∀ entry ∈ stack.getLast?, entry.marker.isStrictlyLess = true

theorem cells_append (above below : Stack) :
    cells (above ++ below) = cells below ++
      above.reverse.flatMap fun entry => [.relation entry.marker, entry.symbol] := by
  simp [cells]

theorem length_cells (stack : Stack) : (cells stack).length = 2 * stack.length + 1 := by
  simp [cells, Nat.mul_comm]

/-- Two cells go with every entry that is dropped. -/
theorem take_cells
    {stack : Stack} {amount : Nat} (within : amount ≤ stack.length) :
    (cells stack).take ((cells stack).length - 2 * amount) = cells (stack.drop amount) := by
  have size : (cells stack).length - 2 * amount = (cells (stack.drop amount)).length := by
    rw [length_cells, length_cells, List.length_drop]
    omega
  have split := cells_append (stack.take amount) (stack.drop amount)
  rw [List.take_append_drop] at split
  rw [size, split, List.take_left]

theorem wellMarked_nil (table : Table) : WellMarked table [] where
  marked := trivial
  grammatical := by simp
  shifting := by simp
  lowest := by simp

variable {grammar other : Grammar}

theorem WellMarked.push
    {below : Stack} {symbol : Symbol}
    (wellMarked : below.WellMarked (Table.ofGrammar other))
    (shifts : ((Table.ofGrammar other).relation below.top symbol).shifts = true)
    (notGreater : ((Table.ofGrammar other).relation below.top symbol).greater = false) :
    WellMarked (Table.ofGrammar other)
      (⟨(Table.ofGrammar other).relation below.top symbol, symbol⟩ :: below) where
  marked := ⟨rfl, wellMarked.marked⟩
  grammatical := by
    have known := (Table.shifts_ofGrammar_iff.mp shifts).mem_symbols.2
    exact List.forall_mem_cons.mpr
      ⟨Grammar.isGrammarSymbol_of_mem_symbols known, wellMarked.grammatical⟩
  shifting := by
    exact List.forall_mem_cons.mpr
      ⟨⟨Relation.isEmpty_of_shifts shifts, notGreater⟩, wellMarked.shifting⟩
  lowest := by
    intro entry isLowest
    cases below with
    | nil =>
        cases isLowest
        exact Grammar.isStrictlyLess_startMarker (Table.shifts_ofGrammar_iff.mp shifts)
    | cons upper lower =>
        rw [List.getLast?_cons_cons] at isLowest
        exact wellMarked.lowest entry isLowest

theorem WellMarked.drop
    {table : Table} {stack : Stack} (amount : Nat) (wellMarked : stack.WellMarked table) :
    WellMarked table (stack.drop amount) where
  marked := wellMarked.marked.drop amount
  grammatical := fun entry member => wellMarked.grammatical entry (List.mem_of_mem_drop member)
  shifting := fun entry member => wellMarked.shifting entry (List.mem_of_mem_drop member)
  lowest := by
    intro entry isLowest
    rw [List.getLast?_drop] at isLowest
    split at isLowest
    · cases isLowest
    · exact wellMarked.lowest entry isLowest

theorem WellMarked.basis?_ne_none
    {table : Table} {stack : Stack} (wellMarked : stack.WellMarked table)
    (nonempty : stack ≠ []) :
    stack.basis? ≠ none := by
  have isLowest := List.getLast?_eq_some_getLast nonempty
  obtain ⟨basis, found⟩ := exists_basis? (List.getLast_mem nonempty)
    (wellMarked.lowest _ isLowest)
  rw [found]
  exact Option.some_ne_none basis

/-- The head of a reduction is pushed on what is left of the stack. -/
theorem WellMarked.reduce
    {stack reduced : Stack} {body : List Symbol} {head : Symbol}
    (wellMarked : stack.WellMarked (Table.ofGrammar other))
    (reduction : stack.reduce grammar (Table.ofGrammar other) = .reduced body head reduced) :
    reduced.WellMarked (Table.ofGrammar other) := by
  obtain ⟨_, _, _, isBody, related, rfl⟩ := reduce_eq_reduced reduction
  have member := grammar.mem_productions_of_headOf? isBody
  have nonterminal := (grammar.wellFormed _ member).head_isNonterminal
  have notGreater : ((Table.ofGrammar other).relation
      (top (stack.drop body.length)) head).greater = false := by
    rw [← Bool.not_eq_true, Table.greater_ofGrammar_iff]
    exact Grammar.not_greater_of_isNonterminal nonterminal
  exact (wellMarked.drop body.length).push (Relation.shifts_of_not_empty related notGreater)
    notGreater

/-- A reduction never reaches down to the start marker. -/
theorem take_cells_of_longestBody?
    {stack : Stack} {basis body : List Symbol} {head : Symbol}
    (found : stack.basis? = some basis)
    (longest : grammar.longestBody? basis = some (body, head)) :
    2 * body.length < (cells stack).length ∧
      (cells stack).take ((cells stack).length - 2 * body.length) =
        cells (stack.drop body.length) := by
  obtain ⟨front, split⟩ := exists_symbols_eq_of_longestBody? found longest
  have sizes : stack.length = front.length + body.length := by
    rw [← length_symbols, split, List.length_append]
  refine ⟨?_, take_cells (by omega)⟩
  rw [length_cells]
  omega

end Stack

namespace Configuration

variable {grammar other : Grammar}

theorem Moves.wellMarked
    {configuration next : Configuration} {action : Action}
    (moves : Moves grammar (Table.ofGrammar other) configuration action next)
    (wellMarked : configuration.stack.WellMarked (Table.ofGrammar other)) :
    next.stack.WellMarked (Table.ofGrammar other) := by
  cases moves with
  | shift shifts notGreater => exact wellMarked.push shifts notGreater
  | reduce _ _ reduction => exact wellMarked.reduce reduction

theorem wellMarked_of_mem_run
    {symbols : List Symbol} {visited : Configuration} {allowed : Nat}
    (member : visited ∈ ((initial symbols).run grammar (Table.ofGrammar other)
      allowed).configurations) :
    visited.stack.WellMarked (Table.ofGrammar other) ∧ visited.Unfinished := by
  refine forall_mem_run (fun visited => visited.stack.WellMarked (Table.ofGrammar other) ∧
    visited.Unfinished) ?_ ⟨Stack.wellMarked_nil _, unfinished_initial symbols⟩ member
  intro origin action next moves invariant
  exact ⟨moves.wellMarked invariant.1,
    moves.unfinished (Table.shifts_endMarker other) invariant.2⟩

/-- On the start marker alone nothing is reduced, and above it there is a
strictly less marker. -/
theorem Halts.ne_noBasisStart
    {configuration : Configuration} {ending : Ending}
    (halts : Halts grammar (Table.ofGrammar other) configuration ending)
    (wellMarked : configuration.stack.WellMarked (Table.ofGrammar other)) :
    ending ≠ .noBasisStart := by
  intro isNoBasisStart
  cases halts with
  | @stuck stack next unread reduction ending greater _ attempt ends =>
      have nonempty : stack ≠ [] := by
        rintro rfl
        exact Grammar.not_greater_startMarker (Table.greater_ofGrammar_iff.mp greater)
      subst isNoBasisStart
      cases reduction with
      | noBasisStart =>
          exact wellMarked.basis?_ne_none nonempty (Stack.basis?_eq_none_of_reduce attempt)
      | _ => cases ends
  | _ => cases isNoBasisStart

theorem Halts.ne_inputExhausted
    {table : Table} {configuration : Configuration} {ending : Ending}
    (halts : Halts grammar table configuration ending) (unfinished : configuration.Unfinished) :
    ending ≠ .inputExhausted := by
  intro isExhausted
  cases halts with
  | inputExhausted => cases unfinished
  | @stuck _ _ _ reduction _ _ _ _ ends =>
      subst isExhausted
      cases reduction <;> cases ends
  | _ => cases isExhausted

end Configuration

theorem Run.final_mem_configurations (run : Run) : run.final ∈ run.configurations := by
  unfold final
  split
  · next move isLast =>
    apply List.mem_cons_of_mem
    exact List.mem_map_of_mem (List.mem_of_getLast? isLast)
  · exact List.mem_cons_self

theorem Run.rejectionLine_not_mem_lines (run : Run) : rejectionLine ∉ run.lines := by
  intro member
  obtain ⟨configuration, _, same⟩ := List.mem_map.mp member
  cases same

namespace Grammar

variable {grammar other : Grammar} {symbols : List Symbol} {trace : Trace}

/-- What the end of a run says of the configuration that it is reached in. -/
theorem run_halts
    {allowed : Nat} {run : Run}
    (isRun : (Configuration.initial symbols).run grammar (Table.ofGrammar other) allowed = run)
    (ended : run.ending ≠ .endless) :
    Configuration.Halts grammar (Table.ofGrammar other) run.final run.ending ∧
      run.final.stack.WellMarked (Table.ofGrammar other) ∧ run.final.Unfinished := by
  subst isRun
  have member := Run.final_mem_configurations
    ((Configuration.initial symbols).run grammar (Table.ofGrammar other) allowed)
  exact ⟨Configuration.halts_final ended, Configuration.wellMarked_of_mem_run member⟩

theorem run_ending_ne
    {allowed : Nat} {run : Run}
    (isRun : (Configuration.initial symbols).run grammar (Table.ofGrammar other) allowed = run) :
    run.ending ≠ .noBasisStart ∧ run.ending ≠ .inputExhausted := by
  by_cases ended : run.ending = .endless
  · rw [ended]
    decide
  · obtain ⟨halts, wellMarked, unfinished⟩ := run_halts isRun ended
    exact ⟨halts.ne_noBasisStart wellMarked, halts.ne_inputExhausted unfinished⟩

theorem acceptedLine_eq
    {allowed : Nat} {run : Run}
    (isRun : (Configuration.initial symbols).run grammar (Table.ofGrammar other) allowed = run)
    (accepted : run.ending = .accepted) :
    run.acceptedLine = '^' :: (grammar.start.text ++ ['$']) := by
  have ended : run.ending ≠ .endless := by
    rw [accepted]
    exact Ending.noConfusion
  have halts := (run_halts isRun ended).1
  rw [accepted] at halts
  obtain ⟨marker, final_eq⟩ := Configuration.isComplete_iff.mp halts.isComplete_of_accepted
  rw [Run.acceptedLine, final_eq]
  simp [Stack.text, Symbol.textOf]

/-- A returned trace has one line for each configuration, and a last line that
tells its outcome. -/
theorem exists_last_line
    (parsed : grammar.parse (Table.ofGrammar other) symbols = .ok trace) :
    ∃ line, trace.lines = (grammar.run (Table.ofGrammar other) symbols).lines ++ [line] ∧
      (trace.outcome = .rejected → line = rejectionLine) ∧
      (trace.outcome = .accepted → line = '^' :: (grammar.start.text ++ ['$'])) := by
  have defined : (grammar.run (Table.ofGrammar other) symbols).ending ≠ .noBasisStart ∧
      (grammar.run (Table.ofGrammar other) symbols).ending ≠ .inputExhausted :=
    run_ending_ne rfl
  unfold parse Run.trace at parsed
  split at parsed
  · next ending =>
    cases parsed
    exact ⟨_, rfl, nofun, fun _ => acceptedLine_eq rfl ending⟩
  · cases parsed
    exact ⟨_, rfl, fun _ => rfl, nofun⟩
  · next ending => exact absurd ending defined.1
  · cases parsed
    exact ⟨_, rfl, fun _ => rfl, nofun⟩
  · next ending => exact absurd ending defined.2
  · cases parsed
  · cases parsed

/-- With the grammar's own table a text is accepted exactly if its run comes to
the start symbol alone, with nothing left to read. -/
theorem parse_accepted_iff_mem_run
    (grammar : Grammar) (symbols : List Symbol) :
    (∃ lines, grammar.parse (Table.ofGrammar grammar) symbols = .ok ⟨lines, .accepted⟩) ↔
      ∃ allowed marker, ⟨[⟨marker, grammar.start⟩], [.endMarker]⟩ ∈
        ((Configuration.initial symbols).run grammar (Table.ofGrammar grammar)
          allowed).configurations := by
  rw [parse_accepted_iff (Table.shifts_endMarker grammar)]
  constructor
  · intro ends
    obtain ⟨moves, runs⟩ := ends
    obtain ⟨marker, final_eq⟩ :=
      Configuration.isComplete_iff.mp runs.halts_final.isComplete_of_accepted
    refine ⟨grammar.stepLimit symbols.length, marker, ?_⟩
    rw [← final_eq, ← run_eq_of_runsTo (Table.shifts_endMarker grammar) runs]
    exact Run.final_mem_configurations _
  · intro comes
    obtain ⟨allowed, marker, member⟩ := comes
    have halts := Configuration.halts_accepted grammar marker
    exact (Configuration.RunsTo.halted
      (Configuration.step_eq_halted_iff.mpr halts)).of_mem_run member

/-- Whatever grammar the table is of and whatever symbols are given, the stack
stays well marked, so no run ends for want of a basis or of input, and no
reduction reaches the start marker.  The last line of a trace tells its outcome,
and no other line does. -/
theorem parse_invariant
    (grammar other : Grammar) (symbols : List Symbol) :
    let table := Table.ofGrammar other
    (∀ allowed,
      let run := (Configuration.initial symbols).run grammar table allowed
      (∀ configuration ∈ run.configurations,
        configuration.stack.WellMarked table ∧
          ∀ basis body head, configuration.stack.basis? = some basis →
            grammar.longestBody? basis = some (body, head) →
            2 * body.length < configuration.stack.cells.length ∧
              configuration.stack.cells.take
                  (configuration.stack.cells.length - 2 * body.length) =
                Stack.cells (configuration.stack.drop body.length)) ∧
        run.ending ≠ .noBasisStart ∧ run.ending ≠ .inputExhausted) ∧
      (∀ trace, grammar.parse table symbols = .ok trace →
        (trace.outcome = .rejected → trace.lines.getLast? = some rejectionLine) ∧
          (trace.outcome = .accepted →
            trace.lines.getLast? = some ('^' :: (grammar.start.text ++ ['$']))) ∧
          rejectionLine ∉ trace.lines.dropLast) ∧
      ((∃ lines, grammar.parse (Table.ofGrammar grammar) symbols = .ok ⟨lines, .accepted⟩) ↔
        ∃ allowed marker, ⟨[⟨marker, grammar.start⟩], [.endMarker]⟩ ∈
          ((Configuration.initial symbols).run grammar (Table.ofGrammar grammar)
            allowed).configurations) := by
  intro table
  refine ⟨?_, ?_, parse_accepted_iff_mem_run grammar symbols⟩
  · intro allowed run
    refine ⟨?_, run_ending_ne rfl⟩
    intro configuration member
    refine ⟨(Configuration.wellMarked_of_mem_run member).1, ?_⟩
    intro basis body head found longest
    exact Stack.take_cells_of_longestBody? found longest
  · intro trace parsed
    obtain ⟨line, lines_eq, rejected, accepted⟩ := exists_last_line parsed
    rw [lines_eq, List.getLast?_concat, List.dropLast_concat]
    refine ⟨?_, ?_, Run.rejectionLine_not_mem_lines _⟩
    · intro isRejected
      rw [rejected isRejected]
    · intro isAccepted
      rw [accepted isAccepted]

/-- A sum that breaks off, and a stack on the way to where it does. -/
theorem sums_parse_invariant :
    let table := Table.ofGrammar sums
    let stack : Stack := [
      ⟨table.relation (.nonterminal 'E') (.terminal '+'), .terminal '+'⟩,
      ⟨table.relation .startMarker (.nonterminal 'E'), .nonterminal 'E'⟩]
    stack.WellMarked table ∧
      ∃ trace, sums.parse table (Symbol.terminals ['a', '+']) = .ok trace ∧
        trace.lines.getLast? = some rejectionLine ∧ rejectionLine ∉ trace.lines.dropLast := by
  intro table stack
  obtain ⟨steps, ends, _⟩ := parse_invariant sums sums (Symbol.terminals ['a', '+'])
  have visited : ⟨stack, [.endMarker]⟩ ∈ ((Configuration.initial (Symbol.terminals
      ['a', '+'])).run sums table 5).configurations := by
    decide +kernel
  have parsed : sums.parse table (Symbol.terminals ['a', '+']) =
      .ok ⟨[['^', ' ', 'a', '+', '$'], ['^', 'a', ' ', '+', '$'], ['^', 'T', ' ', '+', '$'],
        ['^', 'E', ' ', '+', '$'], ['^', 'E', '+', ' ', '$'], rejectionLine], .rejected⟩ := by
    decide +kernel
  obtain ⟨rejected, _, nowhereElse⟩ := ends _ parsed
  exact ⟨((steps 5).1 _ visited).1, _, parsed, rejected rfl, nowhereElse⟩

end Grammar

end PrecedenceGrammar
