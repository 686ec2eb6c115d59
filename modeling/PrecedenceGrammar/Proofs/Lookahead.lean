import PrecedenceGrammar.Proofs.ParserTermination

/-!
# One symbol of lookahead

The parser decides by the stack and the next unread symbol alone.  Whether more
than the end marker is unread matters to accepting only, so two texts with a
common beginning are parsed alike until the last symbol of it is shifted, or
fail alike before that.
-/

namespace PrecedenceGrammar

/-- The same stack, and the same unread symbols up to the given one, behind
which the rests may differ. -/
structure Configuration.AlikeUpTo (next : Symbol) (rest otherRest : List Symbol)
    (left right : Configuration) : Prop where
  stack_eq : left.stack = right.stack
  inputs_eq : ∃ front, left.input = front ++ next :: rest ∧
    right.input = front ++ next :: otherRest

/-- The same action, with the given symbol still unread. -/
structure Move.AlikeUpTo (next : Symbol) (rest otherRest : List Symbol)
    (left right : Move) : Prop where
  action_eq : left.action = right.action
  configurations : left.configuration.AlikeUpTo next rest otherRest right.configuration

/-- Runs that are alike until both shift the given symbol, or else to the end of
both, which is the same and not to accept. -/
inductive Run.AlikeUpTo (next : Symbol) (rest otherRest : List Symbol)
    (left right : Run) : Prop where
  | shifted (earlier otherEarlier later otherLater : List Move) (stack : Stack)
      (alike : List.Forall₂ (Move.AlikeUpTo next rest otherRest) earlier otherEarlier)
      (moves_eq : left.moves = earlier ++ ⟨.shift next, ⟨stack, rest⟩⟩ :: later)
      (otherMoves_eq :
        right.moves = otherEarlier ++ ⟨.shift next, ⟨stack, otherRest⟩⟩ :: otherLater)
  | ended (alike : List.Forall₂ (Move.AlikeUpTo next rest otherRest) left.moves right.moves)
      (ending_eq : left.ending = right.ending) (notAccepted : left.ending ≠ .accepted)

/-- Rejected with equally many lines, or refused for the same basis. -/
inductive StoppedAlike : Except ParseError Trace → Except ParseError Trace → Prop where
  | rejected (lines otherLines : List Text) (length_eq : lines.length = otherLines.length) :
      StoppedAlike (.ok ⟨lines, .rejected⟩) (.ok ⟨otherLines, .rejected⟩)
  | noSuchRule (basis : List Symbol) :
      StoppedAlike (.error (.noSuchRule basis)) (.error (.noSuchRule basis))

namespace Run

theorem stoppedAlike
    {left right : Run} (length_eq : left.moves.length = right.moves.length)
    (ending_eq : left.ending = right.ending) (notAccepted : left.ending ≠ .accepted)
    (ended : left.ending ≠ .endless) :
    StoppedAlike left.trace right.trace := by
  have lines_eq : left.lines.length = right.lines.length := by
    rw [length_lines, length_lines, length_eq]
  have rejections_eq :
      (left.lines ++ [rejectionLine]).length = (right.lines ++ [rejectionLine]).length := by
    rw [List.length_append, List.length_append, lines_eq]
  unfold trace
  rw [← ending_eq]
  cases ending : left.ending with
  | accepted => exact absurd ending notAccepted
  | endless => exact absurd ending ended
  | noSuchRule basis => exact .noSuchRule basis
  | inputExhausted => exact .rejected _ _ lines_eq
  | _ => exact .rejected _ _ rejections_eq

theorem AlikeUpTo.cons
    {next : Symbol} {rest otherRest : List Symbol} {left right : Run} {move otherMove : Move}
    {origin otherOrigin : Configuration}
    (moved : Move.AlikeUpTo next rest otherRest move otherMove)
    (alike : AlikeUpTo next rest otherRest left right) :
    AlikeUpTo next rest otherRest ⟨origin, move :: left.moves, left.ending⟩
      ⟨otherOrigin, otherMove :: right.moves, right.ending⟩ := by
  cases alike with
  | shifted earlier otherEarlier later otherLater stack alike moves_eq otherMoves_eq =>
      refine .shifted (move :: earlier) (otherMove :: otherEarlier) later otherLater stack
        (.cons moved alike) ?_ ?_
      · rw [List.cons_append, ← moves_eq]
      · rw [List.cons_append, ← otherMoves_eq]
  | ended alike ending_eq notAccepted => exact .ended (.cons moved alike) ending_eq notAccepted

end Run

namespace Configuration

variable {grammar : Grammar} {table : Table} {next : Symbol} {rest otherRest : List Symbol}
  {left right : Configuration}

/-- The next unread symbol is the same, and there are more behind it. -/
theorem AlikeUpTo.exists_unread
    (alike : AlikeUpTo next rest otherRest left right) :
    ∃ stack symbol unread otherUnread,
      left = ⟨stack, symbol :: unread⟩ ∧ right = ⟨stack, symbol :: otherUnread⟩ ∧
        (symbol = next ∧ unread = rest ∧ otherUnread = otherRest ∨
          AlikeUpTo next rest otherRest ⟨stack, unread⟩ ⟨stack, otherUnread⟩) := by
  obtain ⟨stack, input⟩ := left
  obtain ⟨otherStack, otherInput⟩ := right
  obtain ⟨rfl, front, rfl, rfl⟩ := alike
  cases front with
  | nil => exact ⟨stack, next, rest, otherRest, rfl, rfl, Or.inl ⟨rfl, rfl, rfl⟩⟩
  | cons symbol front => exact ⟨stack, symbol, _, _, rfl, rfl, Or.inr ⟨rfl, front, rfl, rfl⟩⟩

/-- More than the end marker is unread, so the text is not accepted yet. -/
theorem AlikeUpTo.isComplete_eq_false
    (alike : AlikeUpTo next rest otherRest left right) (nonempty : otherRest ≠ [])
    (start : Symbol) :
    right.isComplete start = false := by
  rw [← Bool.not_eq_true, isComplete_iff]
  intro complete
  obtain ⟨marker, rfl⟩ := complete
  obtain ⟨front, -, split⟩ := alike.inputs_eq
  have sizes := congrArg List.length split
  have positive := List.length_pos_iff.mpr nonempty
  simp only [List.length_append, List.length_cons, List.length_nil] at sizes
  omega

theorem AlikeUpTo.symm
    (alike : AlikeUpTo next rest otherRest left right) :
    AlikeUpTo next otherRest rest right left := by
  obtain ⟨front, split, otherSplit⟩ := alike.inputs_eq
  exact ⟨alike.stack_eq.symm, front, otherSplit, split⟩

/-- A move is made in both configurations, and they stay alike unless it shifts
the symbol in question. -/
theorem AlikeUpTo.moves
    {action : Action} {leftNext : Configuration}
    (alike : AlikeUpTo next rest otherRest left right) (nonempty : otherRest ≠ [])
    (moves : Moves grammar table left action leftNext) :
    ∃ rightNext, Moves grammar table right action rightNext ∧
      (AlikeUpTo next rest otherRest leftNext rightNext ∨
        action = .shift next ∧
          ∃ stack, leftNext = ⟨stack, rest⟩ ∧ rightNext = ⟨stack, otherRest⟩) := by
  have incomplete := alike.isComplete_eq_false nonempty grammar.start
  have inputs_eq := alike.inputs_eq
  obtain ⟨stack, symbol, unread, otherUnread, rfl, rfl, later⟩ := alike.exists_unread
  cases moves with
  | shift shifts notGreater =>
      refine ⟨_, .shift shifts notGreater, ?_⟩
      rcases later with ⟨rfl, rfl, rfl⟩ | later
      · exact Or.inr ⟨rfl, _, rfl, rfl⟩
      · exact Or.inl ⟨rfl, later.inputs_eq⟩
  | reduce greater _ reduction =>
      exact ⟨_, .reduce greater incomplete reduction, Or.inl ⟨rfl, inputs_eq⟩⟩

/-- A run that ends in one configuration ends in the other for the same reason,
and neither accepts. -/
theorem AlikeUpTo.halts
    {ending : Ending} (alike : AlikeUpTo next rest otherRest left right)
    (nonempty : rest ≠ []) (otherNonempty : otherRest ≠ [])
    (halts : Halts grammar table left ending) :
    Halts grammar table right ending ∧ ending ≠ .accepted := by
  have incomplete := alike.symm.isComplete_eq_false nonempty grammar.start
  have otherIncomplete := alike.isComplete_eq_false otherNonempty grammar.start
  obtain ⟨stack, symbol, unread, otherUnread, rfl, rfl, -⟩ := alike.exists_unread
  cases halts with
  | unrelated empty => exact ⟨.unrelated empty, Ending.noConfusion⟩
  | accepted _ complete =>
      rw [complete] at incomplete
      cases incomplete
  | @stuck _ _ _ reduction _ greater _ attempt ends =>
      cases reduction with
      | reduced => cases ends
      | _ =>
          cases ends
          exact ⟨.stuck greater otherIncomplete attempt rfl, Ending.noConfusion⟩

/-- Runs are alike, after however many steps both are cut off: they end together,
or the symbol is shifted in both. -/
theorem AlikeUpTo.run
    (alike : AlikeUpTo next rest otherRest left right)
    (nonempty : rest ≠ []) (otherNonempty : otherRest ≠ []) (allowed : Nat) :
    Run.AlikeUpTo next rest otherRest (left.run grammar table allowed)
      (right.run grammar table allowed) := by
  induction allowed generalizing left right with
  | zero => exact .ended .nil rfl Ending.noConfusion
  | succ allowed induction =>
      cases step : left.step grammar table with
      | halted ending =>
          have halts := step_eq_halted_iff.mp step
          obtain ⟨otherHalts, notAccepted⟩ := alike.halts nonempty otherNonempty halts
          rw [halts.run_succ, otherHalts.run_succ]
          exact .ended .nil rfl notAccepted
      | moved action leftNext =>
          have moves := step_eq_moved_iff.mp step
          obtain ⟨rightNext, otherMoves, further | ⟨rfl, stack, rfl, rfl⟩⟩ :=
            alike.moves otherNonempty moves
          · rw [moves.run_succ, otherMoves.run_succ]
            exact .cons ⟨rfl, further⟩ (induction further)
          · rw [moves.run_succ, otherMoves.run_succ]
            exact .shifted [] [] _ _ stack .nil rfl rfl

theorem alikeUpTo_initial
    (before : List Symbol) (next : Symbol) (after otherAfter : List Symbol) :
    AlikeUpTo next (after ++ [.endMarker]) (otherAfter ++ [.endMarker])
      (initial (before ++ next :: after)) (initial (before ++ next :: otherAfter)) := by
  refine ⟨rfl, before, ?_, ?_⟩
  · rw [initial, List.append_assoc, List.cons_append]
  · rw [initial, List.append_assoc, List.cons_append]

end Configuration

namespace Grammar

open PrecedenceGrammar.Configuration (initial runsTo_of_run alikeUpTo_initial)

/-- Two texts that begin alike are parsed alike until the last symbol of the
common beginning is shifted: the moves are the same and so are the stacks.  If
one of the runs stops before that, the other stops after as many moves in the
same way. -/
theorem run_lookahead
    (grammar other : Grammar) (before : List Symbol) (next : Symbol)
    (after otherAfter : List Symbol) :
    let table := Table.ofGrammar other
    let symbols := before ++ next :: after
    let otherSymbols := before ++ next :: otherAfter
    let rest := after ++ [.endMarker]
    let otherRest := otherAfter ++ [.endMarker]
    (∀ allowed, Run.AlikeUpTo next rest otherRest
        ((initial symbols).run grammar table allowed)
        ((initial otherSymbols).run grammar table allowed)) ∧
      ∀ moves ending, (initial symbols).RunsTo grammar table moves ending →
        (∀ move ∈ moves, move.configuration.input ≠ rest) →
          (∃ otherMoves, (initial otherSymbols).RunsTo grammar table otherMoves ending ∧
            List.Forall₂ (Move.AlikeUpTo next rest otherRest) moves otherMoves) ∧
          StoppedAlike (grammar.parse table symbols) (grammar.parse table otherSymbols) := by
  intro table symbols otherSymbols rest otherRest
  have alike : ∀ allowed, Run.AlikeUpTo next rest otherRest
      ((initial symbols).run grammar table allowed)
      ((initial otherSymbols).run grammar table allowed) := by
    intro allowed
    apply (alikeUpTo_initial before next after otherAfter).run
    · exact List.append_ne_nil_of_right_ne_nil _ (List.cons_ne_nil _ _)
    · exact List.append_ne_nil_of_right_ne_nil _ (List.cons_ne_nil _ _)
  refine ⟨alike, ?_⟩
  intro moves ending runs unshifted
  have ended := runs.halts_final.ne_endless
  have never := Table.shifts_endMarker other
  have compared := alike (moves.length + 1)
  rw [runs.run_eq (Nat.lt_succ_self _)] at compared
  cases compared with
  | shifted earlier _ later _ stack _ moves_eq _ =>
      subst moves_eq
      exact absurd rfl (unshifted _ (List.mem_append_right _ List.mem_cons_self))
  | ended same ending_eq notAccepted =>
      have otherRuns := runsTo_of_run fun endless => ended (ending_eq.trans endless)
      rw [← ending_eq] at otherRuns
      refine ⟨⟨_, otherRuns, same⟩, ?_⟩
      rw [parse, parse, run_eq_of_runsTo never runs, run_eq_of_runsTo never otherRuns]
      exact Run.stoppedAlike same.length_eq rfl notAccepted ended

/-- Of two plus signs the second is not shifted, whatever is behind it. -/
theorem sums_run_lookahead :
    let table := Table.ofGrammar sums
    let symbols := Symbol.terminals ['a', '+', '+', 'a']
    let otherSymbols := Symbol.terminals ['a', '+', '+']
    let run := sums.run table symbols
    (initial symbols).RunsTo sums table run.moves run.ending ∧
      (∀ move ∈ run.moves, move.configuration.input ≠ [.terminal 'a', .endMarker]) ∧
      StoppedAlike (sums.parse table symbols) (sums.parse table otherSymbols) := by
  intro table symbols otherSymbols run
  have ended : run.ending ≠ .endless := by decide +kernel
  have unshifted : ∀ move ∈ run.moves,
      move.configuration.input ≠ [.terminal 'a', .endMarker] := by
    decide +kernel
  have runs := runsTo_of_run_ending ended
  have stopped := (run_lookahead sums sums (Symbol.terminals ['a', '+']) (.terminal '+')
    [.terminal 'a'] []).2 run.moves run.ending runs unshifted
  exact ⟨runs, unshifted, stopped.2⟩

end Grammar

end PrecedenceGrammar
