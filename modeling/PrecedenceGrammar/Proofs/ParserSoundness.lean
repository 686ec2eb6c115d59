import PrecedenceGrammar.Proofs.ParserRuns
import PrecedenceGrammar.Proofs.RightmostDerivations

/-!
# Soundness of the parser

A shift moves a symbol from the input to the stack and a reduction undoes one
step of a derivation, so whatever is on the stack and unread derives the text
that was given.  Nothing is asked of the table but that it does not shift the
end marker.
-/

namespace PrecedenceGrammar

open PrecedenceGrammar.Symbol (Settled)

namespace Configuration

/-- The symbols on the stack and the unread ones, without the end marker. -/
def form (configuration : Configuration) : List Symbol :=
  configuration.stack.symbols ++ configuration.input.dropLast

end Configuration

def Move.reducedForm? (move : Move) : Option (List Symbol) :=
  match move.action with
  | .shift _ => none
  | .reduce _ _ => some move.configuration.form

/-- The forms that the reductions of a run lead to, in order. -/
def Run.reducedForms (run : Run) : List (List Symbol) :=
  run.moves.filterMap Move.reducedForm?

namespace Configuration

variable {grammar kept : Grammar} {table : Table}

theorem form_initial (symbols : List Symbol) : (initial symbols).form = symbols := by
  simp [form, initial]

theorem Moves.shift_form
    {configuration next : Configuration} {symbol : Symbol}
    (moves : Moves grammar table configuration (.shift symbol) next)
    (unfinished : next.Unfinished) :
    next.form = configuration.form ∧
      configuration.input.dropLast = symbol :: next.input.dropLast := by
  cases moves with
  | @shift stack _ unread shifts notGreater =>
      cases unread with
      | nil => cases unfinished
      | cons second unread => simp [form]

/-- A reduction is a step of a derivation, taken backwards. -/
theorem Moves.reduce_form
    {configuration next : Configuration} {body : List Symbol} {head : Symbol}
    (moves : Moves grammar table configuration (.reduce body head) next) :
    next.input = configuration.input ∧ grammar.headOf? body = some head ∧
      ∃ front, next.form = front ++ head :: configuration.input.dropLast ∧
        configuration.form = front ++ body ++ configuration.input.dropLast := by
  cases moves with
  | @reduce stack _ symbol unread _ _ greater incomplete reduction =>
      obtain ⟨front, split, nonempty, isBody, _, rfl⟩ := Stack.reduce_eq_reduced reduction
      refine ⟨rfl, isBody, front, ?_, ?_⟩
      · simp [form, Stack.symbols_drop split]
      · rw [form, split]

theorem Moves.reduce_rewritesRightmost
    {configuration next : Configuration} {body : List Symbol} {head : Symbol}
    (moves : Moves grammar table configuration (.reduce body head) next)
    (settled : Settled configuration.input.dropLast) :
    grammar.RewritesRightmost next.form configuration.form := by
  obtain ⟨_, isBody, front, after, before⟩ := moves.reduce_form
  rw [after, before]
  exact .production front _ ⟨head, body⟩ (grammar.mem_productions_of_headOf? isBody) settled

/-- The productions that a move needs are those whose head the parser finds
for their body. -/
theorem Moves.derives
    {configuration next : Configuration} {action : Action}
    (keeps : ∀ {body head}, grammar.headOf? body = some head → ⟨head, body⟩ ∈ kept.productions)
    (moves : Moves grammar table configuration action next) (unfinished : next.Unfinished) :
    kept.Derives next.form configuration.form := by
  cases action with
  | shift symbol =>
      rw [(moves.shift_form unfinished).1]
      exact .refl
  | reduce body head =>
      obtain ⟨_, isBody, front, after, before⟩ := moves.reduce_form
      rw [after, before]
      exact .single (.production front _ ⟨head, body⟩ (keeps isBody))

/-- Every configuration of a run, however long, derives the one it began with. -/
theorem derives_of_mem_run
    {configuration visited : Configuration} {allowed : Nat}
    (unshifted : ∀ left, (table.relation left .endMarker).shifts = false)
    (unfinished : configuration.Unfinished)
    (member : visited ∈ (configuration.run grammar table allowed).configurations) :
    visited.Unfinished ∧ grammar.Derives visited.form configuration.form := by
  refine forall_mem_run
    (fun other => other.Unfinished ∧ grammar.Derives other.form configuration.form)
    ?_ ⟨unfinished, .refl⟩ member
  intro origin action next moves invariant
  have nextUnfinished := moves.unfinished unshifted invariant.1
  have undone := moves.derives grammar.mem_productions_of_headOf? nextUnfinished
  exact ⟨nextUnfinished, undone.trans invariant.2⟩

theorem RunsTo.accepted_derives
    {configuration : Configuration} {moves : List Move} {ending : Ending}
    (keeps : ∀ {body head}, grammar.headOf? body = some head → ⟨head, body⟩ ∈ kept.productions)
    (unshifted : ∀ left, (table.relation left .endMarker).shifts = false)
    (runs : RunsTo grammar table configuration moves ending) (accepted : ending = .accepted)
    (unfinished : configuration.Unfinished) :
    kept.Derives [grammar.start] configuration.form := by
  induction runs with
  | halted stops =>
      subst accepted
      obtain ⟨marker, rfl⟩ := isComplete_iff.mp (step_eq_halted_iff.mp stops).isComplete_of_accepted
      exact .refl
  | moved step _ induction =>
      have nextUnfinished := step.unfinished unshifted unfinished
      exact (induction accepted nextUnfinished).trans (step.derives keeps nextUnfinished)

end Configuration

theorem Grammar.RightmostDerivation.append_step
    {grammar : Grammar} {origin middle target : List Symbol} {forms : List (List Symbol)}
    (derivation : grammar.RightmostDerivation origin middle forms)
    (rewrite : grammar.RewritesRightmost middle target) :
    grammar.RightmostDerivation origin target (forms ++ [target]) where
  starts := by
    rw [List.head?_append, derivation.starts]
    rfl
  ends := by simp
  rewrites := by
    apply derivation.rewrites.append (.singleton target)
    intro last isLast first isFirst
    rw [derivation.ends] at isLast
    cases isLast
    cases isFirst
    exact rewrite

namespace Configuration

variable {grammar : Grammar} {table : Table}

/-- The reductions of an accepted run, read backwards, are a rightmost
derivation, and every other move shifts one symbol. -/
theorem RunsTo.accepted_rightmostDerivation
    {configuration : Configuration} {moves : List Move} {ending : Ending}
    (unshifted : ∀ left, (table.relation left .endMarker).shifts = false)
    (runs : RunsTo grammar table configuration moves ending) (accepted : ending = .accepted)
    (unfinished : configuration.Unfinished)
    (settled : Settled configuration.input.dropLast) :
    grammar.RightmostDerivation [grammar.start] configuration.form
        ((moves.filterMap Move.reducedForm?).reverse ++ [configuration.form]) ∧
      moves.length =
        configuration.input.dropLast.length + (moves.filterMap Move.reducedForm?).length := by
  induction runs with
  | halted stops =>
      subst accepted
      obtain ⟨marker, rfl⟩ := isComplete_iff.mp (step_eq_halted_iff.mp stops).isComplete_of_accepted
      exact ⟨⟨rfl, rfl, .singleton _⟩, rfl⟩
  | @moved configuration next action moves _ step _ induction =>
      have nextUnfinished := step.unfinished unshifted unfinished
      cases action with
      | shift symbol =>
          obtain ⟨sameForm, input_eq⟩ := step.shift_form nextUnfinished
          rw [input_eq] at settled ⊢
          obtain ⟨derivation, counted⟩ := induction accepted nextUnfinished
            (Symbol.settled_cons_iff.mp settled).2
          rw [sameForm] at derivation
          have forms_eq : (⟨.shift symbol, next⟩ :: moves : List Move).filterMap
                Move.reducedForm? = moves.filterMap Move.reducedForm? :=
            List.filterMap_cons_none rfl
          rw [forms_eq]
          refine ⟨derivation, ?_⟩
          simp only [List.length_cons]
          omega
      | reduce body head =>
          have sameInput := step.reduce_form.1
          obtain ⟨derivation, counted⟩ := induction accepted nextUnfinished (sameInput ▸ settled)
          have extended := derivation.append_step (step.reduce_rewritesRightmost settled)
          rw [sameInput] at counted
          have forms_eq : (⟨.reduce body head, next⟩ :: moves : List Move).filterMap
                Move.reducedForm? = next.form :: moves.filterMap Move.reducedForm? :=
            List.filterMap_cons_some rfl
          rw [forms_eq]
          refine ⟨by simpa using extended, ?_⟩
          simp only [List.length_cons]
          omega

end Configuration

namespace Grammar

/-- Whatever grammar the table is of, every configuration derives the given
symbols, and so does the start symbol when they are accepted.  The reductions
of an accepted text are its rightmost derivation, read backwards. -/
theorem parse_sound
    (grammar other : Grammar) (symbols : List Symbol) :
    let table := Table.ofGrammar other
    let run := grammar.run table symbols
    (∀ allowed, ∀ configuration ∈
        ((Configuration.initial symbols).run grammar table allowed).configurations,
      configuration.input.getLast? = some .endMarker ∧
        grammar.Derives configuration.form symbols) ∧
      ∀ trace, grammar.parse table symbols = .ok trace → trace.outcome = .accepted →
        grammar.Derives [grammar.start] symbols ∧
          (Settled symbols →
            grammar.RightmostDerivation [grammar.start] symbols
                (run.reducedForms.reverse ++ [symbols]) ∧
              trace.lines.length = symbols.length + run.reducedForms.length + 2) := by
  intro table run
  have unshifted := Table.shifts_endMarker other
  have unfinished := Configuration.unfinished_initial symbols
  have form_eq := Configuration.form_initial symbols
  constructor
  · intro allowed configuration member
    have visited := Configuration.derives_of_mem_run unshifted unfinished member
    rw [form_eq] at visited
    exact visited
  · intro trace parsed accepted
    obtain ⟨ending, lines⟩ := run_of_parse_accepted parsed accepted
    have runs := runsTo_of_run_ending (by rw [ending]; decide)
    constructor
    · have derivation := runs.accepted_derives grammar.mem_productions_of_headOf? unshifted
        ending unfinished
      rw [form_eq] at derivation
      exact derivation
    · intro settled
      have input_eq : (Configuration.initial symbols).input.dropLast = symbols := by
        simp [Configuration.initial]
      obtain ⟨derivation, counted⟩ := runs.accepted_rightmostDerivation unshifted ending
        unfinished (by rw [input_eq]; exact settled)
      rw [form_eq] at derivation
      rw [input_eq] at counted
      refine ⟨derivation, ?_⟩
      rw [lines, counted]
      rfl

/-- The products among the sums: the same productions with another start. -/
def products : Grammar :=
  { sums with
    start := .nonterminal 'T'
    start_isHead := ⟨⟨.nonterminal 'T', [.terminal 'a']⟩, by decide, rfl⟩ }

/-- A product, parsed with the table that the sums had. -/
theorem products_parse_sound :
    let forms : List (List Symbol) := [
      [.nonterminal 'T'],
      [.nonterminal 'T', .terminal '*', .terminal 'a'],
      Symbol.terminals ['a', '*', 'a']]
    products.Derives [products.start] (Symbol.terminals ['a', '*', 'a']) ∧
      products.RightmostDerivation [products.start] (Symbol.terminals ['a', '*', 'a']) forms := by
  intro forms
  have parsed : products.parse (Table.ofGrammar sums) (Symbol.terminals ['a', '*', 'a']) =
      .ok ⟨[['^', ' ', 'a', '*', 'a', '$'], ['^', 'a', ' ', '*', 'a', '$'],
        ['^', 'T', ' ', '*', 'a', '$'], ['^', 'T', '*', ' ', 'a', '$'],
        ['^', 'T', '*', 'a', ' ', '$'], ['^', 'T', ' ', '$'], ['^', 'T', '$']], .accepted⟩ := by
    decide +kernel
  obtain ⟨derivation, backwards⟩ := (parse_sound products sums _).2 _ parsed rfl
  have forms_eq : (products.run (Table.ofGrammar sums)
      (Symbol.terminals ['a', '*', 'a'])).reducedForms.reverse ++
        [Symbol.terminals ['a', '*', 'a']] = forms := by
    decide +kernel
  have rightmost := (backwards (Symbol.settled_terminals _)).1
  rw [forms_eq] at rightmost
  exact ⟨derivation, rightmost⟩

end Grammar

end PrecedenceGrammar
