import Mathlib.Data.List.Nodup
import PrecedenceGrammar.Parser.Trace
import PrecedenceGrammar.Proofs.ParserSteps
import PrecedenceGrammar.Proofs.TableRelations

/-!
# Runs without a limit

A run that is not cut off repeats moves until a step ends it.  No configuration
comes twice in it, so there are at most as many reductions of one symbol in a
row as there are heads, and the limit on steps never cuts off a run that ends.
-/

namespace PrecedenceGrammar

/-- The configurations of a run, each with the move that is made in it. -/
def Run.steps (run : Run) : List (Configuration × Move) :=
  run.configurations.zip run.moves

theorem Run.length_lines (run : Run) : run.lines.length = run.moves.length + 1 := by
  simp [lines, configurations]

namespace Configuration

/-- The moves from a configuration to the end of its run. -/
inductive RunsTo (grammar : Grammar) (table : Table) :
    Configuration → List Move → Ending → Prop where
  | halted {configuration : Configuration} {ending : Ending}
      (stops : configuration.step grammar table = .halted ending) :
      RunsTo grammar table configuration [] ending
  | moved {configuration next : Configuration} {action : Action} {moves : List Move}
      {ending : Ending} (step : Moves grammar table configuration action next)
      (later : RunsTo grammar table next moves ending) :
      RunsTo grammar table configuration (⟨action, next⟩ :: moves) ending

variable {grammar : Grammar} {table : Table}

theorem Moves.step_eq
    {configuration next : Configuration} {action : Action}
    (moves : Moves grammar table configuration action next) :
    configuration.step grammar table = .moved action next :=
  step_eq_moved_iff.mpr moves

theorem Moves.run_succ
    {configuration next : Configuration} {action : Action} (allowed : Nat)
    (moves : Moves grammar table configuration action next) :
    configuration.run grammar table (allowed + 1) =
      ⟨configuration, ⟨action, next⟩ :: (next.run grammar table allowed).moves,
        (next.run grammar table allowed).ending⟩ := by
  rw [run, moves.step_eq]

theorem Halts.run_succ
    {configuration : Configuration} {ending : Ending} (allowed : Nat)
    (halts : Halts grammar table configuration ending) :
    configuration.run grammar table (allowed + 1) = ⟨configuration, [], ending⟩ := by
  rw [run, step_eq_halted_iff.mpr halts]

theorem run_origin (configuration : Configuration) (allowed : Nat) :
    (configuration.run grammar table allowed).origin = configuration := by
  cases allowed with
  | zero => rfl
  | succ allowed =>
      rw [run]
      split <;> rfl

/-- What every move keeps holds of all configurations of a run, however long. -/
theorem forall_mem_run
    {configuration visited : Configuration} {allowed : Nat} (holds : Configuration → Prop)
    (kept : ∀ origin action next, Moves grammar table origin action next → holds origin →
      holds next)
    (initially : holds configuration)
    (member : visited ∈ (configuration.run grammar table allowed).configurations) :
    holds visited := by
  induction allowed generalizing configuration with
  | zero =>
      cases List.mem_singleton.mp member
      exact initially
  | succ allowed induction =>
      cases step : configuration.step grammar table with
      | halted ending =>
          rw [(step_eq_halted_iff.mp step).run_succ] at member
          cases List.mem_singleton.mp member
          exact initially
      | moved action next =>
          have moves := step_eq_moved_iff.mp step
          rw [moves.run_succ] at member
          have nextHolds := kept _ _ _ moves initially
          rcases List.mem_cons.mp member with rfl | later
          · exact initially
          · apply induction nextHolds
            rw [Run.configurations, run_origin]
            exact later

theorem RunsTo.run_eq
    {configuration : Configuration} {moves : List Move} {ending : Ending} {allowed : Nat}
    (runs : RunsTo grammar table configuration moves ending)
    (enough : moves.length < allowed) :
    configuration.run grammar table allowed = ⟨configuration, moves, ending⟩ := by
  induction runs generalizing allowed with
  | halted stops =>
      cases allowed with
      | zero => cases enough
      | succ allowed => rw [run, stops]
  | moved step _ induction =>
      cases allowed with
      | zero => cases enough
      | succ allowed =>
          have inner := induction (Nat.lt_of_succ_lt_succ enough)
          rw [step.run_succ, inner]

theorem runsTo_of_run
    {configuration : Configuration} {allowed : Nat}
    (ended : (configuration.run grammar table allowed).ending ≠ .endless) :
    RunsTo grammar table configuration (configuration.run grammar table allowed).moves
      (configuration.run grammar table allowed).ending := by
  induction allowed generalizing configuration with
  | zero => exact absurd rfl ended
  | succ allowed induction =>
      cases step : configuration.step grammar table with
      | halted ending =>
          rw [(step_eq_halted_iff.mp step).run_succ]
          exact .halted step
      | moved action next =>
          have moves := step_eq_moved_iff.mp step
          rw [moves.run_succ] at ended ⊢
          exact .moved moves (induction ended)

theorem RunsTo.halts_final
    {configuration : Configuration} {moves : List Move} {ending : Ending}
    (runs : RunsTo grammar table configuration moves ending) :
    Halts grammar table (Run.mk configuration moves ending).final ending := by
  induction runs with
  | halted stops => exact step_eq_halted_iff.mp stops
  | @moved _ next _ moves _ _ _ induction =>
      cases moves with
      | nil => exact induction
      | cons move moves =>
          rw [Run.final, List.getLast?_cons_cons]
          exact induction

theorem halts_final
    {configuration : Configuration} {allowed : Nat}
    (ended : (configuration.run grammar table allowed).ending ≠ .endless) :
    Halts grammar table (configuration.run grammar table allowed).final
      (configuration.run grammar table allowed).ending := by
  have origin_eq : (configuration.run grammar table allowed).origin = configuration :=
    run_origin configuration allowed
  have halts := (runsTo_of_run ended).halts_final
  nth_rewrite 1 [← origin_eq] at halts
  exact halts

/-- With a grammar's own table a complete configuration is accepted. -/
theorem halts_accepted (grammar : Grammar) (marker : Relation) :
    Halts grammar (Table.ofGrammar grammar) ⟨[⟨marker, grammar.start⟩], [.endMarker]⟩
      .accepted := by
  apply Halts.accepted
  · exact Table.greater_ofGrammar_iff.mpr grammar.greater_start_endMarker
  · exact isComplete_iff.mpr ⟨marker, rfl⟩

/-- A run that comes to where another begins ends as that one does. -/
theorem RunsTo.of_mem_run
    {configuration visited : Configuration} {allowed : Nat} {moves : List Move}
    {ending : Ending} (runs : RunsTo grammar table visited moves ending)
    (member : visited ∈ (configuration.run grammar table allowed).configurations) :
    ∃ all, RunsTo grammar table configuration all ending := by
  refine forall_mem_run (fun passed => (∃ later, RunsTo grammar table passed later ending) →
    ∃ all, RunsTo grammar table configuration all ending) ?_ id member ⟨moves, runs⟩
  intro origin action next step earlier continues
  obtain ⟨later, continues⟩ := continues
  exact earlier ⟨⟨action, next⟩ :: later, .moved step continues⟩

theorem RunsTo.unique
    {configuration : Configuration} {moves others : List Move} {ending other : Ending}
    (runs : RunsTo grammar table configuration moves ending)
    (otherRuns : RunsTo grammar table configuration others other) :
    moves = others ∧ ending = other := by
  have enough : moves.length < max moves.length others.length + 1 := by omega
  have otherEnough : others.length < max moves.length others.length + 1 := by omega
  have same := (runs.run_eq enough).symm.trans (otherRuns.run_eq otherEnough)
  cases same
  exact ⟨rfl, rfl⟩

theorem RunsTo.exists_later
    {configuration visited : Configuration} {moves : List Move} {ending : Ending}
    (runs : RunsTo grammar table configuration moves ending)
    (member : visited ∈ moves.map (·.configuration)) :
    ∃ later, later.length < moves.length ∧ RunsTo grammar table visited later ending := by
  induction runs with
  | halted => cases member
  | @moved _ next _ moves _ _ later induction =>
      rcases List.mem_cons.mp member with rfl | further
      · exact ⟨moves, Nat.lt_succ_self _, later⟩
      · obtain ⟨rest, shorter, continues⟩ := induction further
        exact ⟨rest, Nat.lt_succ_of_lt shorter, continues⟩

/-- In a step of a run that ends a move is made, and from there the run comes to
the same end.  What every move keeps holds where the step is made. -/
theorem RunsTo.of_mem_steps
    {configuration visited : Configuration} {move : Move} {moves : List Move} {ending : Ending}
    (holds : Configuration → Prop)
    (kept : ∀ origin action next, Moves grammar table origin action next → holds origin →
      holds next)
    (initially : holds configuration)
    (runs : RunsTo grammar table configuration moves ending)
    (member : (visited, move) ∈ (Run.mk configuration moves ending).steps) :
    holds visited ∧ Moves grammar table visited move.action move.configuration ∧
      ∃ later, RunsTo grammar table move.configuration later ending := by
  induction runs with
  | halted => cases member
  | @moved _ _ _ moves _ step later induction =>
      rcases List.mem_cons.mp member with here | further
      · cases here
        exact ⟨initially, step, moves, later⟩
      · exact induction (kept _ _ _ step initially) further

/-- A run that ends never comes back to where it started. -/
theorem RunsTo.not_mem
    {configuration : Configuration} {moves : List Move} {ending : Ending}
    (runs : RunsTo grammar table configuration moves ending) :
    configuration ∉ moves.map (·.configuration) := by
  intro member
  obtain ⟨later, shorter, again⟩ := runs.exists_later member
  rw [(runs.unique again).1] at shorter
  exact Nat.lt_irrefl _ shorter

/-- The end marker is still unread. -/
def Unfinished (configuration : Configuration) : Prop :=
  configuration.input.getLast? = some .endMarker

/-- Twice the symbols to shift and the height of the stack, which a shift and a
reduction of a longer body both lower. -/
def potential (configuration : Configuration) : Nat :=
  2 * (configuration.input.length - 1) + configuration.stack.length

/-- What a reduction of the top symbol alone leads to. -/
def withTop (configuration : Configuration) (table : Table) (head : Symbol) : Configuration :=
  ⟨⟨table.relation (Stack.top configuration.stack.tail) head, head⟩ :: configuration.stack.tail,
    configuration.input⟩

theorem unfinished_initial (symbols : List Symbol) : (initial symbols).Unfinished := by
  simp [Unfinished, initial]

theorem Moves.unfinished
    {configuration next : Configuration} {action : Action}
    (unshifted : ∀ left, (table.relation left .endMarker).shifts = false)
    (moves : Moves grammar table configuration action next)
    (unfinished : configuration.Unfinished) :
    next.Unfinished := by
  cases moves with
  | @shift stack symbol unread shifts notGreater =>
      cases unread with
      | nil =>
          cases unfinished
          rw [unshifted] at shifts
          cases shifts
      | cons second unread => exact unfinished
  | reduce => exact unfinished

theorem Moves.shift_potential
    {configuration next : Configuration} {symbol : Symbol}
    (moves : Moves grammar table configuration (.shift symbol) next)
    (unfinished : next.Unfinished) :
    next.potential + 1 = configuration.potential := by
  cases moves with
  | @shift stack _ unread shifts notGreater =>
      cases unread with
      | nil => cases unfinished
      | cons second unread =>
          simp only [potential, List.length_cons]
          omega

/-- Only a reduction of the top symbol alone keeps the potential. -/
theorem Moves.reduce_potential
    {configuration next : Configuration} {body : List Symbol} {head : Symbol}
    (moves : Moves grammar table configuration (.reduce body head) next) :
    grammar.headOf? body = some head ∧
      (next.potential + 1 ≤ configuration.potential ∨
        next.potential = configuration.potential ∧ body = [configuration.stack.top] ∧
          next = configuration.withTop table head) := by
  cases moves with
  | @reduce stack reduced symbol unread _ _ greater incomplete reduction =>
      obtain ⟨front, split, nonempty, isBody, _, rfl⟩ := Stack.reduce_eq_reduced reduction
      refine ⟨isBody, ?_⟩
      have sizes : stack.length = front.length + body.length := by
        rw [← Stack.length_symbols, split, List.length_append]
      have positive : 0 < body.length := List.length_pos_iff.mpr nonempty
      by_cases single : body.length = 1
      · right
        obtain ⟨only, rfl⟩ := List.length_eq_one_iff.mp single
        refine ⟨?_, ?_, ?_⟩
        · simp only [potential, List.length_cons, List.length_nil, List.length_drop] at sizes ⊢
          omega
        · rw [Stack.top_eq_of_symbols split]
        · rw [List.length_singleton, List.drop_one]
          rfl
      · left
        simp only [potential, List.length_cons, List.length_drop]
        omega

/-- The heads that the top symbol was reduced to without any other move in
between.  None of them comes again. -/
structure Tried (grammar : Grammar) (table : Table) (configuration : Configuration)
    (moves : List Move) (heads : List Symbol) : Prop where
  distinct : heads.Nodup
  known : heads ⊆ grammar.heads
  passed : ∀ head ∈ heads, configuration.withTop table head ∉ moves.map (·.configuration)

theorem tried_nil (configuration : Configuration) (moves : List Move) :
    Tried grammar table configuration moves [] where
  distinct := List.nodup_nil
  known := List.nil_subset _
  passed := by simp

theorem Tried.length_le
    {configuration : Configuration} {moves : List Move} {heads : List Symbol}
    (tried : Tried grammar table configuration moves heads) :
    heads.length ≤ grammar.heads.length :=
  tried.distinct.length_le_of_subset tried.known

theorem Tried.cons
    {configuration next : Configuration} {action : Action} {moves : List Move}
    {head : Symbol} {heads : List Symbol}
    (tried : Tried grammar table configuration (⟨action, next⟩ :: moves) heads)
    (isHead : head ∈ grammar.heads) (replaced : next = configuration.withTop table head)
    (left : next ∉ moves.map (·.configuration)) :
    Tried grammar table next moves (head :: heads) := by
  have new : head ∉ heads := by
    intro member
    apply tried.passed head member
    rw [← replaced]
    exact List.mem_cons_self
  have sameTop : ∀ other, next.withTop table other = configuration.withTop table other := by
    intro other
    rw [replaced]
    rfl
  refine ⟨List.nodup_cons.mpr ⟨new, tried.distinct⟩,
    List.cons_subset.mpr ⟨isHead, tried.known⟩, ?_⟩
  intro other member
  rw [sameTop]
  rcases List.mem_cons.mp member with rfl | older
  · rw [← replaced]
    exact left
  · intro again
    exact tried.passed other older (List.mem_cons_of_mem _ again)

private theorem room_of_lower_potential
    {moves seen heads lower potential : Nat} (falls : lower + 1 ≤ potential)
    (bounded : moves ≤ lower * (heads + 1) + heads) (counted : seen ≤ heads) :
    moves + 1 + seen ≤ potential * (heads + 1) + heads := by
  have scaled := Nat.mul_le_mul_right (heads + 1) falls
  rw [Nat.add_mul] at scaled
  omega

/-- A reduction of the top symbol adds to the heads that were tried, and any other
move lowers the potential and starts over with none. -/
theorem RunsTo.length_le
    {configuration : Configuration} {moves : List Move} {ending : Ending} {seen : List Symbol}
    (unshifted : ∀ left, (table.relation left .endMarker).shifts = false)
    (runs : RunsTo grammar table configuration moves ending)
    (unfinished : configuration.Unfinished) (tried : Tried grammar table configuration moves seen) :
    moves.length + seen.length ≤
      configuration.potential * (grammar.heads.length + 1) + grammar.heads.length := by
  induction runs generalizing seen with
  | halted =>
      have counted := tried.length_le
      rw [List.length_nil]
      omega
  | @moved configuration next action moves ending step later induction =>
      have nextUnfinished := step.unfinished unshifted unfinished
      have anew := induction nextUnfinished (tried_nil next moves)
      cases action with
      | shift symbol =>
          have falls := Nat.le_of_eq (step.shift_potential nextUnfinished)
          exact room_of_lower_potential falls anew tried.length_le
      | reduce body head =>
          obtain ⟨isBody, falls | ⟨level, _, replaced⟩⟩ := step.reduce_potential
          · exact room_of_lower_potential falls anew tried.length_le
          · have isHead := grammar.mem_heads_of_headOf? isBody
            have rest := induction nextUnfinished (tried.cons isHead replaced later.not_mem)
            rw [level] at rest
            simp only [List.length_cons] at rest ⊢
            omega

theorem Moves.initial_shift
    {symbols : List Symbol} {next : Configuration} {action : Action}
    (moves : Moves grammar table (initial symbols) action next) :
    ∃ symbol, action = .shift symbol := by
  generalize origin_eq : initial symbols = origin at moves
  cases moves with
  | @shift _ symbol => exact ⟨symbol, rfl⟩
  | @reduce stack _ _ _ _ _ greater incomplete reduction =>
      have empty : [] = stack := congrArg Configuration.stack origin_eq
      subst empty
      obtain ⟨front, split, nonempty, _⟩ := Stack.reduce_eq_reduced reduction
      rw [Stack.symbols_nil] at split
      exact absurd (List.append_eq_nil_iff.mp split.symm).2 nonempty

theorem RunsTo.initial_length_le
    {symbols : List Symbol} {moves : List Move} {ending : Ending}
    (unshifted : ∀ left, (table.relation left .endMarker).shifts = false)
    (runs : RunsTo grammar table (initial symbols) moves ending) :
    moves.length ≤ 2 * symbols.length * (grammar.heads.length + 1) := by
  generalize origin_eq : initial symbols = origin at runs
  cases runs with
  | halted => exact Nat.zero_le _
  | @moved _ next action moves _ step later =>
      subst origin_eq
      obtain ⟨symbol, rfl⟩ := step.initial_shift
      have unfinished := step.unfinished unshifted (unfinished_initial symbols)
      have potential_eq := step.shift_potential unfinished
      have bounded := later.length_le unshifted unfinished (tried_nil next moves)
      have origin_potential : (initial symbols).potential = 2 * symbols.length := by
        simp [potential, initial]
      have total : 2 * symbols.length * (grammar.heads.length + 1) =
          next.potential * (grammar.heads.length + 1) + (grammar.heads.length + 1) := by
        rw [← origin_potential, ← potential_eq, Nat.succ_mul]
      rw [total]
      simp only [List.length_cons, List.length_nil] at bounded ⊢
      omega

end Configuration

namespace Grammar

variable {grammar : Grammar} {table : Table} {symbols : List Symbol}

/-- The limit on steps cuts off no run that ends. -/
theorem run_eq_of_runsTo
    {moves : List Move} {ending : Ending}
    (unshifted : ∀ left, (table.relation left .endMarker).shifts = false)
    (runs : (Configuration.initial symbols).RunsTo grammar table moves ending) :
    grammar.run table symbols = ⟨Configuration.initial symbols, moves, ending⟩ :=
  runs.run_eq (Nat.lt_succ_of_le (runs.initial_length_le unshifted))

theorem runsTo_of_run_ending
    (ended : (grammar.run table symbols).ending ≠ .endless) :
    (Configuration.initial symbols).RunsTo grammar table (grammar.run table symbols).moves
      (grammar.run table symbols).ending :=
  Configuration.runsTo_of_run ended

theorem run_of_parse_accepted
    {trace : Trace} (parsed : grammar.parse table symbols = .ok trace)
    (accepted : trace.outcome = .accepted) :
    (grammar.run table symbols).ending = .accepted ∧
      trace.lines.length = (grammar.run table symbols).moves.length + 2 := by
  unfold parse Run.trace at parsed
  split at parsed
  · next ending =>
    cases parsed
    exact ⟨ending, by rw [List.length_append, List.length_singleton, Run.length_lines]⟩
  all_goals
    cases parsed
    try cases accepted

/-- A text is accepted exactly if the run of it ends so, however long it is. -/
theorem parse_accepted_iff
    (unshifted : ∀ left, (table.relation left .endMarker).shifts = false) :
    (∃ lines, grammar.parse table symbols = .ok ⟨lines, .accepted⟩) ↔
      ∃ moves, (Configuration.initial symbols).RunsTo grammar table moves .accepted := by
  constructor
  · intro parses
    obtain ⟨lines, parsed⟩ := parses
    have ending := (run_of_parse_accepted parsed rfl).1
    have runs := runsTo_of_run_ending (by rw [ending]; exact Ending.noConfusion)
    rw [ending] at runs
    exact ⟨_, runs⟩
  · intro ends
    obtain ⟨moves, runs⟩ := ends
    rw [parse, run_eq_of_runsTo unshifted runs]
    exact ⟨_, rfl⟩

end Grammar

end PrecedenceGrammar
