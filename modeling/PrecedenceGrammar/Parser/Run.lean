import PrecedenceGrammar.Parser.Step

/-!
# Parser runs

A run repeats steps until one of them ends it.  Reductions of one symbol to its
head may go round in a circle, so a run is cut off after more steps than any
run that ends can take; it is then endless.
-/

namespace PrecedenceGrammar

structure Move where
  action : Action
  configuration : Configuration
  deriving DecidableEq

/-- The moves from a configuration on, and why there are no more. -/
structure Run where
  origin : Configuration
  moves : List Move
  ending : Ending
  deriving DecidableEq

/-- The run from a configuration, cut off after the given number of steps. -/
def Configuration.run (grammar : Grammar) (table : Table) :
    Nat → Configuration → Run
  | 0, configuration => ⟨configuration, [], .endless⟩
  | allowed + 1, configuration =>
    match configuration.step grammar table with
    | .halted ending => ⟨configuration, [], ending⟩
    | .moved action next =>
      let later := run grammar table allowed next
      ⟨configuration, ⟨action, next⟩ :: later.moves, later.ending⟩

/-- A bound on the steps of a run that ends: one shift for each symbol, fewer
reductions of longer bodies than shifts, and after each of these at most one
reduction of a single symbol for each head; then the step that ends the run. -/
def Grammar.stepLimit (grammar : Grammar) (length : Nat) : Nat :=
  2 * length * (grammar.heads.length + 1) + 1

def Grammar.run (grammar : Grammar) (table : Table) (symbols : List Symbol) : Run :=
  (Configuration.initial symbols).run grammar table (grammar.stepLimit symbols.length)

namespace Run

def configurations (run : Run) : List Configuration :=
  run.origin :: run.moves.map (·.configuration)

def final (run : Run) : Configuration :=
  match run.moves.getLast? with
  | some move => move.configuration
  | none => run.origin

end Run

end PrecedenceGrammar
