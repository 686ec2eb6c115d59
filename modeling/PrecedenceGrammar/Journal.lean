import PrecedenceGrammar.Report

/-!
# The journal

Every stage can tell what it did, as a list of events that follows from its
result.  An event has a level and a message.
-/

namespace PrecedenceGrammar

inductive Level where
  | trace
  | debug
  | info
  deriving DecidableEq

def Level.name : Level → String
  | .trace => "TRACE"
  | .debug => "DEBUG"
  | .info => "INFO"

inductive Event where
  | loaded (rules symbols tests : Nat) (path : Path)
  | saturated (head : Symbol) (firstRounds lastRounds : Nat)
  | endSets (head : Symbol) (first last : List Symbol)
  | tableBuilt (rows columns : Nat)
  | overlap
  | ambiguousSuffix (before head : Symbol)
  | classified (start : Symbol) (type : GrammarType)
  | unrelated (top next : Symbol)
  | shifted (symbol : Symbol)
  | noBasisStart
  | reduced (body : List Symbol) (head : Symbol)
  | accepted (text : Text) (steps : Nat)
  | rejected (text : Text) (location : Location)

namespace Event

def level : Event → Level
  | .loaded .. => .info
  | .saturated .. => .trace
  | .endSets .. => .debug
  | .tableBuilt .. => .info
  | .overlap => .debug
  | .ambiguousSuffix .. => .debug
  | .classified .. => .info
  | .unrelated .. => .trace
  | .shifted _ => .trace
  | .noBasisStart => .trace
  | .reduced .. => .trace
  | .accepted .. => .info
  | .rejected .. => .info

def listed (symbols : List Symbol) : String :=
  ", ".intercalate (symbols.map toString)

def message : Event → String
  | .loaded rules symbols tests path =>
    let file := path.text
    s!"Loaded {rules} rules over {symbols} symbols and {tests} test strings from {file}"
  | .saturated head firstRounds lastRounds =>
    s!"Saturated `{head}` in {firstRounds} and {lastRounds} rounds"
  | .endSets head first last =>
    let first := listed first
    let last := listed last
    s!"FIRST({head}) = \x7b{first}\x7d, LAST({head}) = \x7b{last}\x7d"
  | .tableBuilt rows columns => s!"Built a {rows}x{columns} precedence table"
  | .overlap => "Shift and reduce relations overlap"
  | .ambiguousSuffix before head =>
    s!"A rule of `{head}` is a suffix of another rule where it follows `{before}`"
  | .classified start type => s!"Grammar with axiom `{start}` is {type}"
  | .unrelated top next => s!"`{top}` and `{next}` are unrelated"
  | .shifted symbol => s!"Shift `{symbol}`"
  | .noBasisStart => "No basis start on the stack"
  | .reduced body head =>
    let body := String.ofList (Symbol.textOf body)
    s!"Reduce `{body}` to `{head}`"
  | .accepted text steps =>
    let text := String.ofList text
    s!"Accepted `{text}` in {steps} steps"
  | .rejected text location =>
    let text := String.ofList text
    let place := location.text
    s!"Rejected `{text}` ({place})"

def line (event : Event) : String :=
  let level := event.level.name
  let message := event.message
  s!"{level} {message}"

end Event

def Document.events (document : Document) (path : Path) : List Event :=
  [.loaded document.grammar.productions.length document.grammar.symbols.length
    document.tests.length path]

def EndSets.events (sets : EndSets) : List Event :=
  sets.entries.map fun entry => .saturated entry.head entry.first.rounds entry.last.rounds

/-- The sets of every nonterminal in the order of symbols. -/
def EndSets.listing (sets : EndSets) : List Event :=
  sets.entries.map fun entry =>
    .endSets entry.head (Symbol.sorted entry.first.members) (Symbol.sorted entry.last.members)

def Table.events (table : Table) : List Event :=
  [.tableBuilt table.rows.length table.columns.length]

def Diagnosis.events : Diagnosis → List Event
  | .simple => []
  | .weak => []
  | .overlap => [.overlap]
  | .ambiguousSuffix before head => [.ambiguousSuffix before head]

def Analysis.events (analysis : Analysis) (start : Symbol) : List Event :=
  analysis.sets.events ++ analysis.sets.listing ++ analysis.table.events ++
    analysis.diagnosis.events ++ [.classified start analysis.type]

def Action.event : Action → Event
  | .shift symbol => .shifted symbol
  | .reduce body head => .reduced body head

def Ending.events : Ending → List Event
  | .unrelated top next => [.unrelated top next]
  | .noBasisStart => [.noBasisStart]
  | .unrelatedHead body head => [.reduced body head]
  | .accepted => []
  | .noSuchRule _ => []
  | .inputExhausted => []
  | .endless => []

def Run.events (run : Run) : List Event :=
  run.moves.map (·.action.event) ++ run.ending.events

/-- The steps of the run on a test, and its outcome. -/
def TestCase.events (test : TestCase) (run : Run) : List Event :=
  let outcome : List Event :=
    match run.trace with
    | .error _ => []
    | .ok trace =>
      match trace.outcome with
      | .accepted => [.accepted test.text (trace.lines.length - 1)]
      | .rejected => [.rejected test.text test.location]
  run.events ++ outcome

/-- The runs on tests in order, up to the first without a trace. -/
def Grammar.testEvents (grammar : Grammar) (table : Table) : List TestCase → List Event
  | [] => []
  | test :: later =>
    let run := grammar.testRun table test
    let events := test.events run
    match run.trace with
    | .error _ => events
    | .ok _ => events ++ grammar.testEvents table later

end PrecedenceGrammar
