import PrecedenceGrammar.Classification
import PrecedenceGrammar.Parser.Trace
import PrecedenceGrammar.Source.Document
import PrecedenceGrammar.Table.Layout

/-!
# Reports

A report shows the table and the type of a grammar and then the traces of the
texts that were parsed, with an empty line between any two of them.
-/

namespace PrecedenceGrammar

def Grammar.testRun (grammar : Grammar) (table : Table) (test : TestCase) : Run :=
  grammar.run table (Symbol.terminals test.text)

def Grammar.parseTests (grammar : Grammar) (table : Table) :
    List TestCase → Except (Located ParseError) (List Trace)
  | [] => .ok []
  | test :: later =>
    match (grammar.testRun table test).trace with
    | .error error => .error ⟨test.location, error⟩
    | .ok trace => (grammar.parseTests table later).map (trace :: ·)

/-- The traces of all tests when the grammar can be parsed, and none when it
cannot. -/
def Grammar.traces (grammar : Grammar) (table : Table) (type : GrammarType)
    (tests : List TestCase) : Except (Located ParseError) (List Trace) :=
  if type.allowsParsing then grammar.parseTests table tests else .ok []

/-- What is reported of a grammar: the text of its table, its type, and the
traces of the texts that were parsed. -/
structure Report where
  table : Text
  type : GrammarType
  traces : List Trace

/-- The table, a line with the code of the type, an empty line, and the traces
line by line. -/
def Report.text (report : Report) : Text :=
  let sections := report.traces.map fun trace => ['\n'].intercalate trace.lines
  report.table ++ report.type.code :: '\n' :: '\n' ::
    if report.traces.isEmpty then [] else ['\n', '\n'].intercalate sections ++ ['\n']

end PrecedenceGrammar
