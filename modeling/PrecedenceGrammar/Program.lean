import PrecedenceGrammar.CommandLine
import PrecedenceGrammar.Derivation.RandomTree
import PrecedenceGrammar.Random.ChaCha
import PrecedenceGrammar.Report
import PrecedenceGrammar.Source.FileTree

/-!
# The program

One run reads a grammar file, analyses the grammar, generates sentences if any
are asked for, parses all tests and writes one report.  It either fails before
anything is written, or writes the report to exactly one place.  The system that
it runs on is left open: its state may be a value, and the operating system is
another one.
-/

namespace PrecedenceGrammar

inductive ProgramError where
  | load (error : LoadError)
  | generate (error : GenerationError)
  | parse (error : ParseError)
  deriving DecidableEq

def ProgramError.message : ProgramError → String
  | .load error => error.message
  | .generate error => error.message
  | .parse error => error.message

/-- Located errors of one kind among those of the program. -/
def Located.lift {ε : Type} (kind : ε → ProgramError) (located : Located ε) :
    Located ProgramError :=
  ⟨located.location, kind located.error⟩

namespace Options

/-- The grammar of a document with the start symbol that the options ask for. -/
def grammarOf (options : Options) (document : Document) : Except GrammarError Grammar :=
  match options.start with
  | some start => document.grammar.withStart (.nonterminal start)
  | none => .ok document.grammar

/-- The alphabet that orders the written table, if it is not the order of
appearance. -/
def alphabet (options : Options) (grammar : Grammar) : Option (List Symbol) :=
  if options.appearanceOrder then none else some grammar.symbolsByKind

/-- The sentences to parse besides the tests of the document. -/
def sentences {σ : Type} [ChoiceSource σ] (options : Options) (grammar : Grammar)
    (source : σ) : Except GenerationError (List TestCase) := do
  let trees ← grammar.randomTrees options.amount source
  return trees.map fun tree => ⟨tree.yield, .wholeFile options.file⟩

/-- The report for a document, or the errors that stop the run. -/
def report {σ : Type} [ChoiceSource σ] (options : Options) (document : Document)
    (source : σ) : Except (Located ProgramError) Text := do
  let whole := Location.wholeFile options.file
  let grammar ← (options.grammarOf document).mapError fun error =>
    ⟨whole, .load (.grammar error)⟩
  let analysis := grammar.analysis
  let sentences ← (options.sentences grammar source).mapError fun error =>
    ⟨whole, .generate error⟩
  let tests := document.tests ++ sentences
  let traces ← (grammar.traces analysis.table analysis.type tests).mapError (·.lift .parse)
  let table := analysis.table.text (options.alphabet grammar)
  return Report.text ⟨table, analysis.type, traces⟩

/-- The report for the bytes of the grammar file, or the errors that stop the
run. -/
def reportFor {σ : Type} [ChoiceSource σ] (options : Options)
    (contents : Except FileError ByteArray) (source : σ) :
    Except (List (Located ProgramError)) Text := do
  let bytes ← contents.mapError fun error => [⟨.wholeFile options.file, .load (.file error)⟩]
  let document ← (Document.ofBytes options.file bytes).mapError (·.map (·.lift .load))
  (options.report document source).mapError ([·])

end Options

def displayErrors (errors : List (Located ProgramError)) : String :=
  String.join (errors.map fun error => error.display ProgramError.message ++ "\n")

/-- What a run asks of the system around it. -/
class MonadSystem (m : Type → Type) where
  readFile : Path → m (Except FileError ByteArray)
  writeFile : Path → ByteArray → m (Except FileError Unit)
  print : String → m Unit
  printError : String → m Unit

section Execution

variable {m : Type → Type} [Monad m] [MonadSystem m]

/-- Shows the errors of a run and ends it with the exit code of failures. -/
def failWith (errors : List (Located ProgramError)) : m Nat := do
  MonadSystem.printError (displayErrors errors)
  return 1

namespace Options

/-- Shows a report or writes it to the output file. -/
def deliver (options : Options) (report : String) : m Nat := do
  match options.output with
  | none =>
    MonadSystem.print report
    return 0
  | some path =>
    match ← MonadSystem.writeFile path report.toUTF8 with
    | .ok () => return 0
    | .error error => failWith [⟨.wholeFile path, .load (.file error)⟩]

/-- One run on any system, with its exit code. -/
def execute {σ : Type} [ChoiceSource σ] (options : Options) (source : σ) : m Nat := do
  let contents ← MonadSystem.readFile options.file
  match options.reportFor contents source with
  | .ok text => options.deliver (String.ofList text)
  | .error errors => failWith errors

end Options

end Execution

/-- A system of its own: what was shown so far, and the files. -/
structure Session (Φ : Type) where
  standardOutput : String
  standardError : String
  files : Φ

instance {Φ : Type} [FileSystem Φ] : MonadSystem (StateM (Session Φ)) where
  readFile path := do
    return FileSystem.read (← get).files path
  writeFile path bytes := modifyGet fun session =>
    let (outcome, files) := FileSystem.write session.files path bytes
    (outcome, { session with files })
  print text := modify fun session =>
    { session with standardOutput := session.standardOutput ++ text }
  printError text := modify fun session =>
    { session with standardError := session.standardError ++ text }

structure ProgramResult (Φ : Type) where
  exitCode : Nat
  standardOutput : String
  standardError : String
  files : Φ

/-- One run with nothing shown before it. -/
def Options.run {Φ σ : Type} [FileSystem Φ] [ChoiceSource σ] (options : Options) (files : Φ)
    (source : σ) : ProgramResult Φ :=
  let program : StateM (Session Φ) Nat := options.execute source
  let (exitCode, session) := Id.run (program.run ⟨"", "", files⟩)
  ⟨exitCode, session.standardOutput, session.standardError, session.files⟩

end PrecedenceGrammar
