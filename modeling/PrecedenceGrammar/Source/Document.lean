import PrecedenceGrammar.Source.RuleLine

/-!
# Grammar documents

A document holds rule lines, an empty line, and then the texts to parse up to
the next empty line.  A line that starts with a semicolon among the rules is a
comment.  All malformed rule lines are reported together.
-/

namespace PrecedenceGrammar

structure TestCase where
  text : Text
  location : Location
  deriving BEq

structure LocatedRule where
  production : Production
  location : Location

/-- A grammar, the texts to parse with it, and problems that do not stop it
from being analysed. -/
structure Document where
  grammar : Grammar
  tests : List TestCase
  warnings : List (Located LoadError)

namespace Document

/-- The lines without trailing white space, each with its number from one. -/
def numberedLines (lines : List Text) : List (Text × Nat) :=
  (lines.map Text.trimEnd).zipIdx 1

/-- The lines up to the first empty one. -/
def block (lines : List (Text × Nat)) : List (Text × Nat) :=
  lines.takeWhile fun line => !line.1.isEmpty

/-- The lines after the first empty one. -/
def afterBlock (lines : List (Text × Nat)) : List (Text × Nat) :=
  (lines.dropWhile fun line => !line.1.isEmpty).drop 1

def isComment (line : Text) : Bool :=
  line.head? == some ';'

def ruleLines (lines : List Text) : List (Text × Nat) :=
  (block (numberedLines lines)).filter fun line => !isComment line.1

def testLines (lines : List Text) : List (Text × Nat) :=
  block (afterBlock (numberedLines lines))

def lineErrors (path : Path) (lines : List (Text × Nat)) : List (Located LoadError) :=
  lines.filterMap fun (line, number) =>
    match RuleLine.read line with
    | .ok _ => none
    | .error error => some ⟨⟨path, number⟩, error⟩

def rules (path : Path) (lines : List (Text × Nat)) : List LocatedRule :=
  lines.filterMap fun (line, number) =>
    match RuleLine.read line with
    | .ok production => some ⟨production, ⟨path, number⟩⟩
    | .error _ => none

/-- The nonterminals of a rule that head none of the given rules, as often as
they occur. -/
def undefinedIn (rules : List LocatedRule) (rule : LocatedRule) : List (Located LoadError) :=
  rule.production.body.filterMap fun symbol =>
    match symbol with
    | .nonterminal character =>
      if rules.any fun other => other.production.head == symbol then
        none
      else
        some ⟨rule.location, .undefinedNonterminal character⟩
    | _ => none

/-- The warnings about rules, in the order of the rules. -/
def warningsFor (rules : List LocatedRule) : List (Located LoadError) :=
  rules.flatMap (undefinedIn rules)

/-- The document on the given lines, or everything that is wrong with it. -/
def ofLines (path : Path) (lines : List Text) :
    Except (List (Located LoadError)) Document :=
  let ruleLines := ruleLines lines
  match lineErrors path ruleLines with
  | [] =>
    let rules := rules path ruleLines
    match Grammar.ofProductions (rules.map (·.production)) with
    | .ok grammar => .ok {
        grammar := grammar
        tests := (testLines lines).map fun (line, number) => ⟨line, ⟨path, number⟩⟩
        warnings := warningsFor rules }
    | .error error => .error [⟨.wholeFile path, .grammar error⟩]
  | errors => .error errors

/-- The document in a file with the given bytes, which have to be UTF-8. -/
def ofBytes (path : Path) (bytes : ByteArray) : Except (List (Located LoadError)) Document :=
  match String.fromUTF8? bytes with
  | some content => ofLines path (Text.lines content.toList)
  | none => .error [⟨.wholeFile path, .file .invalidData⟩]

end Document

end PrecedenceGrammar
