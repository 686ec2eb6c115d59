import PrecedenceGrammar.Table.Basic

/-!
# Classification

A grammar is a simple precedence grammar when no cell of its table holds two
relations.  It is a weak one when greater never meets less or equal and no body
can be mistaken for the end of a longer one.  Any other cannot be parsed with
its table, and the diagnosis says why.
-/

namespace PrecedenceGrammar

inductive GrammarType where
  | simple
  | weak
  | unsuitable
  deriving DecidableEq

namespace GrammarType

def code : GrammarType → Char
  | .simple => 'S'
  | .weak => 'W'
  | .unsuitable => 'N'

def description : GrammarType → String
  | .simple => "simple precedence"
  | .weak => "weak precedence"
  | .unsuitable => "not a precedence grammar"

instance : ToString GrammarType := ⟨description⟩

/-- Whether texts can be parsed with the table of such a grammar. -/
def allowsParsing (type : GrammarType) : Bool :=
  type != .unsuitable

end GrammarType

/-- A type of grammar, with the reason where it is unsuitable. -/
inductive Diagnosis where
  | simple
  | weak
  | overlap
  | ambiguousSuffix (before head : Symbol)
  deriving DecidableEq

def Diagnosis.type : Diagnosis → GrammarType
  | .simple => .simple
  | .weak => .weak
  | .overlap => .unsuitable
  | .ambiguousSuffix _ _ => .unsuitable

/-- The symbol just before a body at the end of a longer one. -/
def precedingSymbol? (body longer : List Symbol) : Option Symbol :=
  if body.isSuffixOf longer then
    (longer.take (longer.length - body.length)).getLast?
  else
    none

/-- The symbol before the body of a production at the end of a longer body, when
the table lets the head of the production follow it. -/
def Table.ambiguityIn? (table : Table) (production : Production) (longer : List Symbol) :
    Option (Symbol × Symbol) :=
  (precedingSymbol? production.body longer).bind fun before =>
    if (table.relation before production.head).shifts then
      some (before, production.head)
    else
      none

/-- A symbol and a head whose body ends a longer body after that symbol, where
the head may follow the symbol as well: the parser could not tell which of the
two bodies to reduce. -/
def Grammar.ambiguousSuffix? (grammar : Grammar) (table : Table) : Option (Symbol × Symbol) :=
  grammar.productions.findSome? fun production =>
    grammar.productions.findSome? fun other => table.ambiguityIn? production other.body

/-- Greater holds together with less or equal. -/
def Relation.overlaps (relation : Relation) : Bool :=
  relation.shifts && relation.greater

def Grammar.diagnose (grammar : Grammar) (table : Table) : Diagnosis :=
  if table.relations.all (·.width ≤ 1) then
    .simple
  else if table.relations.any (·.overlaps) then
    .overlap
  else
    match grammar.ambiguousSuffix? table with
    | some (before, head) => .ambiguousSuffix before head
    | none => .weak

/-- The type of a grammar that is parsed with the given table. -/
def Grammar.typeWith (grammar : Grammar) (table : Table) : GrammarType :=
  (grammar.diagnose table).type

/-- What is known of a grammar before a text is parsed. -/
structure Analysis where
  sets : EndSets
  table : Table
  diagnosis : Diagnosis

def Analysis.type (analysis : Analysis) : GrammarType :=
  analysis.diagnosis.type

def Grammar.analysis (grammar : Grammar) : Analysis :=
  let sets := EndSets.ofGrammar grammar
  let table := Table.ofEndSets grammar sets
  ⟨sets, table, grammar.diagnose table⟩

end PrecedenceGrammar
