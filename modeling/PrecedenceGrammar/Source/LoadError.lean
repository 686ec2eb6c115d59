import PrecedenceGrammar.Grammar.Basic
import PrecedenceGrammar.Source.Location

/-!
# Load errors

Everything that may be wrong with a grammar file: the file itself, the form of
a rule line, the grammar that the rules make, or a nonterminal without rules,
which is only worth a warning.
-/

namespace PrecedenceGrammar

inductive FileError where
  | notFound
  | isADirectory
  | notADirectory
  | invalidData
  | other (description : String)
  deriving DecidableEq

def FileError.message : FileError → String
  | .notFound => "No such file or directory (os error 2)"
  | .isADirectory => "Is a directory (os error 21)"
  | .notADirectory => "Not a directory (os error 20)"
  | .invalidData => "stream did not contain valid UTF-8"
  | .other description => description

inductive LoadError where
  | missingBody
  | invalidHead (head : Text)
  | reservedSymbol (character : Char)
  | unexpectedWhiteSpace
  | undefinedNonterminal (character : Char)
  | grammar (error : GrammarError)
  | file (error : FileError)
  deriving DecidableEq

namespace LoadError

def message : LoadError → String
  | .missingBody => "Expected a space and a rule body after the head"
  | .invalidHead head =>
    let head := String.ofList head
    s!"`{head}` is not a nonterminal"
  | .reservedSymbol character => s!"`{character}` is reserved for the input markers"
  | .unexpectedWhiteSpace => "Unexpected whitespace in a rule body"
  | .undefinedNonterminal character => s!"Could not find definition for `{character}`"
  | .grammar error => error.message
  | .file error =>
    let description := error.message
    s!"File error: {description}"

end LoadError

end PrecedenceGrammar
