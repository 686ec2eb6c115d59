import PrecedenceGrammar.Relation
import PrecedenceGrammar.Text.Uppercase

/-!
# Symbols

Terminals and nonterminals are what a grammar is written with.  The start and
end markers surround the text that is parsed, and a relation counts as a symbol
too, although no grammar and no table can hold one.
-/

namespace PrecedenceGrammar

inductive Symbol where
  | terminal (character : Char)
  | nonterminal (character : Char)
  | startMarker
  | endMarker
  | relation (marker : Relation)
  deriving DecidableEq

namespace Symbol

/-- The symbol that a character of a rule stands for: a nonterminal for an
uppercase character and a terminal for any other.  White space and the
characters of the two markers stand for none. -/
def ofChar? (character : Char) : Option Symbol :=
  if isWhiteSpace character || character == '^' || character == '$' then
    none
  else if isUppercase character then
    some (.nonterminal character)
  else
    some (.terminal character)

def isTerminal : Symbol → Bool
  | .terminal _ => true
  | _ => false

def isNonterminal : Symbol → Bool
  | .nonterminal _ => true
  | _ => false

def isGrammarSymbol (symbol : Symbol) : Bool :=
  symbol.isTerminal || symbol.isNonterminal

def relation? : Symbol → Option Relation
  | .relation marker => some marker
  | _ => none

def text : Symbol → Text
  | .terminal character => [character]
  | .nonterminal character => [character]
  | .startMarker => ['^']
  | .endMarker => ['$']
  | .relation marker => marker.text

instance : ToString Symbol where
  toString symbol := String.ofList symbol.text

def textOf (symbols : List Symbol) : Text :=
  symbols.flatMap text

def terminals (text : Text) : List Symbol :=
  text.map terminal

/-- The place of a symbol in the order of symbols: terminals by code point,
nonterminals by code point, the start marker, the end marker, and relations
with less as the most and greater as the least significant digit. -/
def rank : Symbol → Nat
  | .terminal character => character.toNat
  | .nonterminal character => 0x110000 + character.toNat
  | .startMarker => 0x220000
  | .endMarker => 0x220001
  | .relation marker =>
    0x220002 + 4 * marker.less.toNat + 2 * marker.equal.toNat + marker.greater.toNat

/-- Symbols in the order of symbols, repetitions kept. -/
def sorted (symbols : List Symbol) : List Symbol :=
  symbols.mergeSort fun left right => left.rank ≤ right.rank

theorem isGrammarSymbol_of_isNonterminal {symbol : Symbol}
    (nonterminal : symbol.isNonterminal = true) : symbol.isGrammarSymbol = true := by
  simp [isGrammarSymbol, nonterminal]

theorem isTerminal_of_isNonterminal {symbol : Symbol}
    (nonterminal : symbol.isNonterminal = true) : symbol.isTerminal = false := by
  cases symbol with
  | nonterminal character => rfl
  | _ => cases nonterminal

theorem text_of_ofChar? {character : Char} {symbol : Symbol}
    (read : ofChar? character = some symbol) : symbol.text = [character] := by
  unfold ofChar? at read
  split at read
  · exact absurd read (by simp)
  · split at read <;> cases read <;> rfl

end Symbol

end PrecedenceGrammar
