import PrecedenceGrammar.Derivation.Forest
import PrecedenceGrammar.Random.ChoiceSource

/-!
# Generated sentences

A sentence is generated from the start symbol by choosing a body for every
nonterminal, from left to right.  Deep nonterminals take a body of terminals
where they have one, and a nonterminal beyond the deepest level is given up.
-/

namespace PrecedenceGrammar

inductive GenerationError where
  | undefinedNonterminal (symbol : Symbol)
  | depthExceeded (symbol : Symbol)
  | noChoice
  deriving DecidableEq

/-- Down to this depth every body may be chosen. -/
def settlingDepth : Nat := 32

/-- The deepest level of a nonterminal. -/
def greatestDepth : Nat := 256

def GenerationError.message : GenerationError → String
  | .undefinedNonterminal symbol => s!"No definition for nonterminal `{symbol}`"
  | .depthExceeded symbol => s!"Gave up expanding `{symbol}` after {greatestDepth} levels"
  | .noChoice => "The random words never settle on a choice"

namespace Grammar

/-- The bodies to choose from at a depth: beyond the settling depth those of
terminals only, if there are any. -/
def candidates (grammar : Grammar) (depth : Nat) (symbol : Symbol) : List (List Symbol) :=
  let bodies := grammar.bodies symbol
  let settled := bodies.filter fun body => body.all (·.isTerminal)
  if settlingDepth < depth && !settled.isEmpty then settled else bodies

theorem mem_productions_of_mem_candidates {grammar : Grammar} {depth : Nat} {symbol : Symbol}
    {body : List Symbol} (candidate : body ∈ grammar.candidates depth symbol) :
    ⟨symbol, body⟩ ∈ grammar.productions := by
  rw [← mem_bodies_iff]
  simp only [candidates] at candidate
  split at candidate
  · exact (List.mem_filter.mp candidate).1
  · exact candidate

theorem candidates_eq_nil_iff (grammar : Grammar) (depth : Nat) (symbol : Symbol) :
    grammar.candidates depth symbol = [] ↔ grammar.bodies symbol = [] := by
  simp only [candidates]
  split
  · next restricted =>
    simp only [Bool.and_eq_true, Bool.not_eq_true', List.isEmpty_eq_false_iff] at restricted
    constructor
    · intro empty
      exact absurd empty restricted.2
    · intro empty
      rw [empty, List.filter_nil]
  · rfl

/-- The forest under the symbols of a body, given how a nonterminal is
expanded. -/
def expandBody {σ : Type} (expand : Symbol → σ → Except GenerationError (Forest × σ)) :
    List Symbol → σ → Except GenerationError (Forest × σ)
  | [], source => .ok (.empty, source)
  | .terminal character :: later, source => do
    let (forest, source) ← expandBody expand later source
    return (.leaf character forest, source)
  | .nonterminal character :: later, source => do
    let (children, source) ← expand (.nonterminal character) source
    let (forest, source) ← expandBody expand later source
    return (.node (.nonterminal character) children forest, source)
  | _ :: later, source => expandBody expand later source

/-- The forest under a nonterminal that has the given number of levels left,
its own included. -/
def expand {σ : Type} [ChoiceSource σ] (grammar : Grammar) :
    Nat → Symbol → σ → Except GenerationError (Forest × σ)
  | 0, symbol, _ => .error (.depthExceeded symbol)
  | levels + 1, symbol, source =>
    let candidates := grammar.candidates (greatestDepth - levels) symbol
    if candidates.isEmpty then
      .error (.undefinedNonterminal symbol)
    else
      match ChoiceSource.choose candidates.length source with
      | none => .error .noChoice
      | some (index, source) =>
        expandBody (expand grammar levels) (candidates.get index) source

def randomTree {σ : Type} [ChoiceSource σ] (grammar : Grammar) (source : σ) :
    Except GenerationError (Forest × σ) := do
  let (children, source) ← grammar.expand (greatestDepth + 1) grammar.start source
  return (.node grammar.start children .empty, source)

/-- The trees of several sentences, generated one after another from one
source. -/
def randomTrees {σ : Type} [ChoiceSource σ] (grammar : Grammar) :
    Nat → σ → Except GenerationError (List Forest)
  | 0, _ => .ok []
  | amount + 1, source => do
    let (tree, source) ← grammar.randomTree source
    let later ← grammar.randomTrees amount source
    return tree :: later

end Grammar

end PrecedenceGrammar
