import PrecedenceGrammar.Symbol

/-!
# Productions

A production rewrites its head to its body.  One is well formed when a
nonterminal heads it and its body is a nonempty list of terminals and
nonterminals; its first defect says how it fails to be.
-/

namespace PrecedenceGrammar

structure Production where
  head : Symbol
  body : List Symbol
  deriving DecidableEq

/-- The reasons for which productions do not make a grammar, or a symbol cannot
be its start. -/
inductive GrammarError where
  | noProductions
  | invalidHead (head : Symbol)
  | emptyBody (head : Symbol)
  | invalidBodySymbol (symbol : Symbol)
  | undefinedStart (start : Symbol)
  deriving DecidableEq

def GrammarError.message : GrammarError → String
  | .noProductions => "The grammar has no rules"
  | .invalidHead head => s!"`{head}` cannot head a rule"
  | .emptyBody head => s!"Rule for `{head}` has an empty body"
  | .invalidBodySymbol symbol => s!"`{symbol}` cannot appear in a rule body"
  | .undefinedStart start => s!"Cannot use `{start}` as the axiom, it has no rules"

namespace Production

structure WellFormed (production : Production) : Prop where
  head_isNonterminal : production.head.isNonterminal = true
  body_ne_nil : production.body ≠ []
  body_isGrammarSymbol : ∀ symbol ∈ production.body, symbol.isGrammarSymbol = true

/-- The first defect of a production: its head, then an empty body, then the
first symbol that no body can hold. -/
def defect? (production : Production) : Option GrammarError :=
  if !production.head.isNonterminal then
    some (.invalidHead production.head)
  else if production.body.isEmpty then
    some (.emptyBody production.head)
  else
    (production.body.find? (!·.isGrammarSymbol)).map .invalidBodySymbol

theorem defect?_eq_none_iff (production : Production) :
    production.defect? = none ↔ production.WellFormed := by
  unfold defect?
  constructor
  · intro free
    split at free
    · cases free
    · split at free
      · cases free
      · refine ⟨by simp_all, by simp_all, ?_⟩
        intro symbol member
        have absent := List.find?_eq_none.mp (Option.map_eq_none_iff.mp free) symbol member
        simpa using absent
  · intro wellFormed
    simp only [wellFormed.head_isNonterminal, Bool.not_true, Bool.false_eq_true, if_false,
      List.isEmpty_iff, wellFormed.body_ne_nil, Option.map_eq_none_iff, List.find?_eq_none]
    intro symbol member
    simp [wellFormed.body_isGrammarSymbol symbol member]

end Production

end PrecedenceGrammar
