import PrecedenceGrammar.Grammar.Production

/-!
# Grammars

A grammar is a list of well formed productions, in the order of their
declaration, with a start symbol that heads one of them.  Everything else, such
as the bodies of a symbol or the symbols in use, is read off the productions.
-/

namespace PrecedenceGrammar

structure Grammar where
  productions : List Production
  start : Symbol
  wellFormed : ∀ production ∈ productions, production.WellFormed
  start_isHead : ∃ production ∈ productions, production.head = start
  deriving DecidableEq

namespace Grammar

/-- The grammar of the given productions, which starts with the head of the
first one. -/
def ofProductions : List Production → Except GrammarError Grammar
  | [] => .error .noProductions
  | first :: later =>
    match found : (first :: later).findSome? Production.defect? with
    | some defect => .error defect
    | none => .ok {
        productions := first :: later
        start := first.head
        wellFormed := fun production member =>
          (Production.defect?_eq_none_iff production).mp
            (List.findSome?_eq_none_iff.mp found production member)
        start_isHead := ⟨first, List.mem_cons_self, rfl⟩ }

def isDefined (grammar : Grammar) (symbol : Symbol) : Bool :=
  grammar.productions.any fun production => production.head == symbol

theorem isDefined_iff (grammar : Grammar) (symbol : Symbol) :
    grammar.isDefined symbol = true ↔
      ∃ production ∈ grammar.productions, production.head = symbol := by
  simp [isDefined]

/-- The same productions with another start symbol, which has to be defined. -/
def withStart (grammar : Grammar) (start : Symbol) : Except GrammarError Grammar :=
  if isHead : grammar.isDefined start = true then
    .ok { grammar with
      start := start
      start_isHead := (grammar.isDefined_iff start).mp isHead }
  else
    .error (.undefinedStart start)

def bodies (grammar : Grammar) (symbol : Symbol) : List (List Symbol) :=
  (grammar.productions.filter fun production => production.head == symbol).map (·.body)

/-- The symbols that head a production, each once, in order of definition. -/
def heads (grammar : Grammar) : List Symbol :=
  (grammar.productions.map (·.head)).eraseDups

/-- The symbols of all heads and bodies, each once, in order of appearance. -/
def symbols (grammar : Grammar) : List Symbol :=
  (grammar.productions.flatMap fun production => production.head :: production.body).eraseDups

def symbolsByKind (grammar : Grammar) : List Symbol :=
  grammar.symbols.filter (·.isNonterminal) ++ grammar.symbols.filter (!·.isNonterminal)

/-- The head of the earliest production with exactly this body. -/
def headOf? (grammar : Grammar) (body : List Symbol) : Option Symbol :=
  (grammar.productions.find? fun production => production.body == body).map (·.head)

/-- The pairs of symbols next to each other in a body, each once. -/
def adjacentPairs (grammar : Grammar) : List (Symbol × Symbol) :=
  (grammar.productions.flatMap fun production =>
    production.body.zip production.body.tail).eraseDups

theorem body_ne_nil {grammar : Grammar} {production : Production}
    (member : production ∈ grammar.productions) : production.body ≠ [] :=
  (grammar.wellFormed production member).body_ne_nil

theorem mem_bodies_iff (grammar : Grammar) (symbol : Symbol) (body : List Symbol) :
    body ∈ grammar.bodies symbol ↔ ⟨symbol, body⟩ ∈ grammar.productions := by
  simp only [bodies, List.mem_map, List.mem_filter, beq_iff_eq]
  constructor
  · intro found
    obtain ⟨production, ⟨member, rfl⟩, rfl⟩ := found
    exact member
  · intro member
    exact ⟨⟨symbol, body⟩, ⟨member, rfl⟩, rfl⟩

theorem mem_heads_iff (grammar : Grammar) (symbol : Symbol) :
    symbol ∈ grammar.heads ↔ ∃ production ∈ grammar.productions, production.head = symbol := by
  simp [heads]

theorem mem_symbols_iff (grammar : Grammar) (symbol : Symbol) :
    symbol ∈ grammar.symbols ↔
      ∃ production ∈ grammar.productions,
        symbol = production.head ∨ symbol ∈ production.body := by
  simp [symbols]

theorem mem_productions_of_headOf? {grammar : Grammar} {body : List Symbol} {head : Symbol}
    (found : grammar.headOf? body = some head) : ⟨head, body⟩ ∈ grammar.productions := by
  obtain ⟨production, earliest, rfl⟩ := Option.map_eq_some_iff.mp found
  have same : production.body = body := by simpa using List.find?_some earliest
  exact same ▸ List.mem_of_find?_eq_some earliest

theorem mem_heads_of_headOf? {grammar : Grammar} {body : List Symbol} {head : Symbol}
    (found : grammar.headOf? body = some head) : head ∈ grammar.heads :=
  (grammar.mem_heads_iff head).mpr ⟨_, mem_productions_of_headOf? found, rfl⟩

end Grammar

end PrecedenceGrammar
