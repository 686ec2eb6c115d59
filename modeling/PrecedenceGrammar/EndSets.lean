import PrecedenceGrammar.Grammar.Basic

/-!
# FIRST and LAST

A nonterminal's FIRST set holds the symbols that begin what it derives in one
or more steps, and its LAST set those that end it.  Both come from one
saturation: start with the symbols at that side of its own bodies and, round
after round, add those of every member, until a round adds nothing.
-/

namespace PrecedenceGrammar

/-- A side of a body: FIRST looks at the leading, LAST at the trailing symbol. -/
inductive Side where
  | leading
  | trailing
  deriving DecidableEq

def Side.symbolOf? : Side → List Symbol → Option Symbol
  | .leading, body => body.head?
  | .trailing, body => body.getLast?

/-- A saturated set and the number of rounds that it took, the last of which
added nothing. -/
structure Saturation where
  members : List Symbol
  rounds : Nat
  deriving DecidableEq

namespace Grammar

/-- The symbols at one side of the bodies of a symbol. -/
def ends (grammar : Grammar) (side : Side) (symbol : Symbol) : List Symbol :=
  (grammar.bodies symbol).filterMap side.symbolOf?

/-- What one round adds: the ends of the members that are not members yet. -/
def newEnds (grammar : Grammar) (side : Side) (members : List Symbol) : List Symbol :=
  ((members.flatMap (grammar.ends side)).removeAll members).eraseDups

theorem mem_ends_iff (grammar : Grammar) (side : Side) (symbol found : Symbol) :
    found ∈ grammar.ends side symbol ↔
      ∃ body, ⟨symbol, body⟩ ∈ grammar.productions ∧ side.symbolOf? body = some found := by
  simp [ends, mem_bodies_iff]

theorem mem_newEnds_iff (grammar : Grammar) (side : Side) (members : List Symbol)
    (found : Symbol) :
    found ∈ grammar.newEnds side members ↔
      (∃ member ∈ members, found ∈ grammar.ends side member) ∧ found ∉ members := by
  simp [newEnds, List.removeAll]

/-- Rounds of saturation from the given members, at most as many as allowed. -/
def saturationFrom (grammar : Grammar) (side : Side) : Nat → List Symbol → Saturation
  | 0, members => ⟨members, 0⟩
  | allowed + 1, members =>
    match grammar.newEnds side members with
    | [] => ⟨members, 1⟩
    | added =>
      let later := saturationFrom grammar side allowed (members ++ added)
      ⟨later.members, later.rounds + 1⟩

/-- The saturated ends of a symbol.  Each round but the last adds a symbol of
the grammar, which bounds their number. -/
def saturation (grammar : Grammar) (side : Side) (symbol : Symbol) : Saturation :=
  grammar.saturationFrom side grammar.symbols.length (grammar.ends side symbol).eraseDups

end Grammar

structure EndSets.Entry where
  head : Symbol
  first : Saturation
  last : Saturation
  deriving DecidableEq

/-- The FIRST and LAST sets of every defined nonterminal of a grammar. -/
structure EndSets where
  entries : List EndSets.Entry
  deriving DecidableEq

namespace EndSets

def ofGrammar (grammar : Grammar) : EndSets where
  entries := grammar.heads.map fun head =>
    ⟨head, grammar.saturation .leading head, grammar.saturation .trailing head⟩

def Entry.saturation (entry : Entry) : Side → Saturation
  | .leading => entry.first
  | .trailing => entry.last

/-- The symbols at one side of what a symbol derives in one or more steps,
none for a symbol that is not defined. -/
def derived (sets : EndSets) (side : Side) (symbol : Symbol) : List Symbol :=
  match sets.entries.find? (·.head == symbol) with
  | some entry => (entry.saturation side).members
  | none => []

/-- FIRST or LAST of a symbol: the derived set of a nonterminal, and the symbol
alone for any other, which nothing rewrites. -/
def ofSymbol (sets : EndSets) (side : Side) (symbol : Symbol) : List Symbol :=
  if symbol.isNonterminal then sets.derived side symbol else [symbol]

end EndSets

end PrecedenceGrammar
