import PrecedenceGrammar.Source.LoadError

/-!
# Rule lines

A rule line is written as its head, one space, and the symbols of its body
without anything between them.
-/

namespace PrecedenceGrammar.RuleLine

/-- The text before the first space and the text after it. -/
def splitAtSpace? : Text → Option (Text × Text)
  | [] => none
  | character :: later =>
    if character = ' ' then
      some ([], later)
    else
      (splitAtSpace? later).map fun (before, after) => (character :: before, after)

theorem splitAtSpace?_eq_some_iff (line before after : Text) :
    splitAtSpace? line = some (before, after) ↔
      line = before ++ ' ' :: after ∧ ' ' ∉ before := by
  induction line generalizing before with
  | nil => simp [splitAtSpace?]
  | cons character later induction =>
    by_cases space : character = ' '
    · subst space
      cases before with
      | nil => simp [splitAtSpace?, eq_comm]
      | cons first before =>
        simp only [splitAtSpace?, if_pos, Option.some.injEq, Prod.mk.injEq, List.cons_append,
          List.cons.injEq, List.mem_cons, not_or]
        constructor
        · intro splits
          obtain ⟨empty, -⟩ := splits
          cases empty
        · intro splits
          obtain ⟨⟨same, -⟩, different, -⟩ := splits
          exact absurd same different
    · cases before with
      | nil => simp [splitAtSpace?, space]
      | cons first before =>
        simp only [splitAtSpace?, if_neg space, List.cons_append, List.cons.injEq,
          List.mem_cons, not_or]
        constructor
        · intro found
          obtain ⟨⟨front, back⟩, inner, same⟩ := Option.map_eq_some_iff.mp found
          cases same
          have split := (induction front).mp inner
          exact ⟨⟨rfl, split.1⟩, Ne.symm space, split.2⟩
        · intro splits
          obtain ⟨⟨rfl, split⟩, -, free⟩ := splits
          rw [(induction before).mpr ⟨split, free⟩]
          rfl

theorem splitAtSpace?_eq_none_iff (line : Text) :
    splitAtSpace? line = none ↔ ' ' ∉ line := by
  induction line with
  | nil => simp [splitAtSpace?]
  | cons character later induction =>
    by_cases space : character = ' '
    · simp [splitAtSpace?, space]
    · simp [splitAtSpace?, space, induction, Ne.symm space]

/-- The head of a rule, a single uppercase character. -/
def readHead (text : Text) : Except LoadError Symbol :=
  match text.map Symbol.ofChar? with
  | [some (.nonterminal character)] => .ok (.nonterminal character)
  | _ => .error (.invalidHead text)

def readSymbol (character : Char) : Except LoadError Symbol :=
  match Symbol.ofChar? character with
  | some symbol => .ok symbol
  | none =>
    if character == '^' || character == '$' then
      .error (.reservedSymbol character)
    else
      .error .unexpectedWhiteSpace

/-- The symbols of a body, one for each character. -/
def readBody : Text → Except LoadError (List Symbol)
  | [] => .error .missingBody
  | text => text.mapM readSymbol

/-- The production of a rule line, or its first defect. -/
def read (line : Text) : Except LoadError Production := do
  let (head, body) ← (splitAtSpace? line).elim (.error .missingBody) .ok
  return ⟨← readHead head, ← readBody body⟩

def print (production : Production) : Text :=
  production.head.text ++ ' ' :: Symbol.textOf production.body

end PrecedenceGrammar.RuleLine
