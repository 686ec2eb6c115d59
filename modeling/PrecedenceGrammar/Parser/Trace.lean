import PrecedenceGrammar.Parser.Run

/-!
# Traces

A trace shows a run line by line, one line for each configuration, and says
whether the text was accepted.  A run that met a basis without a rule has no
trace, nor has one without an end.
-/

namespace PrecedenceGrammar

inductive Outcome where
  | accepted
  | rejected
  deriving DecidableEq

structure Trace where
  lines : List Text
  outcome : Outcome
  deriving DecidableEq

inductive ParseError where
  | noSuchRule (basis : List Symbol)
  | endless
  deriving DecidableEq

def ParseError.message : ParseError → String
  | .noSuchRule basis =>
    let text := String.ofList (Symbol.textOf basis)
    s!"No rule derives `{text}`"
  | .endless => "The reductions never come to an end"

/-- The last line of a text that is rejected. -/
def rejectionLine : Text := ['e', 'r', 'r', 'o', 'r']

namespace Run

/-- The line that shows an accepted text: the start symbol between the markers. -/
def acceptedLine (run : Run) : Text :=
  run.final.stack.text ++ ['$']

def lines (run : Run) : List Text :=
  run.configurations.map (·.text)

def trace (run : Run) : Except ParseError Trace :=
  match run.ending with
  | .accepted => .ok ⟨run.lines ++ [run.acceptedLine], .accepted⟩
  | .unrelated _ _ => .ok ⟨run.lines ++ [rejectionLine], .rejected⟩
  | .noBasisStart => .ok ⟨run.lines ++ [rejectionLine], .rejected⟩
  | .unrelatedHead _ _ => .ok ⟨run.lines ++ [rejectionLine], .rejected⟩
  | .inputExhausted => .ok ⟨run.lines, .rejected⟩
  | .noSuchRule basis => .error (.noSuchRule basis)
  | .endless => .error .endless

end Run

def Grammar.parse (grammar : Grammar) (table : Table) (symbols : List Symbol) :
    Except ParseError Trace :=
  (grammar.run table symbols).trace

end PrecedenceGrammar
