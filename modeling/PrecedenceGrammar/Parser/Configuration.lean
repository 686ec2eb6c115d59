import PrecedenceGrammar.Table.Basic

/-!
# Parser configurations

The parser keeps a stack above the start marker and the input that is still
unread.  Each symbol on the stack is pushed together with the relation that the
symbol below it had to it.
-/

namespace PrecedenceGrammar

/-- A symbol on the stack and the relation of the symbol below it to it. -/
structure StackEntry where
  marker : Relation
  symbol : Symbol
  deriving DecidableEq

/-- The entries above the start marker, the topmost first. -/
abbrev Stack := List StackEntry

namespace Stack

/-- The topmost symbol, which is the start marker when nothing is above it. -/
def top : Stack → Symbol
  | [] => .startMarker
  | entry :: _ => entry.symbol

/-- The symbols above the start marker, the topmost last. -/
def symbols (stack : Stack) : List Symbol :=
  (stack.map (·.symbol)).reverse

/-- The symbols above the topmost strictly less marker, followed by symbols
that were found above the stack. -/
def basisBelow? (above : List Symbol) : Stack → Option (List Symbol)
  | [] => none
  | entry :: below =>
    if entry.marker.isStrictlyLess then
      some (entry.symbol :: above)
    else
      basisBelow? (entry.symbol :: above) below

/-- The symbols above the topmost strictly less marker, the topmost last. -/
def basis? (stack : Stack) : Option (List Symbol) :=
  basisBelow? [] stack

/-- The start marker and the symbols above it. -/
def text (stack : Stack) : Text :=
  '^' :: Symbol.textOf stack.symbols

end Stack

/-- A stack and the unread input, which the end marker ends. -/
structure Configuration where
  stack : Stack
  input : List Symbol
  deriving DecidableEq

namespace Configuration

/-- Nothing but the start marker on the stack and everything unread. -/
def initial (symbols : List Symbol) : Configuration :=
  ⟨[], symbols ++ [.endMarker]⟩

/-- Only the start symbol is left and only the end marker is unread. -/
def isComplete (configuration : Configuration) (start : Symbol) : Bool :=
  match configuration.stack, configuration.input with
  | [entry], [.endMarker] => entry.symbol == start
  | _, _ => false

/-- The stack, a blank and the unread input. -/
def text (configuration : Configuration) : Text :=
  configuration.stack.text ++ ' ' :: Symbol.textOf configuration.input

end Configuration

end PrecedenceGrammar
