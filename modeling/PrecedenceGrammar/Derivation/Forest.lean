import PrecedenceGrammar.Grammar.Basic

/-!
# Derivation forests

A forest is a sequence of derivation trees, whose roots are the symbols of a
sentential form and whose leaves read as the text derived from it.  A node
comes before the trees to its right, so a single tree is a node with nothing
after it.
-/

namespace PrecedenceGrammar

inductive Forest where
  | empty
  | leaf (character : Char) (later : Forest)
  | node (head : Symbol) (children later : Forest)
  deriving DecidableEq

namespace Forest

def roots : Forest → List Symbol
  | .empty => []
  | .leaf character later => .terminal character :: later.roots
  | .node head _ later => head :: later.roots

def yield : Forest → Text
  | .empty => []
  | .leaf character later => character :: later.yield
  | .node _ children later => children.yield ++ later.yield

/-- Every node rewrites its head by a production of the grammar. -/
def Follows (grammar : Grammar) : Forest → Prop
  | .empty => True
  | .leaf _ later => later.Follows grammar
  | .node head children later =>
    ⟨head, children.roots⟩ ∈ grammar.productions ∧
      children.Follows grammar ∧ later.Follows grammar

end Forest

end PrecedenceGrammar
