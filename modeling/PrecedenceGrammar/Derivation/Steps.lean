import Mathlib.Logic.Relation
import PrecedenceGrammar.Derivation.Forest

/-!
# Derivations

A step rewrites one occurrence of the head of a production to its body, and a
rightmost step the last nonterminal.  What the leaves of a forest read is
derived from its roots.
-/

namespace PrecedenceGrammar

namespace Grammar

/-- One step of a derivation, between any two contexts. -/
inductive Rewrites (grammar : Grammar) : List Symbol → List Symbol → Prop where
  | production (before after : List Symbol) (production : Production)
      (member : production ∈ grammar.productions) :
      Rewrites grammar (before ++ production.head :: after)
        (before ++ production.body ++ after)

/-- A single symbol is only ever rewritten to a whole body. -/
theorem Rewrites.mem_productions {grammar : Grammar} {symbol : Symbol} {target : List Symbol}
    (rewrite : grammar.Rewrites [symbol] target) : ⟨symbol, target⟩ ∈ grammar.productions := by
  generalize origin_eq : [symbol] = origin at rewrite
  obtain ⟨before, after, production, member⟩ := rewrite
  obtain ⟨rfl, rest⟩ | ⟨later, _, rest⟩ := List.append_eq_cons_iff.mp origin_eq.symm
  · obtain ⟨rfl, rfl⟩ := List.cons.inj rest
    simpa using member
  · simp at rest

/-- One step of a rightmost derivation: only terminals come after the head. -/
inductive RewritesRightmost (grammar : Grammar) : List Symbol → List Symbol → Prop where
  | production (before after : List Symbol) (production : Production)
      (member : production ∈ grammar.productions)
      (settled : ∀ symbol ∈ after, symbol.isTerminal = true) :
      RewritesRightmost grammar (before ++ production.head :: after)
        (before ++ production.body ++ after)

/-- Any number of steps, none included. -/
def Derives (grammar : Grammar) : List Symbol → List Symbol → Prop :=
  Relation.ReflTransGen grammar.Rewrites

theorem Rewrites.inContext {grammar : Grammar} {origin target : List Symbol}
    (rewrite : grammar.Rewrites origin target) (before after : List Symbol) :
    grammar.Rewrites (before ++ origin ++ after) (before ++ target ++ after) := by
  obtain ⟨left, right, production, member⟩ := rewrite
  have widened := Rewrites.production (before ++ left) (right ++ after) production member
  simpa [List.append_assoc] using widened

theorem Derives.inContext {grammar : Grammar} (before after : List Symbol)
    {origin target : List Symbol} (derivation : grammar.Derives origin target) :
    grammar.Derives (before ++ origin ++ after) (before ++ target ++ after) := by
  induction derivation with
  | refl => exact .refl
  | tail _ rewrite induction => exact induction.tail (rewrite.inContext before after)

end Grammar

/-- The leaves of a forest that follows the grammar are derived from its
roots. -/
theorem Forest.Follows.derives {grammar : Grammar} {forest : Forest}
    (follows : forest.Follows grammar) :
    grammar.Derives forest.roots (Symbol.terminals forest.yield) := by
  induction forest with
  | empty => exact .refl
  | leaf character later induction =>
    have rest := (induction follows).inContext [.terminal character] []
    simpa [Forest.roots, Forest.yield, Symbol.terminals] using rest
  | node head children later childrenInduction laterInduction =>
    obtain ⟨member, childrenFollow, laterFollow⟩ := follows
    have expanded : grammar.Rewrites (head :: later.roots) (children.roots ++ later.roots) :=
      Grammar.Rewrites.production [] later.roots ⟨head, children.roots⟩ member
    have front := (childrenInduction childrenFollow).inContext [] later.roots
    have back := (laterInduction laterFollow).inContext (Symbol.terminals children.yield) []
    simp only [List.nil_append, List.append_nil] at front back
    have whole := Relation.ReflTransGen.head expanded (front.trans back)
    simpa [Forest.roots, Forest.yield, Symbol.terminals, Grammar.Derives] using whole

end PrecedenceGrammar
