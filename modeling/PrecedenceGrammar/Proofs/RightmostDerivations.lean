import Mathlib.Data.List.Chain
import Mathlib.Logic.Relation
import PrecedenceGrammar.Derivation.Steps

/-!
# Rightmost derivations

A rightmost derivation always rewrites the last nonterminal.  Every derivation
of a text of terminals has a forest, and the forest can be read from right to
left, so nothing is lost by the restriction.
-/

namespace PrecedenceGrammar

namespace Symbol

/-- Only terminals, which nothing rewrites. -/
def Settled (symbols : List Symbol) : Prop :=
  ∀ symbol ∈ symbols, symbol.isTerminal = true

instance (symbols : List Symbol) : Decidable (Settled symbols) :=
  inferInstanceAs (Decidable (∀ symbol ∈ symbols, symbol.isTerminal = true))

theorem settled_nil : Settled [] := by
  intro symbol member
  cases member

theorem settled_append_iff
    {left right : List Symbol} :
    Settled (left ++ right) ↔ Settled left ∧ Settled right :=
  List.forall_mem_append

theorem settled_cons_iff
    {symbol : Symbol} {later : List Symbol} :
    Settled (symbol :: later) ↔ symbol.isTerminal = true ∧ Settled later :=
  List.forall_mem_cons

theorem settled_terminals (text : Text) : Settled (terminals text) := by
  intro symbol member
  obtain ⟨character, _, rfl⟩ := List.mem_map.mp member
  rfl

theorem Settled.exists_text
    {symbols : List Symbol} (settled : Settled symbols) :
    ∃ text, symbols = terminals text := by
  induction symbols with
  | nil => exact ⟨[], rfl⟩
  | cons symbol later induction =>
      obtain ⟨terminal, laterSettled⟩ := settled_cons_iff.mp settled
      obtain ⟨text, rfl⟩ := induction laterSettled
      cases symbol with
      | terminal character => exact ⟨character :: text, rfl⟩
      | _ => cases terminal

theorem Settled.not_mem
    {symbols : List Symbol} {symbol : Symbol} (settled : Settled symbols)
    (nonterminal : symbol.isNonterminal = true) :
    symbol ∉ symbols := by
  intro member
  have terminal := settled symbol member
  rw [isTerminal_of_isNonterminal nonterminal] at terminal
  cases terminal

end Symbol

namespace Forest

def append : Forest → Forest → Forest
  | .empty, right => right
  | .leaf character later, right => .leaf character (later.append right)
  | .node head children later, right => .node head children (later.append right)

def ofText : Text → Forest
  | [] => .empty
  | character :: text => .leaf character (ofText text)

theorem roots_append (left right : Forest) :
    (left.append right).roots = left.roots ++ right.roots := by
  induction left with
  | empty => rfl
  | leaf character later induction => simp [append, roots, induction]
  | node head children later _ induction => simp [append, roots, induction]

theorem yield_append (left right : Forest) :
    (left.append right).yield = left.yield ++ right.yield := by
  induction left with
  | empty => rfl
  | leaf character later induction => simp [append, yield, induction]
  | node head children later _ induction => simp [append, yield, induction]

theorem roots_ofText (text : Text) : (ofText text).roots = Symbol.terminals text := by
  induction text with
  | nil => rfl
  | cons character text induction => simp [ofText, roots, induction, Symbol.terminals]

theorem yield_ofText (text : Text) : (ofText text).yield = text := by
  induction text with
  | nil => rfl
  | cons character text induction => simp [ofText, yield, induction]

theorem follows_ofText (grammar : Grammar) (text : Text) :
    (ofText text).Follows grammar := by
  induction text with
  | nil => trivial
  | cons character text induction => exact induction

theorem follows_append_iff
    {grammar : Grammar} {left right : Forest} :
    (left.append right).Follows grammar ↔
      left.Follows grammar ∧ right.Follows grammar := by
  induction left with
  | empty => simp [append, Follows]
  | leaf character later induction => simpa [append, Follows] using induction
  | node head children later _ induction => simp [append, Follows, induction, and_assoc]

theorem exists_append_of_roots_eq
    {forest : Forest} {left right : List Symbol}
    (split : forest.roots = left ++ right) :
    ∃ front back : Forest, forest = front.append back ∧ front.roots = left ∧
      back.roots = right := by
  induction left generalizing forest with
  | nil => exact ⟨.empty, forest, rfl, rfl, split⟩
  | cons symbol left induction =>
      cases forest with
      | empty => cases split
      | leaf character later =>
          obtain ⟨same, rest⟩ := List.cons.inj split
          obtain ⟨front, back, rfl, frontRoots, backRoots⟩ := induction rest
          refine ⟨.leaf character front, back, rfl, ?_, backRoots⟩
          rw [roots, frontRoots, same]
      | node head children later =>
          obtain ⟨same, rest⟩ := List.cons.inj split
          obtain ⟨front, back, rfl, frontRoots, backRoots⟩ := induction rest
          refine ⟨.node head children front, back, rfl, ?_, backRoots⟩
          rw [roots, frontRoots, same]

end Forest

namespace Grammar

variable {grammar : Grammar}

theorem RewritesRightmost.rewrites
    {origin target : List Symbol} (rewrite : grammar.RewritesRightmost origin target) :
    grammar.Rewrites origin target := by
  obtain ⟨before, after, production, member, _⟩ := rewrite
  exact .production before after production member

def DerivesRightmost (grammar : Grammar) : List Symbol → List Symbol → Prop :=
  Relation.ReflTransGen grammar.RewritesRightmost

theorem DerivesRightmost.mono
    {first second : Grammar} {origin target : List Symbol}
    (included : first.productions ⊆ second.productions)
    (derivation : first.DerivesRightmost origin target) :
    second.DerivesRightmost origin target := by
  refine Relation.ReflTransGen.mono ?_ _ _ derivation
  intro before after rewrite
  obtain ⟨left, right, production, member, settled⟩ := rewrite
  exact .production left right production (included member) settled

/-- A rightmost derivation as the sequence of its sentential forms. -/
structure RightmostDerivation (grammar : Grammar) (origin target : List Symbol)
    (forms : List (List Symbol)) : Prop where
  starts : forms.head? = some origin
  ends : forms.getLast? = some target
  rewrites : forms.IsChain grammar.RewritesRightmost

theorem DerivesRightmost.derives
    {origin target : List Symbol} (derivation : grammar.DerivesRightmost origin target) :
    grammar.Derives origin target := by
  refine Relation.ReflTransGen.mono ?_ _ _ derivation
  intro before after rewrite
  exact rewrite.rewrites

/-- Behind what is rewritten there may only be terminals. -/
theorem RewritesRightmost.inContext
    (before : List Symbol) {after origin target : List Symbol}
    (settled : Symbol.Settled after) (rewrite : grammar.RewritesRightmost origin target) :
    grammar.RewritesRightmost (before ++ origin ++ after) (before ++ target ++ after) := by
  obtain ⟨left, right, production, member, rightSettled⟩ := rewrite
  have widened := RewritesRightmost.production (before ++ left) (right ++ after)
    production member (Symbol.settled_append_iff.mpr ⟨rightSettled, settled⟩)
  simpa [List.append_assoc] using widened

theorem DerivesRightmost.inContext
    (before : List Symbol) {after origin target : List Symbol}
    (settled : Symbol.Settled after) (derivation : grammar.DerivesRightmost origin target) :
    grammar.DerivesRightmost (before ++ origin ++ after) (before ++ target ++ after) := by
  induction derivation with
  | refl => exact .refl
  | tail _ rewrite induction => exact induction.tail (rewrite.inContext before settled)

/-- The trees of a forest are expanded from the last one to the first. -/
theorem derivesRightmost_of_follows
    {forest : Forest} (follows : forest.Follows grammar) :
    grammar.DerivesRightmost forest.roots (Symbol.terminals forest.yield) := by
  induction forest with
  | empty => exact .refl
  | leaf character later induction =>
      have rest := (induction follows).inContext [.terminal character] Symbol.settled_nil
      simpa [Forest.roots, Forest.yield, Symbol.terminals] using rest
  | node head children later childrenInduction laterInduction =>
      obtain ⟨member, childrenFollow, laterFollow⟩ := follows
      have settled := Symbol.settled_terminals later.yield
      have back := (laterInduction laterFollow).inContext [head] Symbol.settled_nil
      have expanded := RewritesRightmost.production [] (Symbol.terminals later.yield)
        ⟨head, children.roots⟩ member settled
      have front := (childrenInduction childrenFollow).inContext [] settled
      simp only [List.nil_append, List.append_nil, List.singleton_append] at back expanded front
      have whole := (Relation.ReflTransGen.tail back expanded).trans front
      simpa [Forest.roots, Forest.yield, Symbol.terminals, DerivesRightmost] using whole

theorem exists_forest_of_derives
    {origin : List Symbol} {text : Text}
    (derivation : grammar.Derives origin (Symbol.terminals text)) :
    ∃ forest : Forest, forest.roots = origin ∧ forest.yield = text ∧
      forest.Follows grammar := by
  induction derivation using Relation.ReflTransGen.head_induction_on with
  | refl =>
      exact ⟨.ofText text, Forest.roots_ofText text, Forest.yield_ofText text,
        Forest.follows_ofText grammar text⟩
  | head rewrite _ induction =>
      obtain ⟨forest, roots, yields, follows⟩ := induction
      obtain ⟨before, after, production, member⟩ := rewrite
      obtain ⟨front, back, rfl, frontRoots, backRoots⟩ :=
        Forest.exists_append_of_roots_eq roots
      obtain ⟨left, children, rfl, leftRoots, childRoots⟩ :=
        Forest.exists_append_of_roots_eq frontRoots
      obtain ⟨frontFollows, backFollows⟩ := Forest.follows_append_iff.mp follows
      obtain ⟨leftFollows, childrenFollow⟩ := Forest.follows_append_iff.mp frontFollows
      refine ⟨left.append (.node production.head children back), ?_, ?_, ?_⟩
      · rw [Forest.roots_append, Forest.roots, leftRoots, backRoots]
      · simpa [Forest.yield_append, Forest.yield] using yields
      · have declared : ⟨production.head, children.roots⟩ ∈ grammar.productions := by
          rw [childRoots]
          exact member
        apply Forest.follows_append_iff.mpr
        exact ⟨leftFollows, declared, childrenFollow, backFollows⟩

/-- A text that can be derived at all has a rightmost derivation. -/
theorem derivesRightmost_of_derives
    {origin target : List Symbol} (settled : Symbol.Settled target)
    (derivation : grammar.Derives origin target) :
    grammar.DerivesRightmost origin target := by
  obtain ⟨text, rfl⟩ := settled.exists_text
  obtain ⟨forest, rfl, rfl, follows⟩ := exists_forest_of_derives derivation
  exact derivesRightmost_of_follows follows

theorem RightmostDerivation.derivesRightmost_of_mem
    {origin target form : List Symbol} {forms : List (List Symbol)}
    (derivation : grammar.RightmostDerivation origin target forms) (member : form ∈ forms) :
    grammar.DerivesRightmost origin form := by
  obtain ⟨front, back, rfl⟩ := List.append_of_mem member
  have upToForm : (front ++ [form]).IsChain grammar.RewritesRightmost := by
    have whole := derivation.rewrites
    rw [← List.singleton_append, ← List.append_assoc] at whole
    exact whole.left_of_append
  cases front with
  | nil =>
      cases derivation.starts
      exact .refl
  | cons first later =>
      cases derivation.starts
      exact List.relationReflTransGen_of_exists_isChain_cons (later ++ [form]) upToForm (by simp)

theorem RightmostDerivation.derivesRightmost
    {origin target : List Symbol} {forms : List (List Symbol)}
    (derivation : grammar.RightmostDerivation origin target forms) :
    grammar.DerivesRightmost origin target :=
  derivation.derivesRightmost_of_mem (List.mem_of_getLast? derivation.ends)

/-- Sums of products of one letter, with left recursion in both heads. -/
def sums : Grammar where
  productions := [
    ⟨.nonterminal 'E', [.nonterminal 'E', .terminal '+', .nonterminal 'T']⟩,
    ⟨.nonterminal 'E', [.nonterminal 'T']⟩,
    ⟨.nonterminal 'T', [.nonterminal 'T', .terminal '*', .terminal 'a']⟩,
    ⟨.nonterminal 'T', [.terminal 'a']⟩]
  start := .nonterminal 'E'
  wellFormed := by
    simp only [← Production.defect?_eq_none_iff]
    decide
  start_isHead := ⟨_, List.mem_cons_self, rfl⟩

/-- The rightmost derivation of a sum of a letter and a product. -/
def sumsForms : List (List Symbol) := [
  [.nonterminal 'E'],
  [.nonterminal 'E', .terminal '+', .nonterminal 'T'],
  [.nonterminal 'E', .terminal '+', .nonterminal 'T', .terminal '*', .terminal 'a'],
  [.nonterminal 'E', .terminal '+', .terminal 'a', .terminal '*', .terminal 'a'],
  [.nonterminal 'T', .terminal '+', .terminal 'a', .terminal '*', .terminal 'a'],
  [.terminal 'a', .terminal '+', .terminal 'a', .terminal '*', .terminal 'a']]

theorem sums_rightmostDerivation :
    sums.RightmostDerivation [sums.start] (Symbol.terminals ['a', '+', 'a', '*', 'a'])
      sumsForms where
  starts := rfl
  ends := rfl
  rewrites := by
    refine .cons_cons ?_ (.cons_cons ?_ (.cons_cons ?_ (.cons_cons ?_ (.cons_cons ?_
      (.singleton _)))))
    · exact .production [] []
        ⟨.nonterminal 'E', [.nonterminal 'E', .terminal '+', .nonterminal 'T']⟩
        (by decide) (by decide)
    · exact .production [.nonterminal 'E', .terminal '+'] []
        ⟨.nonterminal 'T', [.nonterminal 'T', .terminal '*', .terminal 'a']⟩
        (by decide) (by decide)
    · exact .production [.nonterminal 'E', .terminal '+'] [.terminal '*', .terminal 'a']
        ⟨.nonterminal 'T', [.terminal 'a']⟩ (by decide) (by decide)
    · exact .production [] [.terminal '+', .terminal 'a', .terminal '*', .terminal 'a']
        ⟨.nonterminal 'E', [.nonterminal 'T']⟩ (by decide) (by decide)
    · exact .production [] [.terminal '+', .terminal 'a', .terminal '*', .terminal 'a']
        ⟨.nonterminal 'T', [.terminal 'a']⟩ (by decide) (by decide)

end Grammar

end PrecedenceGrammar
