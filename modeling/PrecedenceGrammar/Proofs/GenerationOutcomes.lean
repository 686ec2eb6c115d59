import PrecedenceGrammar.Proofs.RandomTrees
import PrecedenceGrammar.Proofs.SaturationRounds
import PrecedenceGrammar.Random.WordStream

/-!
# What becomes of a generation

A tree is made within the depth limit, and settles on bodies of terminals where
it is deep and there are any.  Where no tree is made, candidates lead from the
start symbol to the nonterminal that is undefined or too deep, unless the source
refuses a choice.
-/

namespace PrecedenceGrammar

open ChoiceSource (Remains)

namespace Grammar

variable {grammar : Grammar}

/-- The symbol is in a body of the head. -/
def Uses (grammar : Grammar) (head symbol : Symbol) : Prop :=
  ∃ body, ⟨head, body⟩ ∈ grammar.productions ∧ symbol ∈ body

/-- The nonterminals that candidates bring to a depth. -/
inductive Occurs (grammar : Grammar) : Nat → Symbol → Prop where
  | start : Occurs grammar 0 grammar.start
  | used {depth : Nat} {head symbol : Symbol} {body : List Symbol}
      (occurs : Occurs grammar depth head) (candidate : body ∈ grammar.candidates depth head)
      (member : symbol ∈ body) (isNonterminal : symbol.isNonterminal = true) :
      Occurs grammar (depth + 1) symbol

/-- The reasons for which no tree is made from a source: a nonterminal without
bodies or below the greatest depth, or a source that refuses a choice. -/
inductive FailsToGrow {σ : Type} [ChoiceSource σ] (grammar : Grammar) (source : σ) :
    GenerationError → Prop where
  | undefinedNonterminal {depth : Nat} {symbol : Symbol} (occurs : grammar.Occurs depth symbol)
      (within : depth ≤ greatestDepth) (undefined : grammar.bodies symbol = []) :
      FailsToGrow grammar source (.undefinedNonterminal symbol)
  | depthExceeded {symbol : Symbol} (occurs : grammar.Occurs (greatestDepth + 1) symbol) :
      FailsToGrow grammar source (.depthExceeded symbol)
  | noChoice {rest : σ} {count : Nat} (remains : Remains source rest) (positive : 0 < count)
      (refused : ChoiceSource.choose count rest = none) :
      FailsToGrow grammar source .noChoice

theorem Occurs.isNonterminal
    {depth : Nat} {symbol : Symbol} (occurs : grammar.Occurs depth symbol) :
    symbol.isNonterminal = true := by
  cases occurs with
  | start => exact isNonterminal_of_isHead grammar.start_isHead
  | used _ _ _ isNonterminal => exact isNonterminal

/-- As many rules lead from the start symbol to a nonterminal as it is deep. -/
theorem Occurs.repeated
    {depth : Nat} {symbol : Symbol} (occurs : grammar.Occurs depth symbol) :
    Repeated grammar.Uses grammar.start depth symbol := by
  induction occurs with
  | start => exact .none
  | used _ candidate member _ induction =>
      exact .next induction ⟨_, mem_productions_of_mem_candidates candidate, member⟩

section Generator

variable {σ : Type} [ChoiceSource σ] {source middle rest : σ} {symbol : Symbol}
  {depth levels : Nat} {error : GenerationError}

theorem FailsToGrow.of_remains
    (fails : grammar.FailsToGrow middle error) (earlier : Remains source middle) :
    grammar.FailsToGrow source error := by
  cases fails with
  | undefinedNonterminal occurs within undefined =>
      exact .undefinedNonterminal occurs within undefined
  | depthExceeded occurs => exact .depthExceeded occurs
  | noChoice remains positive refused => exact .noChoice (earlier.trans remains) positive refused

/-- A body fails at the first of its nonterminals that fails. -/
theorem expandBody_fails
    {expandOne : Symbol → σ → Except GenerationError (Forest × σ)} {body : List Symbol}
    (remains : ∀ {symbol source children rest},
      expandOne symbol source = .ok (children, rest) → Remains source rest)
    (expandOne_fails : ∀ {symbol source}, symbol ∈ body → symbol.isNonterminal = true →
      expandOne symbol source = .error error → grammar.FailsToGrow source error)
    (failed : expandBody expandOne body source = .error error) :
    grammar.FailsToGrow source error := by
  induction body generalizing source with
  | nil => cases failed
  | cons symbol body induction =>
      have laterFails : ∀ {source}, expandBody expandOne body source = .error error →
          grammar.FailsToGrow source error :=
        induction fun member => expandOne_fails (List.mem_cons_of_mem _ member)
      cases symbol with
      | terminal character =>
          obtain bodyFailed | ⟨_, _, impossible⟩ := bind_eq_error_iff.mp failed
          · exact laterFails bodyFailed
          · cases impossible
      | nonterminal character =>
          obtain headFailed | ⟨⟨children, middle⟩, expanded, continued⟩ :=
            bind_eq_error_iff.mp failed
          · exact expandOne_fails List.mem_cons_self rfl headFailed
          · obtain bodyFailed | ⟨_, _, impossible⟩ := bind_eq_error_iff.mp continued
            · exact (laterFails bodyFailed).of_remains (remains expanded)
            · cases impossible
      | startMarker => exact laterFails failed
      | endMarker => exact laterFails failed
      | relation => exact laterFails failed

theorem expand_fails
    (atDepth : depth + levels = greatestDepth + 1) (occurs : grammar.Occurs depth symbol)
    (failed : grammar.expand levels symbol source = .error error) :
    grammar.FailsToGrow source error := by
  induction levels generalizing depth symbol source with
  | zero =>
      cases failed
      obtain rfl : depth = greatestDepth + 1 := atDepth
      exact .depthExceeded occurs
  | succ levels induction =>
      have depth_eq : greatestDepth - levels = depth := by omega
      have below : depth + 1 + levels = greatestDepth + 1 := by omega
      rw [expand, depth_eq] at failed
      split at failed
      · next empty =>
        cases failed
        refine .undefinedNonterminal occurs (by omega) ?_
        exact (grammar.candidates_eq_nil_iff depth symbol).mp (List.isEmpty_iff.mp empty)
      · next nonempty =>
        split at failed
        · next refused =>
          cases failed
          refine .noChoice .none (List.length_pos_iff.mpr ?_) refused
          exact fun empty => nonempty (List.isEmpty_iff.mpr empty)
        · next index middle chosen =>
          have bodyFails : grammar.FailsToGrow middle error := by
            apply expandBody_fails (fun expanded =>
              ((expand_eq_ok_iff below).mp expanded).remains) ?_ failed
            intro found _ member isNonterminal
            exact induction below (.used occurs (List.get_mem _ index) member isNonterminal)
          exact bodyFails.of_remains (.next .none chosen)

theorem randomTree_fails
    (failed : grammar.randomTree source = .error error) :
    grammar.FailsToGrow source error := by
  obtain expandFailed | ⟨_, _, impossible⟩ := bind_eq_error_iff.mp failed
  · exact expand_fails (Nat.zero_add _) .start expandFailed
  · cases impossible

/-- A generated tree derives its sentence from the start symbol, so there is none
where nothing can be derived.  It is within the depth limit, and deep nonterminals
take a body of terminals if they have one.  An undefined nonterminal and one that
is given up are both led to by rules from the start symbol, the latter by one
more than the depth limit allows. -/
theorem randomTree_outcome (grammar : Grammar) (source : σ) :
    (∀ tree rest, grammar.randomTree source = .ok (tree, rest) →
      tree.roots = [grammar.start] ∧ tree.Follows grammar ∧
        grammar.Derives [grammar.start] (Symbol.terminals tree.yield) ∧
        ∀ expansion ∈ tree.expansions 0,
          expansion.depth ≤ 256 ∧
            (32 < expansion.depth →
              (∃ body ∈ grammar.bodies expansion.head,
                ∀ symbol ∈ body, symbol.isTerminal = true) →
              ∀ symbol ∈ expansion.body, symbol.isTerminal = true)) ∧
      (∀ symbol, grammar.randomTree source = .error (.undefinedNonterminal symbol) →
        symbol.isNonterminal = true ∧
          (∃ count ≤ 256, Repeated grammar.Uses grammar.start count symbol) ∧
          ∀ production ∈ grammar.productions, production.head ≠ symbol) ∧
      (∀ symbol, grammar.randomTree source = .error (.depthExceeded symbol) →
        symbol.isNonterminal = true ∧ Repeated grammar.Uses grammar.start 257 symbol) ∧
      (grammar.randomTree source = .error .noChoice →
        ∃ rest count, Remains source rest ∧ 0 < count ∧ ChoiceSource.choose count rest = none) ∧
      ((∀ text, ¬ grammar.Derives [grammar.start] (Symbol.terminals text)) →
        ∀ tree rest, grammar.randomTree source ≠ .ok (tree, rest)) := by
  have derives : ∀ {tree rest}, grammar.randomTree source = .ok (tree, rest) →
      grammar.Derives [grammar.start] (Symbol.terminals tree.yield) := by
    intro tree rest generated
    obtain ⟨roots, follows⟩ := randomTree_follows generated
    exact roots ▸ follows.derives
  refine ⟨?_, ?_, ?_, ?_, ?_⟩
  · intro tree rest generated
    obtain ⟨roots, chosen⟩ := randomTree_eq_ok_iff.mp generated
    refine ⟨roots, chosen.follows, derives generated, ?_⟩
    intro expansion member
    obtain ⟨within, candidate⟩ := chosen.candidate expansion member
    exact ⟨within, fun deep settles => isTerminal_of_mem_candidates deep settles candidate⟩
  · intro symbol failed
    cases randomTree_fails failed with
    | @undefinedNonterminal depth _ occurs within undefined =>
        refine ⟨occurs.isNonterminal, ⟨depth, within, occurs.repeated⟩, ?_⟩
        rintro ⟨head, body⟩ member rfl
        have isBody := (grammar.mem_bodies_iff head body).mpr member
        rw [undefined] at isBody
        cases isBody
  · intro symbol failed
    cases randomTree_fails failed with
    | depthExceeded occurs => exact ⟨occurs.isNonterminal, occurs.repeated⟩
  · intro failed
    cases randomTree_fails failed with
    | @noChoice rest count remains positive refused =>
        exact ⟨rest, count, remains, positive, refused⟩
  · intro nothing tree rest generated
    exact nothing tree.yield (derives generated)

end Generator

/-- A letter again and again, until a body of terminals ends it. -/
def repetition : Grammar where
  productions := [
    ⟨.nonterminal 'S', [.terminal 'a', .nonterminal 'S']⟩,
    ⟨.nonterminal 'S', [.terminal 'b']⟩]
  start := .nonterminal 'S'
  wellFormed := by
    simp only [← Production.defect?_eq_none_iff]
    decide
  start_isHead := ⟨_, List.mem_cons_self, rfl⟩

/-- Although the first candidate is always taken, the letter is repeated until
the settling depth only.  A sum, which has no body of terminals, is given up. -/
theorem repetition_randomTree_outcome :
    let zeros := WordStream.cycle 0 []
    (∃ tree rest, repetition.randomTree zeros = .ok (tree, rest) ∧
      tree.yield = List.replicate 33 'a' ++ ['b'] ∧
      repetition.Derives [.nonterminal 'S'] (Symbol.terminals tree.yield)) ∧
    sums.randomTree zeros = .error (.depthExceeded (.nonterminal 'E')) ∧
      Repeated sums.Uses (.nonterminal 'E') 257 (.nonterminal 'E') := by
  intro zeros
  have yields : (repetition.randomTree zeros).map (fun made => made.1.yield) =
      .ok (List.replicate 33 'a' ++ ['b']) := by
    decide +kernel
  have failed : (sums.randomTree zeros).map (fun made => made.1) =
      .error (.depthExceeded (.nonterminal 'E')) := by
    decide +kernel
  obtain ⟨⟨tree, rest⟩, generated, yield_eq⟩ := map_eq_ok_iff.mp yields
  rw [map_eq_error_iff] at failed
  obtain ⟨_, _, derives, _⟩ := (randomTree_outcome repetition zeros).1 tree rest generated
  obtain ⟨_, _, tooDeep, _⟩ := randomTree_outcome sums zeros
  exact ⟨⟨tree, rest, generated, yield_eq, derives⟩, failed, (tooDeep _ failed).2⟩

end Grammar

end PrecedenceGrammar
