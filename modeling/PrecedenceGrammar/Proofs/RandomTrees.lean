import PrecedenceGrammar.Derivation.RandomTree
import PrecedenceGrammar.Proofs.FailingSteps
import PrecedenceGrammar.Proofs.TableRelations

/-!
# Random trees

A random tree is made by one choice for each of its expansions, from the root
down and from left to right, and each choice is among the candidates for its
depth.  The generator returns a tree exactly when the source gives these choices
one after another, so whatever is to be known of it is read off the choices.
-/

namespace PrecedenceGrammar

namespace ChoiceSource

/-- What is left of a source after some choices. -/
inductive Remains {σ : Type} [ChoiceSource σ] (source : σ) : σ → Prop where
  | none : Remains source source
  | next {count : Nat} {middle rest : σ} {index : Fin count} (earlier : Remains source middle)
      (chosen : choose count middle = some (index, rest)) : Remains source rest

theorem Remains.trans
    {σ : Type} [ChoiceSource σ] {source middle rest : σ}
    (first : Remains source middle) (later : Remains middle rest) :
    Remains source rest := by
  induction later with
  | none => exact first
  | next _ chosen induction => exact .next induction chosen

end ChoiceSource

open ChoiceSource (Remains)

/-- A nonterminal at a depth, the root being at none, and the body that is chosen
for it. -/
structure Expansion where
  depth : Nat
  head : Symbol
  body : List Symbol
  deriving DecidableEq

namespace Forest

/-- The expansions of a forest whose roots are at a depth, each before those
below it, and these before those to its right. -/
def expansions (depth : Nat) : Forest → List Expansion
  | .empty => []
  | .leaf _ later => later.expansions depth
  | .node head children later =>
    ⟨depth, head, children.roots⟩ :: (children.expansions (depth + 1) ++ later.expansions depth)

theorem follows_iff_expansions
    {grammar : Grammar} {forest : Forest} (depth : Nat) :
    forest.Follows grammar ↔
      ∀ expansion ∈ forest.expansions depth,
        ⟨expansion.head, expansion.body⟩ ∈ grammar.productions := by
  induction forest generalizing depth with
  | empty => simp [Follows, expansions]
  | leaf character later induction => exact induction depth
  | node head children later childrenInduction laterInduction =>
      simp only [Follows, expansions, List.forall_mem_cons, List.forall_mem_append,
        childrenInduction (depth + 1), laterInduction depth]

theorem roots_eq_nil_iff
    {forest : Forest} :
    forest.roots = [] ↔ forest = .empty := by
  cases forest <;> simp [roots]

end Forest

namespace Grammar

/-- Each expansion takes its body by one choice among the candidates for its
depth, in the order of the list, and the rest of the source is left over. -/
inductive Chosen {σ : Type} [ChoiceSource σ] (grammar : Grammar) :
    List Expansion → σ → σ → Prop where
  | none (source : σ) : Chosen grammar [] source source
  | next {expansion : Expansion} {later : List Expansion} {source middle rest : σ}
      {index : Fin (grammar.candidates expansion.depth expansion.head).length}
      (within : expansion.depth ≤ greatestDepth)
      (chosen : ChoiceSource.choose _ source = some (index, middle))
      (picked : (grammar.candidates expansion.depth expansion.head).get index = expansion.body)
      (continued : Chosen grammar later middle rest) :
      Chosen grammar (expansion :: later) source rest

variable {grammar : Grammar}

section Generator

variable {σ : Type} [ChoiceSource σ] {source rest : σ} {expansions : List Expansion}
  {forest children tree : Forest} {symbol : Symbol} {depth levels : Nat}

theorem chosen_append_iff
    {first later : List Expansion} :
    grammar.Chosen (first ++ later) source rest ↔
      ∃ middle, grammar.Chosen first source middle ∧ grammar.Chosen later middle rest := by
  induction first generalizing source with
  | nil =>
      constructor
      · intro chosen
        exact ⟨source, .none source, chosen⟩
      · intro chosen
        obtain ⟨middle, start, continued⟩ := chosen
        cases start
        exact continued
  | cons expansion first induction =>
      constructor
      · intro chosen
        cases chosen with
        | next within chosen picked continued =>
            obtain ⟨middle, start, rest⟩ := induction.mp continued
            exact ⟨middle, .next within chosen picked start, rest⟩
      · intro chosen
        obtain ⟨middle, start, continued⟩ := chosen
        cases start with
        | next within chosen picked start =>
            exact .next within chosen picked (induction.mpr ⟨middle, start, continued⟩)

theorem Chosen.remains
    (chosen : grammar.Chosen expansions source rest) :
    Remains source rest := by
  induction chosen with
  | none => exact .none
  | next _ first _ _ induction => exact (Remains.next .none first).trans induction

/-- A chosen body is one of the candidates, not below the greatest depth. -/
theorem Chosen.candidate
    (chosen : grammar.Chosen expansions source rest) :
    ∀ expansion ∈ expansions,
      expansion.depth ≤ greatestDepth ∧
        expansion.body ∈ grammar.candidates expansion.depth expansion.head := by
  induction chosen with
  | none => exact List.forall_mem_nil _
  | next within _ picked _ induction =>
      refine List.forall_mem_cons.mpr ⟨⟨within, ?_⟩, induction⟩
      exact picked ▸ List.get_mem _ _

theorem Chosen.follows
    (chosen : grammar.Chosen (forest.expansions depth) source rest) :
    forest.Follows grammar := by
  apply (Forest.follows_iff_expansions depth).mpr
  intro expansion member
  exact mem_productions_of_mem_candidates (chosen.candidate expansion member).2

theorem isNonterminal_of_mem_candidates
    {body : List Symbol} (candidate : body ∈ grammar.candidates depth symbol) :
    symbol.isNonterminal = true :=
  isNonterminal_of_isHead ⟨_, mem_productions_of_mem_candidates candidate, rfl⟩

theorem isGrammarSymbol_of_mem_candidates
    {body : List Symbol} (candidate : body ∈ grammar.candidates depth symbol) :
    ∀ symbol ∈ body, symbol.isGrammarSymbol = true :=
  (grammar.wellFormed _ (mem_productions_of_mem_candidates candidate)).body_isGrammarSymbol

/-- Beyond the settling depth, a nonterminal that has a body of terminals takes
one. -/
theorem isTerminal_of_mem_candidates
    {body : List Symbol} (deep : settlingDepth < depth)
    (settles : ∃ body ∈ grammar.bodies symbol, ∀ symbol ∈ body, symbol.isTerminal = true)
    (candidate : body ∈ grammar.candidates depth symbol) :
    ∀ symbol ∈ body, symbol.isTerminal = true := by
  obtain ⟨settled, member, terminals⟩ := settles
  have restricted : settled ∈ (grammar.bodies symbol).filter (·.all (·.isTerminal)) :=
    List.mem_filter.mpr ⟨member, List.all_eq_true.mpr terminals⟩
  have nonempty := List.isEmpty_eq_false_iff.mpr (List.ne_nil_of_mem restricted)
  simp only [candidates, deep, nonempty, decide_true, Bool.not_false, Bool.and_self, if_true]
    at candidate
  exact List.all_eq_true.mp (List.mem_filter.mp candidate).2

/-- Down to the settling depth, all bodies are candidates. -/
theorem candidates_eq_bodies
    (shallow : depth ≤ settlingDepth) :
    grammar.candidates depth symbol = grammar.bodies symbol := by
  have notDeep : decide (settlingDepth < depth) = false := decide_eq_false (by omega)
  simp [candidates, notDeep]

/-- The trees under a body stand on the symbols of the body, as those are all
of them grammar symbols, and take up the choices of one tree after another. -/
theorem expandBody_eq_ok_iff
    {expandOne : Symbol → σ → Except GenerationError (Forest × σ)} {body : List Symbol}
    (expandOne_iff : ∀ {symbol source children rest},
      expandOne symbol source = .ok (children, rest) ↔
        grammar.Chosen (⟨depth, symbol, children.roots⟩ :: children.expansions (depth + 1))
          source rest)
    (grammatical : ∀ symbol ∈ body, symbol.isGrammarSymbol = true) :
    expandBody expandOne body source = .ok (forest, rest) ↔
      forest.roots = body ∧ grammar.Chosen (forest.expansions depth) source rest := by
  induction body generalizing source forest with
  | nil =>
      rw [expandBody]
      constructor
      · intro expanded
        cases expanded
        exact ⟨rfl, .none _⟩
      · intro made
        obtain ⟨roots, chosen⟩ := made
        obtain rfl := Forest.roots_eq_nil_iff.mp roots
        cases chosen
        rfl
  | cons symbol body induction =>
      obtain ⟨known, laterKnown⟩ := List.forall_mem_cons.mp grammatical
      cases symbol with
      | terminal character =>
          rw [expandBody, bind_eq_ok_iff]
          constructor
          · intro expanded
            obtain ⟨⟨later, _⟩, laterExpanded, same⟩ := expanded
            cases same
            obtain ⟨roots, chosen⟩ := (induction laterKnown).mp laterExpanded
            exact ⟨congrArg _ roots, chosen⟩
          · intro made
            obtain ⟨roots, chosen⟩ := made
            cases forest with
            | empty => cases roots
            | leaf found later =>
                obtain ⟨same, laterRoots⟩ := List.cons.inj roots
                cases same
                exact ⟨(later, rest), (induction laterKnown).mpr ⟨laterRoots, chosen⟩, rfl⟩
            | node head children later =>
                obtain ⟨rfl, _⟩ := List.cons.inj roots
                have candidate := (chosen.candidate _ List.mem_cons_self).2
                cases isNonterminal_of_mem_candidates candidate
      | nonterminal character =>
          rw [expandBody, bind_eq_ok_iff]
          constructor
          · intro expanded
            obtain ⟨⟨children, middle⟩, headExpanded, continued⟩ := expanded
            obtain ⟨⟨later, _⟩, laterExpanded, same⟩ := bind_eq_ok_iff.mp continued
            cases same
            obtain ⟨roots, chosen⟩ := (induction laterKnown).mp laterExpanded
            refine ⟨congrArg _ roots, ?_⟩
            exact chosen_append_iff.mpr ⟨middle, expandOne_iff.mp headExpanded, chosen⟩
          · intro made
            obtain ⟨roots, chosen⟩ := made
            cases forest with
            | empty => cases roots
            | leaf => cases roots
            | node head children later =>
                obtain ⟨rfl, laterRoots⟩ := List.cons.inj roots
                rw [Forest.expansions, ← List.cons_append, chosen_append_iff] at chosen
                obtain ⟨middle, headChosen, laterChosen⟩ := chosen
                refine ⟨(children, middle), expandOne_iff.mpr headChosen, ?_⟩
                exact bind_eq_ok_iff.mpr ⟨(later, rest),
                  (induction laterKnown).mpr ⟨laterRoots, laterChosen⟩, rfl⟩
      | _ => cases known

theorem expand_eq_ok_iff
    (atDepth : depth + levels = greatestDepth + 1) :
    grammar.expand levels symbol source = .ok (children, rest) ↔
      grammar.Chosen (⟨depth, symbol, children.roots⟩ :: children.expansions (depth + 1))
        source rest := by
  induction levels generalizing depth symbol source children rest with
  | zero =>
      apply iff_of_false
      · intro expanded
        cases expanded
      · intro chosen
        have within := (chosen.candidate _ List.mem_cons_self).1
        dsimp only at within
        omega
  | succ levels induction =>
      have depth_eq : greatestDepth - levels = depth := by omega
      have below : depth + 1 + levels = greatestDepth + 1 := by omega
      rw [expand, depth_eq]
      constructor
      · intro expanded
        split at expanded
        · cases expanded
        · split at expanded
          · cases expanded
          · next index middle chosen =>
            have candidate : (grammar.candidates depth symbol).get index ∈
              grammar.candidates depth symbol := List.get_mem _ index
            obtain ⟨roots, continued⟩ := (expandBody_eq_ok_iff (induction below)
              (isGrammarSymbol_of_mem_candidates candidate)).mp expanded
            exact .next (by dsimp only; omega) chosen roots.symm continued
      · intro made
        cases made with
        | @next _ _ _ middle _ index within chosen picked continued =>
            have candidate := List.get_mem _ index
            have nonempty : (grammar.candidates depth symbol).isEmpty = false := by
              rw [List.isEmpty_eq_false_iff]
              exact List.ne_nil_of_mem candidate
            dsimp only at chosen picked index
            rw [nonempty, chosen]
            exact (expandBody_eq_ok_iff (induction below)
              (isGrammarSymbol_of_mem_candidates candidate)).mpr ⟨picked.symm, continued⟩

/-- The only root of a tree of the start symbol is a node. -/
theorem exists_node_of_roots
    (roots : tree.roots = [grammar.start]) :
    ∃ children, tree = .node grammar.start children .empty := by
  cases tree with
  | empty => cases roots
  | leaf character later =>
      obtain ⟨starts, _⟩ := List.cons.inj roots
      have isNonterminal := isNonterminal_of_isHead grammar.start_isHead
      rw [← starts] at isNonterminal
      cases isNonterminal
  | node head children later =>
      obtain ⟨rfl, none_later⟩ := List.cons.inj roots
      obtain rfl := Forest.roots_eq_nil_iff.mp none_later
      exact ⟨children, rfl⟩

/-- A tree is returned exactly if it stands on the start symbol and its expansions
are chosen from the source one after another. -/
theorem randomTree_eq_ok_iff :
    grammar.randomTree source = .ok (tree, rest) ↔
      tree.roots = [grammar.start] ∧ grammar.Chosen (tree.expansions 0) source rest := by
  rw [randomTree, bind_eq_ok_iff]
  constructor
  · intro generated
    obtain ⟨⟨children, _⟩, expanded, same⟩ := generated
    cases same
    have chosen := (expand_eq_ok_iff (Nat.zero_add _)).mp expanded
    refine ⟨rfl, ?_⟩
    rw [Forest.expansions, Forest.expansions, List.append_nil]
    exact chosen
  · intro made
    obtain ⟨roots, chosen⟩ := made
    obtain ⟨children, rfl⟩ := exists_node_of_roots roots
    rw [Forest.expansions, Forest.expansions, List.append_nil] at chosen
    exact ⟨(children, rest), (expand_eq_ok_iff (Nat.zero_add _)).mpr chosen, rfl⟩

theorem randomTree_follows
    (generated : grammar.randomTree source = .ok (tree, rest)) :
    tree.roots = [grammar.start] ∧ tree.Follows grammar := by
  obtain ⟨roots, chosen⟩ := randomTree_eq_ok_iff.mp generated
  exact ⟨roots, chosen.follows⟩

end Generator

end Grammar

end PrecedenceGrammar
