import PrecedenceGrammar.Proofs.ParserCompleteness
import PrecedenceGrammar.Proofs.ParserSoundness
import PrecedenceGrammar.Proofs.RandomTrees
import PrecedenceGrammar.Random.WordStream

/-!
# Generated sentences and the parser

Where two heads have the same body, the parser reduces it to the head that was
declared first, so what it accepts are the texts that are derived without the
later ones.  The generator chooses among all productions, and a sentence of its
may be one that only a later one derives.
-/

namespace PrecedenceGrammar

namespace Grammar

theorem productions_ne_nil (grammar : Grammar) : grammar.productions ≠ [] := by
  obtain ⟨production, member, _⟩ := grammar.start_isHead
  exact List.ne_nil_of_mem member

theorem headOf?_body_first
    (grammar : Grammar) (nonempty : grammar.productions ≠ []) :
    grammar.headOf? (grammar.productions.head nonempty).body =
      some (grammar.productions.head nonempty).head := by
  unfold headOf?
  revert nonempty
  cases grammar.productions with
  | nil => intro nonempty; exact absurd rfl nonempty
  | cons first later => simp

/-- The grammar of the productions that the parser reduces by, which are the
earliest ones with their bodies.  It starts with the head of the first of them,
as the start symbol itself need not be among their heads. -/
def earliest (grammar : Grammar) : Grammar where
  productions := grammar.productions.filter fun production =>
    grammar.headOf? production.body == some production.head
  start := (grammar.productions.head grammar.productions_ne_nil).head
  wellFormed production member := grammar.wellFormed production (List.mem_of_mem_filter member)
  start_isHead := by
    refine ⟨_, List.mem_filter.mpr ⟨List.head_mem grammar.productions_ne_nil, ?_⟩, rfl⟩
    exact beq_iff_eq.mpr (grammar.headOf?_body_first _)

variable {grammar : Grammar}

theorem mem_earliest_iff
    {head : Symbol} {body : List Symbol} :
    ⟨head, body⟩ ∈ grammar.earliest.productions ↔ grammar.headOf? body = some head := by
  rw [earliest, List.mem_filter, beq_iff_eq]
  constructor
  · exact And.right
  · intro found
    exact ⟨mem_productions_of_headOf? found, found⟩

/-- In a grammar that can be parsed, the texts that are accepted are those that
the productions derive which the parser reduces by. -/
theorem parse_accepted_iff_earliest
    {text : Text}
    (suitable : (grammar.typeWith (Table.ofGrammar grammar)).allowsParsing = true) :
    (∃ lines, grammar.parse (Table.ofGrammar grammar) (Symbol.terminals text) =
        .ok ⟨lines, .accepted⟩) ↔
      grammar.earliest.Derives [grammar.start] (Symbol.terminals text) := by
  have unshifted := Table.shifts_endMarker grammar
  rw [parse_accepted_iff unshifted]
  constructor
  · intro ends
    obtain ⟨moves, runs⟩ := ends
    have derivation := runs.accepted_derives mem_earliest_iff.mpr unshifted rfl
      (Configuration.unfinished_initial _)
    rw [Configuration.form_initial] at derivation
    exact derivation
  · intro derivation
    exact runsTo_accepted_of_derives suitable (fun _ => mem_earliest_iff.mp) derivation

section Generator

variable {σ : Type} [ChoiceSource σ] {source : σ}

theorem randomTrees_follow
    {amount : Nat} {trees : List Forest}
    (generated : grammar.randomTrees amount source = .ok trees) :
    ∀ tree ∈ trees, tree.roots = [grammar.start] ∧ tree.Follows grammar := by
  induction amount generalizing source trees with
  | zero =>
      cases generated
      exact List.forall_mem_nil _
  | succ amount induction =>
      obtain ⟨⟨first, _⟩, firstGenerated, continued⟩ := bind_eq_ok_iff.mp generated
      obtain ⟨later, laterGenerated, same⟩ := bind_eq_ok_iff.mp continued
      cases same
      exact List.forall_mem_cons.mpr
        ⟨randomTree_follows firstGenerated, induction laterGenerated⟩

/-- In a grammar that can be parsed, a generated sentence is accepted exactly
if it can be derived by the productions that the parser reduces by.  So it is if
its own tree has no others, or if no two heads have the same body. -/
theorem randomTrees_accepted_iff
    {amount : Nat} {trees : List Forest}
    (suitable : (grammar.typeWith (Table.ofGrammar grammar)).allowsParsing = true)
    (generated : grammar.randomTrees amount source = .ok trees) :
    ∀ tree ∈ trees,
      let accepted := ∃ lines, grammar.parse (Table.ofGrammar grammar)
        (Symbol.terminals tree.yield) = .ok ⟨lines, .accepted⟩
      (accepted ↔ grammar.earliest.Derives [grammar.start] (Symbol.terminals tree.yield)) ∧
        (tree.Follows grammar.earliest ∨ grammar.DistinctBodies → accepted) := by
  intro tree member accepted
  obtain ⟨roots, follows⟩ := randomTrees_follow generated tree member
  refine ⟨parse_accepted_iff_earliest suitable, ?_⟩
  rintro (onlyEarliest | distinct)
  · have derivation := onlyEarliest.derives
    rw [roots] at derivation
    exact (parse_accepted_iff_earliest suitable).mpr derivation
  · have derivation := follows.derives
    rw [roots] at derivation
    exact (parse_accepted_iff (Table.shifts_endMarker grammar)).mpr
      (runsTo_accepted_of_derives suitable (fun _ => headOf?_of_distinctBodies distinct)
        derivation)

end Generator

/-- Two heads with the same body, told apart by what comes after them. -/
def sharedBody : Grammar where
  productions := [
    ⟨.nonterminal 'S', [.nonterminal 'A', .terminal 'x']⟩,
    ⟨.nonterminal 'S', [.nonterminal 'B', .terminal 'y']⟩,
    ⟨.nonterminal 'A', [.terminal 'a']⟩,
    ⟨.nonterminal 'B', [.terminal 'a']⟩]
  start := .nonterminal 'S'
  wellFormed := by
    simp only [← Production.defect?_eq_none_iff]
    decide
  start_isHead := ⟨_, List.mem_cons_self, rfl⟩

/-- The sentence of the head that was declared first is accepted. -/
theorem sharedBody_first_accepted :
    let tree := Forest.node (.nonterminal 'S')
      (.node (.nonterminal 'A') (.leaf 'a' .empty) (.leaf 'x' .empty)) .empty
    sharedBody.randomTrees 2 (WordStream.cycle 0 []) = .ok [tree, tree] ∧
      ∃ lines, sharedBody.parse (Table.ofGrammar sharedBody) (Symbol.terminals tree.yield) =
        .ok ⟨lines, .accepted⟩ := by
  intro tree
  have generated : sharedBody.randomTrees 2 (WordStream.cycle 0 []) = .ok [tree, tree] := by
    decide +kernel
  have follows : tree.Follows sharedBody.earliest :=
    ⟨by decide, ⟨by decide, trivial, trivial⟩, trivial⟩
  have each := randomTrees_accepted_iff (by decide) generated tree List.mem_cons_self
  exact ⟨generated, each.2 (.inl follows)⟩

/-- The sentence of the other head is rejected, although the type is simple:
its letter is reduced to the head that was declared first. -/
theorem sharedBody_second_rejected :
    let table := Table.ofGrammar sharedBody
    let tree := Forest.node (.nonterminal 'S')
      (.node (.nonterminal 'B') (.leaf 'a' .empty) (.leaf 'y' .empty)) .empty
    sharedBody.typeWith table = .simple ∧
      sharedBody.randomTrees 1 (WordStream.cycle 2147483648 [0]) = .ok [tree] ∧
      sharedBody.parse table (Symbol.terminals tree.yield) =
        .ok ⟨[['^', ' ', 'a', 'y', '$'], ['^', 'a', ' ', 'y', '$'], ['^', 'A', ' ', 'y', '$'],
          rejectionLine], .rejected⟩ := by
  decide +kernel

end Grammar

end PrecedenceGrammar
