import Mathlib.Algebra.Group.Nat.Defs
import PrecedenceGrammar.Proofs.GenerationOutcomes

/-!
# Sentences that settle

If every nonterminal that can come up has a body of terminals, no nonterminal
comes up more than one level beyond the settling depth.  So a source that never
refuses a choice always makes a tree, and the number of levels bounds the length
of its sentence.
-/

namespace PrecedenceGrammar

open ChoiceSource (Remains)

/-- Whatever choices are taken from a source, what is left gives one among any
candidates. -/
def ChoiceSource.AlwaysChooses {σ : Type} [ChoiceSource σ] (source : σ) : Prop :=
  ∀ rest count, Remains source rest → 0 < count →
    ∃ index later, choose count rest = some (index, later)

namespace Forest

/-- A forest whose expansions all lie above a depth and have bodies of a bounded
length has no more leaves than the levels in between allow. -/
theorem length_yield_le
    {bound limit depth : Nat} {forest : Forest} (positive : 0 < bound)
    (bounded : ∀ expansion ∈ forest.expansions depth,
      expansion.depth < limit ∧ expansion.body.length ≤ bound) :
    forest.yield.length ≤ forest.roots.length * bound ^ (limit - depth) := by
  induction forest generalizing depth with
  | empty => exact Nat.zero_le _
  | leaf character later induction =>
      have laterBound := induction bounded
      have one_le : 1 ≤ bound ^ (limit - depth) := Nat.one_le_pow _ _ positive
      rw [yield, roots, List.length_cons, List.length_cons, Nat.succ_mul]
      omega
  | node head children later childrenInduction laterInduction =>
      simp only [expansions, List.forall_mem_cons, List.forall_mem_append] at bounded
      obtain ⟨⟨above, short⟩, childrenBounded, laterBounded⟩ := bounded
      have laterBound := laterInduction laterBounded
      have childrenBound : children.yield.length ≤ bound ^ (limit - depth) := by
        have levels : limit - depth = limit - (depth + 1) + 1 := by omega
        calc
          children.yield.length ≤ children.roots.length * bound ^ (limit - (depth + 1)) :=
            childrenInduction childrenBounded
          _ ≤ bound * bound ^ (limit - (depth + 1)) := Nat.mul_le_mul_right _ short
          _ = bound ^ (limit - depth) := by rw [levels, Nat.pow_succ, Nat.mul_comm]
      rw [yield, roots, List.length_append, List.length_cons, Nat.succ_mul]
      omega

end Forest

namespace Grammar

variable {grammar : Grammar} {depth : Nat} {symbol : Symbol}

/-- Rules lead from the start symbol to the other symbol. -/
def Reachable (grammar : Grammar) (symbol : Symbol) : Prop :=
  ∃ count, Repeated grammar.Uses grammar.start count symbol

/-- Every nonterminal that can come up has a body of terminals. -/
def Settles (grammar : Grammar) : Prop :=
  ∀ symbol, symbol.isNonterminal = true → grammar.Reachable symbol →
    ∃ body, ⟨symbol, body⟩ ∈ grammar.productions ∧ ∀ symbol ∈ body, symbol.isTerminal = true

def greatestBodyLength (grammar : Grammar) : Nat :=
  (grammar.productions.map (·.body.length)).max?.getD 0

theorem length_le_greatestBodyLength
    {production : Production} (member : production ∈ grammar.productions) :
    production.body.length ≤ grammar.greatestBodyLength :=
  List.le_max?_getD_of_mem (List.mem_map_of_mem member)

theorem greatestBodyLength_pos (grammar : Grammar) : 0 < grammar.greatestBodyLength := by
  obtain ⟨production, member, _⟩ := grammar.start_isHead
  have nonempty := List.length_pos_iff.mpr (body_ne_nil member)
  have bounded := length_le_greatestBodyLength member
  omega

theorem Settles.exists_body
    (settles : grammar.Settles) (occurs : grammar.Occurs depth symbol) :
    ∃ body ∈ grammar.bodies symbol, ∀ symbol ∈ body, symbol.isTerminal = true := by
  obtain ⟨body, member, terminals⟩ := settles symbol occurs.isNonterminal ⟨depth, occurs.repeated⟩
  exact ⟨body, (grammar.mem_bodies_iff symbol body).mpr member, terminals⟩

/-- No nonterminal comes up more than one level beyond the settling depth, since
the bodies that are chosen from there on are of terminals. -/
theorem Settles.depth_le
    (settles : grammar.Settles) (occurs : grammar.Occurs depth symbol) :
    depth ≤ settlingDepth + 1 := by
  cases occurs with
  | start => exact Nat.zero_le _
  | @used above head _ body occurs candidate member isNonterminal =>
      by_contra deeper
      have deep : settlingDepth < above := by omega
      have terminals := isTerminal_of_mem_candidates deep (settles.exists_body occurs) candidate
      have isTerminal := terminals symbol member
      rw [Symbol.isTerminal_of_isNonterminal isNonterminal] at isTerminal
      cases isTerminal

/-- The heads in a forest that is made of candidates come up where they are, if
its roots do. -/
theorem occurs_of_mem_expansions
    {forest : Forest}
    (candidates : ∀ expansion ∈ forest.expansions depth,
      expansion.body ∈ grammar.candidates expansion.depth expansion.head)
    (rootsOccur : ∀ symbol ∈ forest.roots, symbol.isNonterminal = true →
      grammar.Occurs depth symbol) :
    ∀ expansion ∈ forest.expansions depth, grammar.Occurs expansion.depth expansion.head := by
  induction forest generalizing depth with
  | empty => exact List.forall_mem_nil _
  | leaf character later induction =>
      apply induction candidates
      intro symbol member
      exact rootsOccur symbol (List.mem_cons_of_mem _ member)
  | node head children later childrenInduction laterInduction =>
      simp only [Forest.expansions, List.forall_mem_cons, List.forall_mem_append]
        at candidates ⊢
      obtain ⟨candidate, childrenCandidates, laterCandidates⟩ := candidates
      have occurs : grammar.Occurs depth head :=
        rootsOccur head List.mem_cons_self (isNonterminal_of_mem_candidates candidate)
      refine ⟨occurs, childrenInduction childrenCandidates ?_,
        laterInduction laterCandidates ?_⟩
      · intro symbol member isNonterminal
        exact .used occurs candidate member isNonterminal
      · intro symbol member
        exact rootsOccur symbol (List.mem_cons_of_mem _ member)

section Generator

variable {σ : Type} [ChoiceSource σ] {source rest : σ} {tree : Forest}
  {error : GenerationError}

theorem occurs_of_randomTree
    (generated : grammar.randomTree source = .ok (tree, rest)) :
    ∀ expansion ∈ tree.expansions 0,
      grammar.Occurs expansion.depth expansion.head ∧
        expansion.body ∈ grammar.candidates expansion.depth expansion.head := by
  obtain ⟨roots, chosen⟩ := randomTree_eq_ok_iff.mp generated
  have candidates := fun expansion member => (chosen.candidate expansion member).2
  have rootsOccur : ∀ symbol ∈ tree.roots, symbol.isNonterminal = true →
      grammar.Occurs 0 symbol := by
    intro symbol member _
    rw [roots, List.mem_singleton] at member
    exact member ▸ .start
  intro expansion member
  exact ⟨occurs_of_mem_expansions candidates rootsOccur expansion member,
    candidates expansion member⟩

theorem Settles.not_failsToGrow
    (settles : grammar.Settles) (chooses : ChoiceSource.AlwaysChooses source) :
    ¬ grammar.FailsToGrow source error := by
  intro fails
  cases fails with
  | undefinedNonterminal occurs _ undefined =>
      obtain ⟨body, member, _⟩ := settles.exists_body occurs
      rw [undefined] at member
      cases member
  | depthExceeded occurs =>
      exact absurd (settles.depth_le occurs) (by decide)
  | @noChoice rest count remains positive refused =>
      obtain ⟨index, later, chosen⟩ := chooses rest count remains positive
      rw [refused] at chosen
      cases chosen

theorem Settles.length_yield_le
    (settles : grammar.Settles) (generated : grammar.randomTree source = .ok (tree, rest)) :
    tree.yield.length ≤ grammar.greatestBodyLength ^ (settlingDepth + 2) := by
  have bounded : ∀ expansion ∈ tree.expansions 0,
      expansion.depth < settlingDepth + 2 ∧
        expansion.body.length ≤ grammar.greatestBodyLength := by
    intro expansion member
    obtain ⟨occurs, candidate⟩ := occurs_of_randomTree generated expansion member
    exact ⟨Nat.lt_succ_of_le (settles.depth_le occurs),
      length_le_greatestBodyLength (mem_productions_of_mem_candidates candidate)⟩
  have bound := Forest.length_yield_le grammar.greatestBodyLength_pos bounded
  rw [(randomTree_eq_ok_iff.mp generated).1] at bound
  simpa using bound

/-- If every nonterminal that can come up has a body of terminals, each source
makes a tree, and its sentence is no longer than the greatest length of a body to
the power of the levels. -/
theorem randomTree_settles
    (settles : grammar.Settles) (chooses : ChoiceSource.AlwaysChooses source) :
    ∃ tree rest, grammar.randomTree source = .ok (tree, rest) ∧
      tree.yield.length ≤ grammar.greatestBodyLength ^ 34 := by
  cases generated : grammar.randomTree source with
  | error failure => exact absurd (randomTree_fails generated) (settles.not_failsToGrow chooses)
  | ok made =>
      obtain ⟨tree, rest⟩ := made
      exact ⟨tree, rest, rfl, settles.length_yield_le generated⟩

end Generator

end Grammar

namespace WordStream

variable {stream rest : WordStream} {count allowed : Nat}

/-- The first candidate is what the word zero picks. -/
theorem pick?_zero
    (positive : 0 < count) :
    pick? count 0 = some ⟨0, positive⟩ := by
  simp [pick?, positive]

theorem exists_chooseWithin
    {distance : Nat} (positive : 0 < count) (near : distance < allowed)
    (isZero : stream.word (stream.position + distance) = 0) :
    ∃ index later, chooseWithin count allowed stream = some (index, later) := by
  induction allowed generalizing stream distance with
  | zero => exact absurd near (Nat.not_lt_zero _)
  | succ allowed induction =>
      rw [chooseWithin]
      cases picked : pick? count (stream.word stream.position) with
      | some index => exact ⟨index, _, rfl⟩
      | none =>
          cases distance with
          | zero =>
              rw [Nat.add_zero] at isZero
              rw [isZero, pick?_zero positive] at picked
              cases picked
          | succ distance =>
              apply induction (Nat.lt_of_succ_lt_succ near)
              rw [← isZero]
              exact congrArg stream.word (by dsimp only; omega)

theorem chooseWithin_rest
    {index : Fin count} (chosen : chooseWithin count allowed stream = some (index, rest)) :
    rest.word = stream.word ∧ rest.period = stream.period := by
  induction allowed generalizing stream with
  | zero => cases chosen
  | succ allowed induction =>
      rw [chooseWithin] at chosen
      split at chosen
      · cases chosen
        exact ⟨rfl, rfl⟩
      · have moved := induction chosen
        exact moved

/-- Choices only move on in a stream. -/
theorem remains_rest
    (remains : Remains stream rest) :
    rest.word = stream.word ∧ rest.period = stream.period := by
  induction remains with
  | none => exact ⟨rfl, rfl⟩
  | next _ chosen induction =>
      obtain ⟨sameWord, samePeriod⟩ := chooseWithin_rest chosen
      exact ⟨sameWord.trans induction.1, samePeriod.trans induction.2⟩

/-- A stream in whose every period a zero comes up never refuses a choice. -/
theorem alwaysChooses_of_zeros
    (zeros : ∀ position, ∃ distance < stream.period, stream.word (position + distance) = 0) :
    ChoiceSource.AlwaysChooses stream := by
  intro rest count remains positive
  obtain ⟨sameWord, samePeriod⟩ := remains_rest remains
  obtain ⟨distance, near, isZero⟩ := zeros rest.position
  rw [← sameWord] at isZero
  rw [← samePeriod] at near
  exact exists_chooseWithin positive near isZero

end WordStream

namespace Grammar

theorem repetition_settles : repetition.Settles := by
  intro symbol isNonterminal reachable
  obtain ⟨count, path⟩ := reachable
  have same : symbol = .nonterminal 'S' := by
    cases path with
    | none => rfl
    | next _ last =>
        obtain ⟨body, member, inBody⟩ := last
        simp only [repetition, List.mem_cons, List.not_mem_nil, or_false, Production.mk.injEq]
          at member
        obtain ⟨_, rfl⟩ | ⟨_, rfl⟩ := member
        · obtain rfl | rfl := by simpa using inBody
          · cases isNonterminal
          · rfl
        · obtain rfl := by simpa using inBody
          cases isNonterminal
  subst same
  exact ⟨[.terminal 'b'], by decide, by decide⟩

/-- The repeated letter is a sentence of 34 characters, where bodies have two. -/
theorem repetition_randomTree_settles :
    let zeros := WordStream.cycle 0 []
    repetition.Settles ∧ ChoiceSource.AlwaysChooses zeros ∧ repetition.greatestBodyLength = 2 ∧
      ∃ tree rest, repetition.randomTree zeros = .ok (tree, rest) ∧
        tree.yield.length ≤ 2 ^ 34 := by
  intro zeros
  have chooses : ChoiceSource.AlwaysChooses zeros := by
    apply WordStream.alwaysChooses_of_zeros
    intro position
    refine ⟨0, by decide, ?_⟩
    simp [zeros, WordStream.cycle, Nat.mod_one]
  exact ⟨repetition_settles, chooses, by decide, randomTree_settles repetition_settles chooses⟩

end Grammar

end PrecedenceGrammar
