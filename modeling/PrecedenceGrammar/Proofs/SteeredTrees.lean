import Mathlib.Algebra.Group.Nat.Defs
import PrecedenceGrammar.Proofs.GenerationOutcomes

/-!
# Trees steered by words

For each candidate there is a word that picks it, namely its index scaled to the
words and rounded up.  Down to the settling depth every body is a candidate, so
the words for the expansions of a shallow tree, one after another, make the
generator return that tree.
-/

namespace PrecedenceGrammar

namespace WordStream

variable {count : Nat}

/-- Shifted to the top of a word, the number of candidates still fits into it. -/
theorem shifted_lt
    (positive : 0 < count) (few : count < UInt32.size) :
    count <<< (31 - count.log2) < UInt32.size := by
  have log_lt : count.log2 < 32 := (Nat.log2_lt (Nat.ne_of_gt positive)).mpr few
  have exponent_eq : count.log2 + 1 + (31 - count.log2) = 32 := by omega
  calc
    count <<< (31 - count.log2) = count * 2 ^ (31 - count.log2) := Nat.shiftLeft_eq _ _
    _ < 2 ^ (count.log2 + 1) * 2 ^ (31 - count.log2) :=
      Nat.mul_lt_mul_of_pos_right Nat.lt_log2_self (Nat.two_pow_pos _)
    _ = 2 ^ (count.log2 + 1 + (31 - count.log2)) := (Nat.pow_add 2 _ _).symm
    _ = 2 ^ 32 := congrArg (2 ^ ·) exponent_eq
    _ = UInt32.size := rfl

theorem le_shifted (count : Nat) : count ≤ count <<< (31 - count.log2) := by
  rw [Nat.shiftLeft_eq]
  exact Nat.le_mul_of_pos_right _ (Nat.two_pow_pos _)

theorem zone_eq
    (positive : 0 < count) (few : count < UInt32.size) :
    zone count = count <<< (31 - count.log2) - 1 := by
  have inWord := shifted_lt positive few
  have notZero := positive.trans_le (le_shifted count)
  rw [zone]
  generalize count <<< (31 - count.log2) = shifted at inWord notZero
  have wrapped : shifted + (UInt32.size - 1) = shifted - 1 + UInt32.size := by omega
  rw [wrapped, Nat.add_mod_right, Nat.mod_eq_of_lt (by omega)]

/-- No remainder below the number of candidates lies beyond the zone. -/
theorem le_zone
    (positive : 0 < count) (few : count < UInt32.size) :
    count - 1 ≤ zone count := by
  rw [zone_eq positive few]
  exact Nat.sub_le_sub_right (le_shifted count) 1

/-- A word picks a candidate if its product lies at most one less than the number
of candidates above the multiple that the candidate stands for. -/
theorem pick?_eq_some
    {word : UInt32} {index : Fin count} (few : count < UInt32.size) (remainder : Nat)
    (product : word.toNat * count = remainder + index.val * UInt32.size)
    (small : remainder ≤ count - 1) :
    pick? count word = some index := by
  have inZone : remainder ≤ zone count := small.trans (le_zone index.pos few)
  have inWord : remainder < UInt32.size := by omega
  have low : word.toNat * count % UInt32.size = remainder := by
    rw [product, Nat.add_mul_mod_self_right, Nat.mod_eq_of_lt inWord]
  have high : word.toNat * count / UInt32.size = index.val := by
    rw [product, Nat.add_mul_div_right _ _ (by decide), Nat.div_eq_of_lt inWord, Nat.zero_add]
  simp only [pick?, low, high, inZone, index.pos, if_true, dite_true]

/-- Each candidate is picked by the least word whose product reaches it. -/
theorem exists_pick?
    (few : count < UInt32.size) (index : Fin count) :
    ∃ word, pick? count word = some index := by
  let raised := index.val * UInt32.size + (count - 1)
  have reached : raised < raised / count * count + count := Nat.lt_div_mul_add index.pos
  have bounded : raised / count * count ≤ raised := Nat.div_mul_le_self _ _
  have next_le : (index.val + 1) * UInt32.size ≤ count * UInt32.size :=
    Nat.mul_le_mul_right _ index.isLt
  rw [Nat.succ_mul] at next_le
  have inRange : raised / count < UInt32.size := by
    apply Nat.lt_of_mul_lt_mul_right (a := count)
    rw [Nat.mul_comm UInt32.size]
    omega
  refine ⟨UInt32.ofNat (raised / count), ?_⟩
  apply pick?_eq_some few (raised / count * count - index.val * UInt32.size)
  · rw [UInt32.toNat_ofNat_of_lt' inRange]
    omega
  · omega

/-- The next words of a stream. -/
def Begins (stream : WordStream) (words : List UInt32) : Prop :=
  0 < stream.period ∧
    ∀ place (inBounds : place < words.length), stream.word (stream.position + place) = words[place]

theorem begins_cycle (first : UInt32) (later : List UInt32) :
    (cycle first later).Begins (first :: later) := by
  refine ⟨Nat.succ_pos _, ?_⟩
  intro place inBounds
  rw [List.length_cons] at inBounds
  simp [cycle, Nat.mod_eq_of_lt inBounds, inBounds]

/-- A choice reads one word if that picks a candidate. -/
theorem Begins.choose_eq
    {stream : WordStream} {word : UInt32} {words : List UInt32} {index : Fin count}
    (begins : stream.Begins (word :: words)) (picked : pick? count word = some index) :
    ChoiceSource.choose count stream =
      some (index, { stream with position := stream.position + 1 }) := by
  obtain ⟨positive, read⟩ := begins
  have next : stream.word stream.position = word := read 0 (Nat.succ_pos _)
  obtain ⟨allowed, period_eq⟩ := Nat.exists_eq_add_of_lt positive
  have chosen : chooseWithin count (0 + allowed + 1) stream =
      some (index, { stream with position := stream.position + 1 }) := by
    rw [chooseWithin, next, picked]
  exact (congrArg (chooseWithin count · stream) period_eq).trans chosen

theorem Begins.later
    {stream : WordStream} {word : UInt32} {words : List UInt32}
    (begins : stream.Begins (word :: words)) :
    { stream with position := stream.position + 1 }.Begins words := by
  refine ⟨begins.1, ?_⟩
  intro place inBounds
  have read := begins.2 (place + 1) (Nat.succ_lt_succ inBounds)
  rw [List.getElem_cons_succ] at read
  rw [← read]
  exact congrArg stream.word (by dsimp only; omega)

end WordStream

namespace Grammar

variable {grammar : Grammar} {tree : Forest} {words : List UInt32} {stream : WordStream}

/-- The word picks the body of the expansion among the candidates for it. -/
def Steers (grammar : Grammar) (expansion : Expansion) (word : UInt32) : Prop :=
  let candidates := grammar.candidates expansion.depth expansion.head
  ∃ index, WordStream.pick? candidates.length word = some index ∧
    candidates.get index = expansion.body

/-- The expansions that the next words steer, one word each, are chosen from a
stream, which goes on after these words. -/
theorem chosen_of_steers
    {expansions : List Expansion}
    (within : ∀ expansion ∈ expansions, expansion.depth ≤ greatestDepth)
    (steers : List.Forall₂ grammar.Steers expansions words) (begins : stream.Begins words) :
    grammar.Chosen expansions stream
      { stream with position := stream.position + words.length } := by
  induction steers generalizing stream with
  | nil => exact .none stream
  | @cons expansion word expansions words steersFirst _ induction =>
      obtain ⟨firstWithin, laterWithin⟩ := List.forall_mem_cons.mp within
      obtain ⟨index, picked, body_eq⟩ := steersFirst
      refine .next firstWithin (begins.choose_eq picked) body_eq ?_
      have continued := induction laterWithin begins.later
      rw [Nat.add_right_comm] at continued
      exact continued

/-- A stream that begins with the words for a tree makes the generator return the
tree. -/
theorem randomTree_of_steers
    (roots : tree.roots = [grammar.start])
    (within : ∀ expansion ∈ tree.expansions 0, expansion.depth ≤ greatestDepth)
    (steers : List.Forall₂ grammar.Steers (tree.expansions 0) words)
    (begins : stream.Begins words) :
    grammar.randomTree stream =
      .ok (tree, { stream with position := stream.position + words.length }) :=
  randomTree_eq_ok_iff.mpr ⟨roots, chosen_of_steers within steers begins⟩

/-- Where all bodies are candidates, there is a word for each of them. -/
theorem exists_steers
    {expansion : Expansion} (shallow : expansion.depth ≤ settlingDepth)
    (few : (grammar.bodies expansion.head).length < UInt32.size)
    (member : ⟨expansion.head, expansion.body⟩ ∈ grammar.productions) :
    ∃ word, grammar.Steers expansion word := by
  have isCandidate : expansion.body ∈ grammar.candidates expansion.depth expansion.head := by
    rw [candidates_eq_bodies shallow]
    exact (grammar.mem_bodies_iff _ _).mpr member
  obtain ⟨index, body_eq⟩ := List.get_of_mem isCandidate
  rw [← candidates_eq_bodies shallow] at few
  obtain ⟨word, picked⟩ := WordStream.exists_pick? few index
  exact ⟨word, index, picked, body_eq⟩

theorem exists_words_steer
    {expansions : List Expansion}
    (each : ∀ expansion ∈ expansions, ∃ word, grammar.Steers expansion word) :
    ∃ words, List.Forall₂ grammar.Steers expansions words := by
  induction expansions with
  | nil => exact ⟨[], .nil⟩
  | cons expansion expansions induction =>
      obtain ⟨⟨word, steers⟩, laterEach⟩ := List.forall_mem_cons.mp each
      obtain ⟨words, laterSteer⟩ := induction laterEach
      exact ⟨word :: words, .cons steers laterSteer⟩

/-- Every tree of a grammar whose nonterminals do not lie below the settling depth
is returned for some words.  The generator takes one choice for each expansion,
before those below it and these before those to its right, and each choice takes
the one word that picks the body. -/
theorem exists_words_randomTree
    (few : ∀ symbol, (grammar.bodies symbol).length < 2 ^ 32)
    (roots : tree.roots = [grammar.start]) (follows : tree.Follows grammar)
    (shallow : ∀ expansion ∈ tree.expansions 0, expansion.depth ≤ 32) :
    ∃ first later,
      let stream := WordStream.cycle first later
      let rest := { stream with position := (tree.expansions 0).length }
      grammar.randomTree stream = .ok (tree, rest) ∧
        grammar.Chosen (tree.expansions 0) stream rest ∧
        List.Forall₂ grammar.Steers (tree.expansions 0) (first :: later) := by
  have members := (Forest.follows_iff_expansions 0).mp follows
  have within : ∀ expansion ∈ tree.expansions 0, expansion.depth ≤ greatestDepth := by
    intro expansion member
    exact (shallow expansion member).trans (by decide)
  obtain ⟨words, steers⟩ : ∃ words, List.Forall₂ grammar.Steers (tree.expansions 0) words := by
    apply exists_words_steer
    intro expansion member
    exact exists_steers (shallow expansion member) (few _) (members expansion member)
  have steered := steers
  obtain ⟨children, rfl⟩ := exists_node_of_roots roots
  cases steered with
  | @cons _ first _ later =>
      have begins := WordStream.begins_cycle first later
      have generated := randomTree_of_steers roots within steers begins
      have chosen := chosen_of_steers within steers begins
      rw [← steers.length_eq, WordStream.cycle, Nat.zero_add] at generated chosen
      exact ⟨first, later, generated, chosen, steers⟩

/-- The letter repeated down to the settling depth, and the other one there. -/
def deepRepetition : Forest :=
  let repeated := Nat.repeat (fun below => .leaf 'a' (.node (.nonterminal 'S') below .empty)) 32
  .node (.nonterminal 'S') (repeated (.leaf 'b' .empty)) .empty

/-- Its sentence is generated by one word for each of its 33 nonterminals. -/
theorem deepRepetition_exists_words :
    (∀ symbol, (repetition.bodies symbol).length < 2 ^ 32) ∧
      deepRepetition.roots = [repetition.start] ∧ deepRepetition.Follows repetition ∧
      (∀ expansion ∈ deepRepetition.expansions 0, expansion.depth ≤ 32) ∧
      deepRepetition.yield = List.replicate 32 'a' ++ ['b'] ∧
      (deepRepetition.expansions 0).length = 33 ∧
      ∃ first later, repetition.randomTree (WordStream.cycle first later) =
        .ok (deepRepetition, { WordStream.cycle first later with position := 33 }) := by
  have few : ∀ symbol, (repetition.bodies symbol).length < 2 ^ 32 := by
    intro symbol
    have bounded : (repetition.bodies symbol).length ≤ repetition.productions.length := by
      rw [bodies, List.length_map]
      exact List.length_filter_le _ _
    exact bounded.trans_lt (by decide)
  have follows : deepRepetition.Follows repetition :=
    (Forest.follows_iff_expansions 0).mpr (by decide +kernel)
  have shallow : ∀ expansion ∈ deepRepetition.expansions 0, expansion.depth ≤ 32 := by
    decide +kernel
  have length_eq : (deepRepetition.expansions 0).length = 33 := by decide +kernel
  obtain ⟨first, later, generated, _⟩ := exists_words_randomTree few rfl follows shallow
  rw [length_eq] at generated
  exact ⟨few, rfl, follows, shallow, by decide +kernel, length_eq, first, later, generated⟩

end Grammar

end PrecedenceGrammar
